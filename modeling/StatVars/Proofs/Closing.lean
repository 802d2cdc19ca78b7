import StatVars.Proofs.Balance

/-!
# How statements are closed

On a pass over a text, the arguments of every opened statement have been read up to where the pass
stands, and each opened statement lies within the arguments of the next: `Extraction.Scan.Traced`.
So each statement that is found is a part of the text that its last bracket closes. Main statement:
`Extraction.closed_by_parenthesis_iff`.
-/

namespace StatVars

theorem Text.dropBytes_one (c : Char) (s : List Char) : dropBytes 1 (c :: s) = s := by
  rw [dropBytes, if_neg Nat.one_ne_zero, Nat.sub_eq_zero_of_le c.utf8Size_pos, dropBytes_zero]

namespace Extraction

variable {options : Options} {text rest args : List Char} {c q : Char} {d : Depth} {o : Opened}
  {position : Nat}

/-! ## The opening of a statement -/

namespace Scan

variable {before : Option Char} {verb : List Char}

theorem plain_of_inVerb (hc : inVerb c) (d : Depth) : Text.isQuote c = false ∧ d.past c = d := by
  have hne (x : Char) (hx : inVerb x = false) : (c == x) = false := by
    rw [beq_eq_false_iff_ne]
    rintro rfl
    simp [hx] at hc
  refine ⟨?_, ?_⟩
  · simp only [Text.isQuote, hne '"' rfl, hne '\'' rfl, hne '\x60' rfl, Bool.or_false]
  · simp only [Depth.past, hne '(' rfl, hne '\x7b' rfl, hne '[' rfl, hne ')' rfl, hne '\x7d' rfl,
      hne ']' rfl, if_neg Bool.false_ne_true]

theorem utf8Size_of_inVerb (hc : inVerb c) : c.utf8Size = 1 := by
  change (decide ('A'.val ≤ c.val ∧ c.val ≤ 'Z'.val) ||
    (decide ('a'.val ≤ c.val) && decide (c.val ≤ 'z'.val)) ||
    (decide ('0'.val ≤ c.val) && decide (c.val ≤ '9'.val)) || c == '_') = true at hc
  simp only [Bool.or_eq_true, Bool.and_eq_true, decide_eq_true_eq, beq_iff_eq] at hc
  rw [Char.utf8Size_eq_one_iff]
  obtain ((⟨-, hc⟩ | ⟨-, hc⟩) | ⟨-, hc⟩) | rfl := hc
  · exact UInt32.le_trans hc (by decide)
  · exact UInt32.le_trans hc (by decide)
  · exact UInt32.le_trans hc (by decide)
  · decide

theorem byteLength_verb (h : ∀ c ∈ verb, inVerb c) : Text.byteLength verb = verb.length :=
  Text.byteLength_ascii fun c hc => utf8Size_of_inVerb (h c hc)

theorem opening?_eq_some (h : opening? before rest = some (verb, args)) :
    rest = '.' :: (verb ++ '(' :: args) ∧ ∀ c ∈ verb, inVerb c := by
  unfold opening? at h
  split at h
  · cases h
  split at h
  · next c s =>
    split at h
    · next hc =>
      split at h
      · next hdrop =>
        cases h
        have hs : s = s.takeWhile inVerb ++ '(' :: args := by
          rw [← hdrop, List.takeWhile_append_dropWhile]
        have hverb : inVerb c := by simp [inVerb, Char.isAlphanum, hc]
        exact ⟨by rw [List.cons_append, ← hs],
          List.forall_mem_cons.2 ⟨hverb, fun x hx => List.mem_takeWhile_imp hx⟩⟩
      · cases h
    · cases h
  · cases h

end Scan

/-! ## The place of a statement -/

/-- The closed statement is this part of the text. -/
def Closed.StandsIn (text : List Char) (k : Closed) : Prop :=
  ∃ before c, text = before ++ '_' :: '.' :: (k.verb ++ '(' :: (k.args ++ c :: k.rest)) ∧
    Text.byteLength before = k.start ∧ EndsCall k.args c

namespace Opened

/-- The opened statement is this part of the text. -/
def StandsIn (text : List Char) (o : Opened) : Prop :=
  ∃ before, text = before ++ '_' :: '.' :: (o.verb ++ '(' :: o.args) ∧
    Text.byteLength before = o.start ∧ o.argsStart = o.start + Text.byteLength o.verb + 3

/-- The arguments have been read up to the text ahead. -/
def ReadTo (o : Opened) (quote : Option Char) (d : Depth) (ahead : List Char) : Prop :=
  ahead ≠ [] → ∃ a, o.args = a ++ ahead ∧ KeepsOpen a ∧
    Reading.behind a = ⟨quote, false, d.inside o.base⟩

namespace ReadTo

theorem within {quote : Option Char} (h : o.ReadTo quote d (c :: rest)) : d.Within o.base := by
  obtain ⟨a, -, hopen, hread⟩ := h (by simp)
  have hdepth := hopen a (List.prefix_refl a)
  rwa [hread, Depth.within_inside] at hdepth

theorem step {quote quote' : Option Char} {d' : Depth} (h : o.ReadTo quote d (c :: rest))
    (hd : d'.Within o.base) (hnext : (⟨quote, false, d.inside o.base⟩ : Reading).next c =
      ⟨quote', false, d'.inside o.base⟩) : o.ReadTo quote' d' rest := by
  intro _
  obtain ⟨a, hargs, hopen, hread⟩ := h (by simp)
  have hread' : Reading.behind (a ++ [c]) = ⟨quote', false, d'.inside o.base⟩ := by
    rw [Reading.behind_concat, hread, hnext]
  refine ⟨a ++ [c], by simp [hargs], hopen.concat ?_, hread'⟩
  rw [hread']
  exact Depth.within_inside.2 hd

theorem plain (h : o.ReadTo none d (c :: rest)) (hc : Text.isQuote c = false)
    (hd : (d.past c).Within o.base) : o.ReadTo none (d.past c) rest := by
  refine h.step hd ?_
  rw [Reading.next_plain hc, Depth.inside_past]

theorem quote (h : o.ReadTo none d (c :: rest)) (hc : Text.isQuote c) :
    o.ReadTo (some c) d rest :=
  h.step h.within (Reading.next_quote hc)

theorem quoted (h : o.ReadTo (some q) d (c :: rest)) (hc : c ≠ '\\') :
    o.ReadTo (if c = q then none else some q) d rest :=
  h.step h.within (Reading.next_quoted hc)

/-- A backslash in a string takes the character behind it along. -/
theorem escape (h : o.ReadTo (some q) d ('\\' :: rest)) :
    o.ReadTo (some q) d (Text.dropBytes 1 rest) := by
  intro hahead
  obtain ⟨a, hargs, hopen, hread⟩ := h (by simp)
  cases rest with
  | nil => exact absurd rfl hahead
  | cons e rest =>
    have hslash : Reading.behind (a ++ ['\\']) = ⟨some q, true, d.inside o.base⟩ := by
      rw [Reading.behind_concat, hread]
      rfl
    have hescaped : Reading.behind (a ++ ['\\'] ++ [e]) = ⟨some q, false, d.inside o.base⟩ := by
      rw [Reading.behind_concat, hslash]
      rfl
    have hdepth := hopen a (List.prefix_refl a)
    rw [hread] at hdepth
    have hopen' : KeepsOpen (a ++ ['\\']) := hopen.concat (by rw [hslash]; exact hdepth)
    rw [Text.dropBytes_one]
    exact ⟨a ++ ['\\'] ++ [e], by simp [hargs], hopen'.concat (by rw [hescaped]; exact hdepth),
      hescaped⟩

/-- A part without quotes and brackets leaves the counts as they are. -/
theorem level (part : List Char) (h : o.ReadTo none d (part ++ rest))
    (hpart : ∀ c ∈ part, Text.isQuote c = false ∧ d.past c = d) : o.ReadTo none d rest := by
  induction part with
  | nil => exact h
  | cons c part ih =>
    obtain ⟨⟨hc, hd⟩, hpart⟩ := List.forall_mem_cons.1 hpart
    have hnext := ReadTo.plain h hc (by rw [hd]; exact h.within)
    rw [hd] at hnext
    exact ih hnext hpart

/-- The opening of a statement counts its parenthesis. -/
theorem opening {verb args : List Char} (h : o.ReadTo none d ('_' :: '.' :: (verb ++ '(' :: args)))
    (hverb : ∀ c ∈ verb, Scan.inVerb c) :
    o.ReadTo none { d with paren := d.paren + 1 } args := by
  have hlevel : o.ReadTo none d ('(' :: args) := by
    refine level ('_' :: '.' :: verb) h fun c hc => ?_
    obtain rfl | rfl | hc : c = '_' ∨ c = '.' ∨ c ∈ verb := by simpa using hc
    · exact ⟨rfl, rfl⟩
    · exact ⟨rfl, rfl⟩
    · exact Scan.plain_of_inVerb (hverb c hc) d
  exact hlevel.plain rfl (hlevel.within.past rfl)

end ReadTo

/-- A statement that a bracket ends has the arguments that have been read. -/
theorem closedAt_eq {passed a : List Char} (hstands : o.StandsIn text)
    (hargs : o.args = a ++ c :: rest) (htext : text = passed ++ c :: rest)
    (hposition : Text.byteLength passed = position) :
    Scan.Opened.closedAt o position rest = ⟨o.verb, o.start, a, position, rest⟩ := by
  obtain ⟨before, rfl, hstart, hargsStart⟩ := hstands
  have hpassed : passed = before ++ '_' :: '.' :: (o.verb ++ '(' :: a) := by
    have : before ++ '_' :: '.' :: (o.verb ++ '(' :: a) ++ c :: rest = passed ++ c :: rest := by
      rw [← htext, hargs]
      simp
    exact (List.append_cancel_right this).symm
  have hlength : position - o.argsStart = Text.byteLength a := by
    have hmark : ('_' : Char).utf8Size = 1 ∧ ('.' : Char).utf8Size = 1 ∧
        ('(' : Char).utf8Size = 1 := by decide
    rw [← hposition, hpassed, hargsStart, ← hstart]
    simp only [Text.byteLength_append, Text.byteLength_cons, hmark]
    omega
  rw [Scan.Opened.closedAt, hlength, hargs, Text.takeBytes_append]

/-- A statement that a bracket ends is the part of the text up to there. -/
theorem closedAt_standsIn {passed : List Char} (hstands : o.StandsIn text)
    (hread : o.ReadTo none d (c :: rest)) (htext : text = passed ++ c :: rest)
    (hposition : Text.byteLength passed = position) (hclose : Depth.isClosing c)
    (hd : d.past c = o.base) : (Scan.Opened.closedAt o position rest).StandsIn text := by
  obtain ⟨a, hargs, hopen, hbehind⟩ := hread (by simp)
  rw [closedAt_eq hstands hargs htext hposition]
  obtain ⟨before, rfl, hstart, -⟩ := hstands
  refine ⟨before, c, by simp [hargs], hstart, hclose, hopen, by rw [hbehind], ?_⟩
  rw [hbehind, ← Depth.inside_past, Depth.inside_eq_ended]
  exact hd

end Opened

/-! ## A pass follows the calls -/

namespace Scan

variable {st st' : Scan}

/-- The text that the search has not passed over yet. -/
def ahead (st : Scan) (rest : List Char) : List Char :=
  Text.dropBytes (st.resume - st.position) rest

theorem ahead_eq (h : st.resume ≤ st.position) : st.ahead rest = rest := by
  rw [ahead, Nat.sub_eq_zero_of_le h, Text.dropBytes_zero]

theorem ahead_skip (h : st.position < st.resume) :
    (st.advance st.position c).ahead rest = st.ahead (c :: rest) := by
  have hne : st.resume - st.position ≠ 0 := Nat.sub_ne_zero_of_lt h
  rw [ahead, ahead, Text.dropBytes, if_neg hne, Nat.sub_sub]
  rfl

theorem ahead_escape : ({ st with resume := st.position + 2 }.advance st.position '\\').ahead rest =
    Text.dropBytes 1 rest := by
  change Text.dropBytes (st.position + 2 - (st.position + 1)) rest = _
  congr 1
  omega

/-- The search goes on with the arguments of a statement that has been opened. -/
theorem ahead_enter {verb : List Char} (hverb : ∀ c ∈ verb, inVerb c) (args : List Char) :
    ((Scan.enter st verb args).advance st.position '_').ahead ('.' :: (verb ++ '(' :: args)) =
      args := by
  have hskip : st.position + verb.length + 3 - (st.position + 1) =
      Text.byteLength ('.' :: (verb ++ ['('])) := by
    have hmark : ('.' : Char).utf8Size = 1 ∧ ('(' : Char).utf8Size = 1 := by decide
    simp only [Text.byteLength_append, Text.byteLength_cons, Text.byteLength_nil, hmark,
      byteLength_verb hverb]
    omega
  have hsplit : '.' :: (verb ++ '(' :: args) = '.' :: (verb ++ ['(']) ++ args := by simp
  change Text.dropBytes (st.position + verb.length + 3 - (st.position + 1)) _ = args
  rw [hskip, hsplit, Text.dropBytes_append]

/-- The opened statements are read up to here, each lies in the arguments of the next, and what has
been closed is part of the text. -/
structure Traced (text : List Char) (st : Scan) (rest : List Char) : Prop where
  opened : ∀ o ∈ st.stack, o.StandsIn text ∧ o.ReadTo st.quote st.depth (st.ahead rest)
  nested : st.stack.Pairwise fun o p => o.base.Within p.base
  pending : ∀ k ∈ st.pending, k.StandsIn text
  found : ∀ s ∈ st.found.statements, ∃ k : Closed, k.StandsIn text ∧ k.statement = s

theorem found_add {found : Extraction} {ks : List Closed}
    (hfound : ∀ s ∈ found.statements, ∃ k : Closed, k.StandsIn text ∧ k.statement = s)
    (hks : ∀ k ∈ ks, k.StandsIn text) (s : Statement) (hs : s ∈ (found.add options ks).statements) :
    ∃ k : Closed, k.StandsIn text ∧ k.statement = s := by
  obtain hs | ⟨k, hk, -, hstatement⟩ := mem_statements_add.1 hs
  · exact hfound s hs
  · exact ⟨k, hks k hk, hstatement⟩

namespace Traced

theorem of_empty (hstack : st.stack = []) (hpending : st.pending = [])
    (hfound : ∀ s ∈ st.found.statements, ∃ k : Closed, k.StandsIn text ∧ k.statement = s) :
    st.Traced text rest where
  opened := by simp [hstack]
  nested := by simp [hstack]
  pending := by simp [hpending]
  found := hfound

theorem skip (h : st.Traced text (c :: rest)) (hresume : st.position < st.resume) :
    (st.advance st.position c).Traced text rest := by
  refine ⟨?_, h.nested, h.pending, h.found⟩
  rw [ahead_skip hresume]
  exact h.opened

/-- The opened statements that are left when the search has looked at a character. -/
theorem of_opened {behind : List Char} (h : st.Traced text (c :: rest))
    (hresume : st.resume ≤ st.position)
    (hbehind : (st'.advance st.position c).ahead rest = behind) (hsub : st'.stack.Sublist st.stack)
    (hpending : ∀ k ∈ st'.pending, k.StandsIn text)
    (hfound : st'.found.statements = st.found.statements)
    (hread : ∀ o ∈ st'.stack, o.ReadTo st.quote st.depth (c :: rest) →
      o.ReadTo st'.quote st'.depth behind) : (st'.advance st.position c).Traced text rest where
  opened := by
    intro o ho
    obtain ⟨hstands, hahead⟩ := h.opened o (hsub.subset ho)
    rw [ahead_eq hresume] at hahead
    rw [hbehind]
    exact ⟨hstands, hread o ho hahead⟩
  nested := h.nested.sublist hsub
  pending := hpending
  found := by
    intro s hs
    exact h.found s (hfound ▸ hs)

theorem ahead_advance (hresume : st.resume ≤ st.position) :
    (st.advance st.position c).ahead rest = rest :=
  ahead_eq (Nat.le_add_right_of_le hresume)

/-- A statement that starts here lies within those that are open. -/
theorem enter {skips : List Span} {verb args : List Char} (h : st.Traced text (c :: rest))
    (hpass : Stands options text st (c :: rest)) (hresume : st.resume ≤ st.position)
    (hquote : st.quote = none) (hc : c = '_')
    (hopen : opening? st.before rest = some (verb, args)) :
    ((Scan.enter { st with skips := skips } verb args).advance st.position c).Traced text rest := by
  obtain ⟨rfl, hverb⟩ := opening?_eq_some hopen
  subst hc
  obtain ⟨passed, htext, hposition⟩ := hpass.exists_passed
  have hlength := byteLength_verb hverb
  have hbehind : ((Scan.enter { st with skips := skips } verb args).advance st.position '_').ahead
      ('.' :: (verb ++ '(' :: args)) = args := ahead_enter hverb args
  have hread (p : Opened) (hp : p ∈ st.stack) :
      p.ReadTo none st.depth ('_' :: '.' :: (verb ++ '(' :: args)) := by
    have hp := (h.opened p hp).2
    rwa [ahead_eq hresume, hquote] at hp
  refine ⟨?_, .cons (fun p hp => (hread p hp).within) h.nested, h.pending, h.found⟩
  rw [hbehind]
  change ∀ o ∈ (⟨verb, st.position, _, args, st.depth⟩ : Opened) :: st.stack,
    o.StandsIn text ∧ o.ReadTo st.quote { st.depth with paren := st.depth.paren + 1 } args
  rw [hquote]
  refine List.forall_mem_cons.2 ⟨⟨⟨passed, htext, hposition, ?_⟩, fun _ => ?_⟩, fun p hp => ?_⟩
  · rw [hlength]
  · exact ⟨[], rfl, keepsOpen_nil, by rw [Depth.inside_opened]; rfl⟩
  · exact ⟨(h.opened p hp).1, (hread p hp).opening hverb⟩

/-- The statement that a bracket ends. -/
theorem closed {inner outer : List Opened} (h : st.Traced text (c :: rest))
    (hpass : Stands options text st (c :: rest)) (hresume : st.resume ≤ st.position)
    (hquote : st.quote = none) (hclose : Depth.isClosing c)
    (hstack : st.stack = inner ++ o :: outer) (ho : st.depth.past c = o.base) :
    (Opened.closedAt o st.position rest).StandsIn text := by
  obtain ⟨passed, htext, hposition⟩ := hpass.exists_passed
  obtain ⟨hstands, hread⟩ := h.opened o (by simp [hstack])
  rw [ahead_eq hresume, hquote] at hread
  exact Opened.closedAt_standsIn hstands hread htext hposition hclose ho

/-- What holds of the outer statements when the counts are not below those of an inner one. -/
theorem readTo_outer {inner outer : List Opened} (h : st.Traced text (c :: rest))
    (hresume : st.resume ≤ st.position) (hquote : st.quote = none) (hc : Text.isQuote c = false)
    (hstack : st.stack = inner ++ o :: outer) (hbelow : (st.depth.past c).isBelow o.base = false) :
    ∀ p ∈ outer, p.ReadTo none (st.depth.past c) rest := by
  intro p hp
  have hnested := h.nested
  rw [hstack, List.pairwise_append, List.pairwise_cons] at hnested
  have hread := (h.opened p (by simp [hstack, hp])).2
  rw [ahead_eq hresume, hquote] at hread
  exact hread.plain hc ((hnested.2.1.1 p hp).of_notBelow hbelow)

theorem visited (hpass : Stands options text st (c :: rest)) (hresume : st.resume ≤ st.position)
    (hvisit : Visited options st c rest st') (h : st.Traced text (c :: rest)) :
    (st'.advance st.position c).Traced text rest := by
  cases hvisit with
  | @escape q hquote hc =>
    subst hc
    refine h.of_opened hresume ahead_escape (.refl _) h.pending rfl fun o ho hread => ?_
    rw [hquote] at hread
    change o.ReadTo st.quote st.depth _
    rw [hquote]
    exact hread.escape
  | line hquote hc =>
    rw [abandon_eq]
    refine of_empty rfl rfl ?_
    exact found_add h.found fun k hk => h.pending k (List.mem_reverse.1 hk)
  | quoted hquote hescape hline =>
    refine h.of_opened hresume (ahead_advance hresume) (.refl _) h.pending rfl fun o ho hread => ?_
    rw [hquote] at hread
    exact hread.quoted hescape
  | leap hquote hstack hskips hr =>
    refine h.of_opened hresume rfl (.refl _) h.pending rfl fun o ho => ?_
    rw [hstack] at ho
    cases ho
  | prose hquote hstack hskips hopen =>
    refine h.of_opened hresume rfl (.refl _) h.pending rfl fun o ho => ?_
    rw [hstack] at ho
    cases ho
  | @enter skips verb args hquote hc hopen hskips =>
    exact h.enter hpass hresume hquote hc hopen
  | quote hquote hstack hc =>
    refine h.of_opened hresume (ahead_advance hresume) (.refl _) h.pending rfl fun o ho hread => ?_
    rw [hquote] at hread
    exact hread.quote hc
  | plain hquote hstack hopen hc hclose =>
    refine h.of_opened hresume (ahead_advance hresume) (.refl _) h.pending rfl fun o ho hread => ?_
    change o.ReadTo st.quote _ _
    rw [hquote] at hread ⊢
    exact hread.plain hc (hread.within.past hclose)
  | @pass inner o outer hquote hclose hstack hinner ho hbelow =>
    have hc := Depth.isQuote_of_isClosing hclose
    have houter := h.readTo_outer hresume hquote hc hstack hbelow
    refine h.of_opened hresume (ahead_advance hresume) ?_ h.pending rfl fun p hp hread => ?_
    · rw [hstack]
      exact List.sublist_append_right ..
    · change p.ReadTo st.quote _ _
      rw [hquote] at hread ⊢
      obtain rfl | hp := List.mem_cons.1 hp
      · exact hread.plain hc ⟨hbelow, ho⟩
      · exact houter p hp
  | passAll hquote hclose hstack hinner =>
    refine of_empty rfl rfl ?_
    exact found_add h.found fun k hk => h.pending k (List.mem_reverse.1 hk)
  | @wait inner o outer hquote hclose hstack houter hinner ho =>
    have hc := Depth.isQuote_of_isClosing hclose
    have hbelow : (st.depth.past c).isBelow o.base = false :=
      Bool.eq_false_iff.2 fun h => Depth.ne_of_isBelow h ho
    have hread := h.readTo_outer hresume hquote hc hstack hbelow
    have hclosed := h.closed hpass hresume hquote hclose hstack ho
    refine h.of_opened hresume (ahead_advance hresume) ?_ ?_ rfl fun p hp _ => ?_
    · rw [hstack]
      exact (List.sublist_cons_self ..).trans (List.sublist_append_right ..)
    · refine List.forall_mem_cons.2 ⟨hclosed, fun k hk => ?_⟩
      exact h.pending k ((List.dropWhile_sublist _).subset hk)
    · change p.ReadTo st.quote _ _
      rw [hquote]
      exact hread p hp
  | @complete inner o hquote hclose hstack hinner ho =>
    have hclosed := h.closed hpass hresume hquote hclose hstack ho
    refine of_empty rfl rfl ?_
    refine found_add h.found fun k hk => ?_
    obtain hk | rfl := by simpa using hk
    · exact h.pending k ((List.dropWhile_sublist _).subset hk)
    · exact hclosed

end Traced

theorem Stands.traced (h : Stands options text st rest) : st.Traced text rest :=
  invariant (P := fun st rest => st.Traced text rest) (.of_empty rfl rfl nofun)
    (fun _ _ _ hresume h => h.skip hresume)
    (fun _ _ _ _ hpass hresume hvisit h => h.visited hpass hresume hvisit) h

end Scan

theorem exists_closed {s : Statement} (hs : s ∈ (ofChars options text).statements) :
    ∃ k : Closed, k.StandsIn text ∧ k.statement = s := by
  have h := (stands_final options text).traced
  rw [mem_statements_ofChars] at hs
  exact Scan.found_add h.found (fun k hk => h.pending k (List.mem_reverse.1 hk)) s hs

/-- **Every statement is a call that ends with the first bracket that brings the counts back to
those before it.** It ends with its own parenthesis, behind arguments in which all brackets and
strings are balanced, exactly if no parenthesis has ended it while a brace or a bracket was open. -/
theorem closed_by_parenthesis_iff (options : Options) (text : String) {s : Statement}
    (hs : s ∈ (ofText options text).statements) : ∃ before verb args c rest,
      text.toList = before ++ '_' :: '.' :: (verb ++ '(' :: (args ++ c :: rest)) ∧
      Text.byteLength before = s.span.start ∧ s.verb = .ofList verb ∧
      s.args = Statement.splitArguments args ∧ EndsCall args c ∧
      (c = ')' ∧ Balanced args ↔ ¬ ClosedEarly args) := by
  obtain ⟨k, ⟨before, c, htext, hstart, hends⟩, rfl⟩ := exists_closed hs
  exact ⟨before, k.verb, k.args, c, k.rest, htext, hstart, rfl, rfl, hends,
    hends.paren_and_balanced_iff⟩

/-- The parenthesis stands where the square bracket is open, and the statement ends with the
bracket. -/
theorem closed_by_bracket_list :
    let s : Statement := ⟨"set", ["'a'", "[1, 2)"], none, ⟨0, 19⟩⟩
    s ∈ (ofText {} "_.set('a', [1, 2)];").statements ∧ ∃ before verb args c rest,
      "_.set('a', [1, 2)];".toList = before ++ '_' :: '.' :: (verb ++ '(' :: (args ++ c :: rest)) ∧
      Text.byteLength before = s.span.start ∧ s.verb = .ofList verb ∧
      s.args = Statement.splitArguments args ∧ EndsCall args c ∧
      (c = ')' ∧ Balanced args ↔ ¬ ClosedEarly args) := by
  intro s
  have hs : s ∈ (ofText {} "_.set('a', [1, 2)];").statements := by decide +kernel
  exact ⟨hs, closed_by_parenthesis_iff {} _ hs⟩

example : ClosedEarly "'a', [1, 2)".toList :=
  ⟨"'a', [1, 2".toList, [], rfl, rfl, rfl, by decide⟩

end Extraction

end StatVars
