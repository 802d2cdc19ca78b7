import StatVars.Proofs.ByteSteps

/-!
# Every text can be searched

The loop over the bytes of a text runs in step with the search over its characters. A backslash in a
string can lead it into a character or behind the end of the text, but there it stays in the string
and passes over the rest of the character; and everywhere else it goes on between characters. So all
its slices exist, and what it finds lies between characters. Main statement:
`Extraction.extraction_safe`.
-/

namespace StatVars

/-- The part lies in the text, and starts and ends between characters. -/
structure Span.Cuts (text : String) (r : Span) : Prop where
  ordered : r.start ≤ r.stop
  start : (⟨r.start⟩ : String.Pos.Raw).IsValid text
  stop : (⟨r.stop⟩ : String.Pos.Raw).IsValid text

theorem Span.cuts_iff {text : String} {r : Span} :
    r.Cuts text ↔ (Text.slice? r.start r.stop text.toList).isSome := by
  rw [Text.isSome_slice?_iff, Text.boundary_iff_isValid, Text.boundary_iff_isValid]
  exact ⟨fun ⟨h, hstart, hstop⟩ => ⟨h, hstart, hstop⟩, fun ⟨h, hstart, hstop⟩ => ⟨h, hstart, hstop⟩⟩

namespace Extraction

variable {options : Options} {text rest : List Char} {c e : Char} {place : Nat}

/-! ## Within a character -/

/-- A byte that is not that of an ASCII character is passed over, unless a block to be left out
starts or ends there. -/
theorem ByteScan.step?_idle (st : ByteScan) (he : e.utf8Size ≠ 1)
    (hquote : ∀ q, st.quote = some q → Text.isQuote q)
    (hskips : st.quote = none → st.stack = [] → ∀ r, st.skips.head? = some r →
      place < r.start ∧ place < r.stop) :
    step? options text place st e = some (place + 1, st) := by
  have hne {a : Char} (ha : a.utf8Size = 1) : (e == a) = false :=
    beq_eq_false_iff_ne.2 (Text.ne_of_utf8Size_ne_one he ha)
  have hplain : st.quote = none → plain? options text place st e = some (place + 1, st) := by
    intro hnone
    have hmark : Text.isQuote e = false := Bool.eq_false_iff.2 (mt Text.utf8Size_of_isQuote he)
    have hpast : st.depth.past e = st.depth := by
      simp only [Depth.past, hne (a := '(') rfl, hne (a := '\x7b') rfl, hne (a := '[') rfl,
        hne (a := ')') rfl, hne (a := '\x7d') rfl, hne (a := ']') rfl, if_neg Bool.false_ne_true]
    simp only [plain?, argument?, hmark, hpast, hne (a := '_') rfl, hne (a := ')') rfl,
      hne (a := '\x7d') rfl, hne (a := ']') rfl, Bool.or_false, if_neg Bool.false_ne_true, ite_self]
  unfold step?
  split
  · next q hq =>
    rw [quoted?, hne (a := '\\') rfl, hne (a := '\n') rfl,
      hne (Text.utf8Size_of_isQuote (hquote q hq))]
    rfl
  · next hnone =>
    split
    · next hstack =>
      have hahead : st.skips.dropWhile (fun r => r.stop ≤ place) = st.skips := by
        cases hskip : st.skips with
        | nil => rfl
        | cons r skips =>
          have hr := (hskips hnone (List.isEmpty_iff.1 hstack) r (by rw [hskip]; rfl)).2
          exact List.dropWhile_cons_of_neg (by simpa using hr)
      rw [hahead]
      dsimp only
      split
      · exact hplain hnone
      · next r skips hskip =>
        have hr := (hskips hnone (List.isEmpty_iff.1 hstack) r (by rw [hskip]; rfl)).1
        rw [if_neg (Nat.not_le.2 hr)]
        exact hplain hnone
    · exact hplain hnone

namespace Scan

variable {st st' : Scan}

/-! ## Places between characters -/

theorem Stands.boundary (h : Stands options text st rest) : Text.Boundary st.position text := by
  obtain ⟨passed, htext, hposition⟩ := h.exists_passed
  exact ⟨passed, rest, htext, hposition⟩

/-- The blocks that are left out are slices. -/
theorem Stands.isSome_slice?_of_mem (h : Stands options text st rest) {r : Span}
    (hr : r ∈ st.skips) : (Text.slice? r.start r.stop text).isSome :=
  Tag.isSome_slice?_of_mem_nestedBlocks (h.clear.1.sublist.subset hr)

theorem mem_skips_of_mem_skipsAhead {r : Span} (hr : r ∈ st.skipsAhead) : r ∈ st.skips :=
  (List.dropWhile_sublist _).subset hr

/-- The arguments of a statement start between characters. -/
theorem Stands.boundary_args (h : Stands options text st ('_' :: rest)) {before : Option Char}
    {verb args : List Char} (hopen : opening? before rest = some (verb, args)) :
    Text.Boundary (st.position + verb.length + 3) text := by
  obtain ⟨passed, rfl, hposition⟩ := h.exists_passed
  obtain ⟨rfl, hverb⟩ := opening?_eq_some hopen
  refine ⟨passed ++ '_' :: '.' :: (verb ++ ['(']), args, by simp, ?_⟩
  have hmark : ('_' : Char).utf8Size = 1 ∧ ('.' : Char).utf8Size = 1 ∧
      ('(' : Char).utf8Size = 1 := ⟨rfl, rfl, rfl⟩
  simp only [Text.byteLength_append, Text.byteLength_cons, Text.byteLength_nil, hmark,
    byteLength_verb hverb, hposition]
  omega

/-- Behind a closed statement the search goes on between characters. -/
theorem boundary_stop {k : Closed} (h : k.LiesIn text) :
    Text.Boundary (k.stop options) text := by
  unfold Closed.stop
  split
  · exact h.boundary_stop
  · obtain ⟨passed, htext, hpassed⟩ := h.close
    exact ⟨passed, k.rest, htext, hpassed⟩

/-- Where the search passes over characters outside of strings, it does so up to a place between
characters. -/
theorem Stands.boundary_resume (h : Stands options text st rest) :
    st.quote = none → st.position < st.resume → Text.Boundary st.resume text := by
  refine invariant (P := fun st _ => st.quote = none → st.position < st.resume →
    Text.Boundary st.resume text) (fun _ h => absurd h (Nat.lt_irrefl _)) ?_ ?_ h
  · exact fun st c rest hresume ih hquote _ => ih hquote hresume
  · intro st c rest st' hpass hresume hvisit _ hquote hlt
    have hsame : ¬ st.position + c.utf8Size < st.resume :=
      Nat.not_lt.2 (Nat.le_add_right_of_le hresume)
    cases hvisit with
    | escape hquote' => exact absurd (hquote'.symm.trans hquote) (Option.some_ne_none _)
    | line =>
      rw [abandon_eq] at hlt
      exact absurd hlt hsame
    | quoted | prose | quote | plain | pass | passAll | wait => exact absurd hlt hsame
    | leap _ _ hskips =>
      have hr := mem_skips_of_mem_skipsAhead (hskips ▸ List.mem_cons_self)
      exact (Text.isSome_slice?_iff.1 (hpass.isSome_slice?_of_mem hr)).2.2
    | enter _ hc hopen =>
      subst hc
      exact hpass.boundary_args hopen
    | complete hquote hclose hstack hinner ho =>
      exact boundary_stop (closed_liesIn hpass hresume hquote hclose hstack ho)

/-! ## The run -/

/-- Behind a character that is no ASCII character, and that the search does not pass over further
than to its end, no block starts or ends within it. -/
theorem Visited.skips_behind (hvisit : Visited options st c rest st')
    (hpass : Stands options text st (c :: rest)) (hsize : c.utf8Size ≠ 1)
    (hresume : st'.resume < st.position + c.utf8Size) (hquote : st'.quote = none)
    (hstack : st'.stack = []) {r : Span} (hr : st'.skips.head? = some r) :
    st.position + c.utf8Size ≤ r.start ∧ st.position + c.utf8Size ≤ r.stop := by
  have hne {a : Char} (ha : a.utf8Size = 1) : c ≠ a := Text.ne_of_utf8Size_ne_one hsize ha
  obtain ⟨passed, htext, hposition⟩ := hpass.exists_passed
  have houtside {n : Nat} (hn : Text.Boundary n text) (hlt : st.position < n) :
      st.position + c.utf8Size ≤ n := by
    rw [htext] at hn
    rw [← hposition] at hlt ⊢
    exact hn.outside.resolve_left (Nat.not_le.2 hlt)
  have hslice {r : Span} (hr : r ∈ st.skipsAhead) :=
    Text.isSome_slice?_iff.1 (hpass.isSome_slice?_of_mem (mem_skips_of_mem_skipsAhead hr))
  cases hvisit with
  | escape _ hc => exact absurd hc (hne rfl)
  | line _ hc => exact absurd hc (hne rfl)
  | @quoted q hquote' =>
    have hc : c ≠ q := hne (Text.utf8Size_of_isQuote (hpass.isQuote q hquote'))
    exact absurd ((if_neg hc).symm.trans hquote) (Option.some_ne_none q)
  | @leap r' skips _ _ hskips hr' =>
    have hmem : r' ∈ st.skipsAhead := hskips ▸ List.mem_cons_self
    have hhead := List.head?_dropWhile_not (fun r : Span => decide (r.stop ≤ st.position)) st.skips
    rw [show st.skips.dropWhile _ = r' :: skips from hskips] at hhead
    have hlt : st.position < r'.stop := Nat.lt_of_not_le (of_decide_eq_false hhead)
    exact absurd hresume (Nat.not_lt.2 (houtside (hslice hmem).2.2 hlt))
  | prose _ _ hskips =>
    obtain ⟨hordered, hstart, -⟩ := hslice (List.mem_of_head? hr)
    have hle := houtside hstart (hskips r hr)
    exact ⟨hle, hle.trans hordered⟩
  | enter _ hc => exact absurd hc (hne rfl)
  | quote _ _ hc => exact absurd (Text.utf8Size_of_isQuote hc) hsize
  | plain _ hstack' => exact absurd hstack hstack'
  | pass _ hclose | passAll _ hclose | wait _ hclose | complete _ hclose =>
    exact absurd (utf8Size_of_isClosing hclose) hsize

/-- The loop goes on behind a character that the search passes over. -/
theorem Stands.run?_skipped (h : Stands options text st (c :: rest))
    (hresume : st.position < st.resume) :
    (ByteScan.loop options text).run? (Text.bytes text) st.resume st.marks =
      (ByteScan.loop options text).run? (Text.bytes text)
        (max (st.position + c.utf8Size) st.resume) st.marks := by
  obtain ⟨passed, htext, hposition⟩ := h.exists_passed
  by_cases hle : st.position + c.utf8Size ≤ st.resume
  · rw [max_eq_right hle]
  have hlt := Nat.lt_of_not_le hle
  have hquote : st.quote ≠ none := fun hnone => by
    have hboundary := h.boundary_resume hnone hresume
    rw [htext] at hboundary
    rw [← hposition] at hresume hle
    exact hle (hboundary.outside.resolve_left (Nat.not_le.2 hresume))
  have hidle (i : Nat) (e : Char) (_ : Text.byteLength passed < i)
      (_ : i < Text.byteLength passed + c.utf8Size) (he : e.utf8Size ≠ 1) :
      ByteScan.step? options text i st.marks e = some (i + 1, st.marks) :=
    ByteScan.step?_idle st.marks he h.isQuote fun hnone => absurd hnone hquote
  have hinside := (ByteScan.loop options text).run?_inside passed rest hidle
    (hposition.symm ▸ hresume) (hposition.symm ▸ hlt.le)
  rw [← htext, hposition] at hinside
  rw [max_eq_left hlt.le, hinside]

/-- The loop looks at a character and goes on where the search does. -/
theorem Stands.run?_visited (h : Stands options text st (c :: rest))
    (hresume : st.resume ≤ st.position) :
    (ByteScan.loop options text).run? (Text.bytes text) st.position st.marks =
      (ByteScan.loop options text).run? (Text.bytes text)
        (max (st.position + c.utf8Size) (visit options st c rest).resume)
        (visit options st c rest).marks := by
  obtain ⟨passed, htext, hposition⟩ := h.exists_passed
  have hvisit := visited options st c rest
  have hquote := hvisit.isQuote h.isQuote
  have hskips := hvisit.skips_behind h
  have hstep (e : Char) (he : Text.Shows c e) := step?_marks h hresume he
  generalize visit options st c rest = st' at hquote hskips hstep ⊢
  have hpos := c.utf8Size_pos
  by_cases hle : st.position + c.utf8Size ≤ st'.resume
  · obtain ⟨b, hb, hshows⟩ := Text.exists_byte passed rest hpos
    rw [Nat.add_zero, ← htext, hposition] at hb
    have hplace : max (st.position + 1) st'.resume = st'.resume := max_eq_right (by omega)
    rw [(ByteScan.loop options text).run?_step hb (hstep _ hshows), hplace, max_eq_right hle]
  · have hlt := Nat.lt_of_not_le hle
    have hidle (i : Nat) (e : Char) (hi : Text.byteLength passed < i)
        (hi' : i < Text.byteLength passed + c.utf8Size) (he : e.utf8Size ≠ 1) :
        ByteScan.step? options text i st'.marks e = some (i + 1, st'.marks) := by
      refine ByteScan.step?_idle st'.marks he hquote fun hnone hempty r hr => ?_
      have hbehind := hskips (by omega) hlt hnone (List.map_eq_nil_iff.1 hempty) hr
      omega
    rw [← hposition] at hstep
    have hrun := (ByteScan.loop options text).run?_char passed rest hstep hidle (by omega)
    rw [← htext, hposition] at hrun
    rw [max_eq_left hlt.le, hrun]

/-- **The loop over bytes runs in step with the search over characters.** -/
theorem Stands.run?_marks (h : Stands options text st rest) :
    (ByteScan.loop options text).run? (Text.bytes text) (max st.position st.resume) st.marks =
      some (Scan.run options rest st).marks := by
  induction rest generalizing st with
  | nil =>
    obtain ⟨passed, htext, hposition⟩ := h.exists_passed
    refine ByteLoop.run?_end _ ?_
    rw [Text.length_bytes, htext, List.append_nil, hposition]
    exact le_max_left ..
  | cons c rest ih =>
    have hnext := ih h.step
    rw [run_cons, ← hnext]
    by_cases hresume : st.position < st.resume
    · rw [step_skipped st hresume, max_eq_right hresume.le]
      exact h.run?_skipped hresume
    · have hresume := Nat.le_of_not_lt hresume
      rw [step_eq st hresume, max_eq_left hresume]
      exact h.run?_visited hresume

end Scan

/-- **All slices that the loop over bytes takes exist, and it finds what the search over characters
finds.** -/
theorem ofText?_eq (options : Options) (text : String) :
    ByteScan.ofText? options text = some (ofText options text) := by
  have hfinal := stands_final options text.toList
  have hskips := Tag.nestedSlices?_eq options.wrapperTag.toList options.analysisTag.toList
    text.toList
  have hrun : (ByteScan.loop options text.toList).run? (Text.bytes text.toList) 0
      (Scan.start options text.toList).marks = some (final options text.toList).marks :=
    Scan.Stands.start.run?_marks
  have hend : ByteScan.abandon? options text.toList (final options text.toList).marks
      (Text.byteLength text.toList) .unclosed = _ :=
    ByteScan.abandon?_eq (final options text.toList)
      (fun k hk => (hfinal.succession.passed k hk).1) (Text.byteLength text.toList) .unclosed
  change (Tag.nestedSlices? options.wrapperTag.toList options.analysisTag.toList
    text.toList).bind _ = _
  rw [hskips, Option.bind_some]
  change ((ByteScan.loop options text.toList).run? (Text.bytes text.toList) 0
      (Scan.start options text.toList).marks).bind _ = _
  rw [hrun, Option.bind_some]
  change (ByteScan.abandon? options text.toList (final options text.toList).marks
      (Text.byteLength text.toList) .unclosed).bind _ = _
  rw [hend]
  rfl

/-! ## Where statements and diagnostics lie -/

section

variable {found : Extraction} {ks : List Closed} {os : List Opened} {stop : Nat} {flaw : Flaw}

/-- The parts of the text that the diagnostics are about are slices. -/
def Sliced (text : List Char) (found : Extraction) : Prop :=
  ∀ d ∈ found.diagnostics, (Text.slice? d.span.start d.span.stop text).isSome

theorem Sliced.add (h : found.Sliced text) (hks : ∀ k ∈ ks, k.LiesIn text) :
    (found.add options ks).Sliced text := by
  intro d hd
  obtain hd | ⟨k, hk, -, rfl⟩ := mem_diagnostics_add.1 hd
  · exact h d hd
  · obtain ⟨⟨before, c, htext, hstart, -⟩, passed, htext', hpassed⟩ := hks k hk
    have hlt := (hks k hk).start_lt
    exact Text.isSome_slice?_iff.2 ⟨Nat.le_succ_of_le hlt.le, ⟨before, _, htext, hstart⟩,
      ⟨passed, k.rest, htext', hpassed⟩⟩

theorem Sliced.passOver (h : found.Sliced text)
    (hos : ∀ o ∈ os, Text.Boundary o.start text ∧ o.start ≤ stop)
    (hstop : Text.Boundary stop text) : (found.passOver os stop flaw).Sliced text := by
  intro d hd
  obtain hd | ⟨o, ho, rfl⟩ := mem_diagnostics_passOver.1 hd
  · exact h d hd
  · obtain ⟨hstart, hle⟩ := hos o ho
    exact Text.isSome_slice?_iff.2 ⟨hle, hstart, hstop⟩

end

namespace Scan

variable {st st' : Scan}

/-- An opened statement starts between characters, in front of the place of the search. -/
theorem Stands.boundary_start (h : Stands options text st rest) {o : Opened} (ho : o ∈ st.stack) :
    Text.Boundary o.start text ∧ o.start < st.position := by
  obtain ⟨before, htext, hstart, -⟩ := (h.traced.opened o ho).1
  exact ⟨⟨before, _, htext, hstart⟩, h.ordered.opened o ho⟩

theorem Visited.sliced (hvisit : Visited options st c rest st')
    (hpass : Stands options text st (c :: rest)) (hresume : st.resume ≤ st.position)
    (h : st.found.Sliced text) : st'.found.Sliced text := by
  have hopened (o : Opened) (ho : o ∈ st.stack) := hpass.boundary_start ho
  have hpending (k : Closed) (hk : k ∈ st.pending) : k.LiesIn text :=
    (hpass.succession.passed k hk).1
  have hbehind (hclose : Depth.isClosing c) : Text.Boundary (st.position + 1) text := by
    have hnext := hpass.step.boundary
    rwa [position_step, utf8Size_of_isClosing hclose] at hnext
  have hended (hclose : Depth.isClosing c) {os : List Opened} (hos : ∀ o ∈ os, o ∈ st.stack) :
      (st.found.passOver os (st.position + 1) .unbalanced).Sliced text :=
    h.passOver (fun o ho => (hopened o (hos o ho)).imp_right fun hlt => Nat.le_succ_of_le hlt.le)
      (hbehind hclose)
  cases hvisit with
  | escape | quoted | leap | prose | enter | quote | plain => exact h
  | line =>
    rw [abandon_eq]
    refine Sliced.add (h.passOver (fun o ho => ?_) hpass.boundary) fun k hk =>
      hpending k (List.mem_reverse.1 hk)
    have ho := hopened o (List.mem_reverse.1 ho)
    exact ⟨ho.1, ho.2.le⟩
  | pass _ hclose hstack | wait _ hclose hstack =>
    exact hended hclose fun o ho => by simp [hstack, ho]
  | passAll _ hclose =>
    exact (hended hclose fun o ho => ho).add fun k hk => hpending k (List.mem_reverse.1 hk)
  | @complete inner o hquote hclose hstack hinner ho =>
    refine (hended hclose fun o ho => by simp [hstack, ho]).add fun k hk => ?_
    obtain hk | hk := List.mem_append.1 hk
    · exact hpending k (outside_subset o (List.mem_reverse.1 hk))
    · cases List.mem_singleton.1 hk
      exact closed_liesIn hpass hresume hquote hclose hstack ho

theorem Stands.sliced (h : Stands options text st rest) : st.found.Sliced text :=
  invariant (P := fun st _ => st.found.Sliced text) nofun (fun _ _ _ _ h => h)
    (fun _ _ _ _ hpass hresume hvisit h => hvisit.sliced hpass hresume h) h

end Scan

theorem sliced_atEnd (options : Options) (text : List Char) : (atEnd options text).Sliced text := by
  have hpass := stands_final options text
  have hle : (final options text).position ≤ Text.byteLength text := by
    obtain ⟨passed, htext, hposition⟩ := hpass.exists_passed
    rw [← hposition, htext, List.append_nil]
  refine Sliced.add (hpass.sliced.passOver (fun o ho => ?_) (Text.boundary_length text)) fun k hk =>
    (hpass.succession.passed k (List.mem_reverse.1 hk)).1
  have ho := hpass.boundary_start (List.mem_reverse.1 ho)
  exact ⟨ho.1, ho.2.le.trans hle⟩

/-- Each statement that is found is a closed one. -/
theorem exists_liesIn {s : Statement} (hs : s ∈ (ofChars options text).statements) :
    ∃ k : Closed, k.LiesIn text ∧ k.statement = s := by
  have hpass := stands_final options text
  obtain hs | ⟨k, hk, -, hstatement⟩ := mem_statements_add.1 (mem_statements_ofChars.1 hs)
  · obtain ⟨k, hk, hstatement, -⟩ := (hpass.succession.ahead s hs).1.call
    exact ⟨k, hk, hstatement⟩
  · exact ⟨k, (hpass.succession.passed k (List.mem_reverse.1 hk)).1, hstatement⟩

/-- The slice of a statement begins with its opening. -/
theorem Closed.LiesIn.slice_statement {k : Closed} (h : k.LiesIn text) : ∃ t,
    Text.slice? k.statement.span.start k.statement.span.stop text =
      some ('_' :: '.' :: (k.verb ++ '(' :: t)) := by
  obtain ⟨u, v, htext, hstop⟩ := h.boundary_stop
  obtain ⟨before, c, htext', hstart, -⟩ := h.call
  let opening := before ++ '_' :: '.' :: (k.verb ++ ['('])
  have hopening : Text.byteLength opening = k.start + 3 + Text.byteLength k.verb := by
    have hmark : ('_' : Char).utf8Size = 1 ∧ ('.' : Char).utf8Size = 1 ∧
        ('(' : Char).utf8Size = 1 := ⟨rfl, rfl, rfl⟩
    simp only [opening, Text.byteLength_append, Text.byteLength_cons, Text.byteLength_nil, hmark,
      hstart]
    omega
  have hsplit : opening ++ (k.args ++ c :: k.rest) = u ++ v := by
    rw [← htext, htext']
    simp [opening]
  have hle : Text.byteLength opening ≤ Text.byteLength u := by
    have hclose := h.close_eq
    have hbehind := k.close_lt_behind.trans_le k.behind_le_stop
    omega
  obtain ⟨t, rfl, -⟩ := Text.exists_append_of_le hsplit hle
  refine ⟨t, Text.slice?_eq_some_iff.2 ⟨before, v, by simp [htext, opening], hstart, ?_⟩⟩
  rw [← hstop, show k.statement.span.start = k.start from rfl, ← hstart]
  simp [opening]

/-- **Every text can be searched.** All slices that the loop over its bytes takes exist, so that the
loop ends and finds what the search over characters finds. Each statement is a part of the text that
begins with its opening and ends between characters, and each diagnostic is about such a part. The
same holds of the arguments of any list. -/
theorem extraction_safe (options : Options) (text : String) :
    ByteScan.ofText? options text = some (ofText options text) ∧
      (∀ s ∈ (ofText options text).statements, s.span.start < s.span.stop ∧ s.span.Cuts text ∧
        ∃ t, Text.slice? s.span.start s.span.stop text.toList =
          some ('_' :: '.' :: (s.verb.toList ++ '(' :: t))) ∧
      (∀ d ∈ (ofText options text).diagnostics, d.span.Cuts text) ∧
      ∀ list, Statement.splitSlices? list = some (Statement.splitArguments list) := by
  refine ⟨ofText?_eq options text, fun s hs => ?_, fun d hd => ?_, Statement.splitSlices?_eq⟩
  · obtain ⟨k, hk, rfl⟩ := exists_liesIn hs
    obtain ⟨t, ht⟩ := hk.slice_statement
    have hlt : k.start < k.statement.span.stop :=
      hk.start_lt.trans (k.close_lt_behind.trans_le k.behind_le_stop)
    refine ⟨hlt, Span.cuts_iff.2 (Option.isSome_iff_exists.2 ⟨_, ht⟩), t, ?_⟩
    rw [ht]
    exact congrArg (fun verb => some ('_' :: '.' :: (verb ++ '(' :: t))) String.toList_ofList.symm
  · exact Span.cuts_iff.2 (sliced_atEnd options text.toList d (mem_diagnostics_ofChars.1 hd))

/-- A backslash leads the loop into the character behind it, and the one at the end leads it behind
the end. -/
theorem extraction_safe_escape :
    let text := "_.set('\\é', 1); _.set('\\"
    let e : Extraction := ⟨[⟨"set", ["'\\é'", "1"], none, ⟨0, 16⟩⟩], [⟨⟨17, 25⟩, .unclosed⟩]⟩
    ByteScan.ofText? {} text = some e ∧ (∀ s ∈ e.statements, s.span.Cuts text) ∧
      ∀ d ∈ e.diagnostics, d.span.Cuts text := by
  intro text e
  have he : ofText {} text = e := by decide +kernel
  obtain ⟨hrun, hstatements, hdiagnostics, -⟩ := extraction_safe {} text
  rw [he] at hrun hstatements hdiagnostics
  exact ⟨hrun, fun s hs => (hstatements s hs).2.1, hdiagnostics⟩

end Extraction

end StatVars
