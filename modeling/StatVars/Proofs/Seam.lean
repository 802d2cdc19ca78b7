import StatVars.Proofs.Closing
import StatVars.Proofs.Recovery

/-!
# A text in front of another one

The search looks ahead of a closing bracket for the semicolon and the reason, and ahead of an
underscore for a verb. None of these reaches over the end of a line, so what is found in a text
stays as it is when more text is put in front of it, or behind it at the end of a line: only the
places of what is found move. `Scan.InStep` relates the two passes, and `Scan.InStep.run` says that
they stay in step.
-/

namespace StatVars

theorem Text.takeBytes_append_of_le {n : Nat} {s : List Char} (t : List Char)
    (h : n ≤ byteLength s) : takeBytes n (s ++ t) = takeBytes n s := by
  induction s generalizing n with
  | nil =>
    obtain rfl := Nat.le_zero.1 h
    exact takeBytes_append [] t
  | cons c s ih =>
    rw [List.cons_append, takeBytes, takeBytes]
    split
    · rw [byteLength_cons] at h
      rw [ih (by omega)]
    · rfl

/-! ## Moving what has been found -/

/-- The part of a text behind `n` more bytes. -/
def Span.shift (n : Nat) (s : Span) : Span :=
  ⟨s.start + n, s.stop + n⟩

def Statement.shift (n : Nat) (s : Statement) : Statement :=
  { s with span := s.span.shift n }

def Diagnostic.shift (n : Nat) (d : Diagnostic) : Diagnostic :=
  { d with span := d.span.shift n }

namespace Extraction

variable {options : Options} {before : Option Char} {c : Char} {n : Nat} {s t rest : List Char}

/-- What has been found in a text behind `n` more bytes. -/
def shift (n : Nat) (e : Extraction) : Extraction where
  statements := e.statements.map (·.shift n)
  diagnostics := e.diagnostics.map (·.shift n)

instance : Append Extraction where
  append e e' := ⟨e.statements ++ e'.statements, e.diagnostics ++ e'.diagnostics⟩

theorem append_def (e e' : Extraction) :
    e ++ e' = ⟨e.statements ++ e'.statements, e.diagnostics ++ e'.diagnostics⟩ := rfl

@[simp] theorem shift_empty : shift n {} = {} := rfl

@[simp] theorem append_empty (e : Extraction) : e ++ {} = e := by
  simp [append_def]

/-! ## Looking ahead -/

/-- The text comes to the end of a line before `t` goes on, or `t` starts with one. -/
def Sealed (s t : List Char) : Prop :=
  '\n' ∈ s ∨ ∀ x, t.head? = some x → x = '\n'

namespace Sealed

theorem newline (h : Sealed [] t) {x : Char} (hx : t.head? = some x) : x = '\n' := by
  obtain h | h := h
  · cases h
  · exact h x hx

theorem tail (h : Sealed (c :: s) t) (hc : c ≠ '\n') : Sealed s t := by
  refine h.imp (fun h => ?_) id
  obtain rfl | h := List.mem_cons.1 h
  · exact absurd rfl hc
  · exact h

theorem dropWhile {p : Char → Bool} (h : Sealed s t) (hp : p '\n' = false) :
    Sealed (s.dropWhile p) t := by
  induction s with
  | nil => exact h
  | cons c s ih =>
    cases hc : p c with
    | false => rwa [List.dropWhile_cons_of_neg (by simp [hc])]
    | true =>
      rw [List.dropWhile_cons_of_pos hc]
      refine ih (h.tail ?_)
      rintro rfl
      simp [hp] at hc

theorem dropWhile_append {p : Char → Bool} (h : Sealed s t) (hp : p '\n' = false) :
    (s ++ t).dropWhile p = s.dropWhile p ++ t := by
  induction s with
  | nil =>
    cases t with
    | nil => rfl
    | cons x t =>
      cases h.newline rfl
      exact List.dropWhile_cons_of_neg (by simp [hp])
  | cons c s ih =>
    cases hc : p c with
    | false =>
      rw [List.cons_append, List.dropWhile_cons_of_neg, List.dropWhile_cons_of_neg] <;> simp [hc]
    | true =>
      rw [List.cons_append, List.dropWhile_cons_of_pos hc, List.dropWhile_cons_of_pos hc]
      refine ih (h.tail ?_)
      rintro rfl
      simp [hp] at hc

theorem takeWhile_append {p : Char → Bool} (h : Sealed s t) (hp : p '\n' = false) :
    (s ++ t).takeWhile p = s.takeWhile p := by
  have hsplit : (s ++ t).takeWhile p ++ (s.dropWhile p ++ t) =
      s.takeWhile p ++ (s.dropWhile p ++ t) := by
    rw [← h.dropWhile_append hp, List.takeWhile_append_dropWhile, h.dropWhile_append hp,
      ← List.append_assoc, List.takeWhile_append_dropWhile]
  exact List.append_cancel_right hsplit

end Sealed

namespace Scan

/-- A reason ends with its line. -/
theorem takeReason_sealed (h : Sealed s t) : takeReason (s ++ t) = takeReason s := by
  unfold takeReason
  rw [h.dropWhile_append rfl, h.takeWhile_append rfl]
  have hahead := h.dropWhile (p := isGap) rfl
  generalize s.dropWhile isGap = u at hahead
  rcases u with _ | ⟨c, _ | ⟨d, u⟩⟩
  · cases t with
    | nil => rfl
    | cons x t => cases hahead.newline rfl; rfl
  · by_cases hc : c = '/'
    · subst hc
      cases t with
      | nil => rfl
      | cons x t => cases (hahead.tail (by decide)).newline rfl; rfl
    · simp [hc]
  · by_cases hslash : c = '/' ∧ d = '/'
    · obtain ⟨rfl, rfl⟩ := hslash
      have hline := ((hahead.tail (by decide)).tail (by decide)).takeWhile_append
        (p := (· != '\n')) rfl
      simp [hline]
    · simp_all

theorem byteLength_opening {verb args : List Char}
    (h : opening? before rest = some (verb, args)) :
    Text.byteLength rest = verb.length + 2 + Text.byteLength args := by
  obtain ⟨rfl, hverb⟩ := opening?_eq_some h
  have hmark : ('.' : Char).utf8Size = 1 ∧ ('(' : Char).utf8Size = 1 := ⟨rfl, rfl⟩
  simp only [Text.byteLength_append, Text.byteLength_cons, hmark, byteLength_verb hverb]
  omega

/-- The opening of a statement stands in one line. -/
theorem opening?_sealed (h : Sealed rest t) : opening? before (rest ++ t) =
    (opening? before rest).map fun (verb, args) => (verb, args ++ t) := by
  cases hbefore : before.any inVerb with
  | true => simp [opening?, hbefore]
  | false =>
    simp only [opening?, hbefore, if_neg Bool.false_ne_true]
    rcases rest with _ | ⟨d, _ | ⟨c, s⟩⟩
    · cases t with
      | nil => rfl
      | cons x t => cases h.newline rfl; rfl
    · by_cases hd : d = '.'
      · subst hd
        cases t with
        | nil => rfl
        | cons x t => cases (h.tail (by decide)).newline rfl; rfl
      · simp [hd]
    · by_cases hd : d = '.'
      · subst hd
        cases hc : c.isAlpha with
        | false => simp [hc]
        | true =>
          have hverb : Sealed s t := (h.tail (by decide)).tail (by rintro rfl; cases hc)
          have hahead := hverb.dropWhile (p := inVerb) rfl
          simp only [List.cons_append, hc, if_true, hverb.dropWhile_append (p := inVerb) rfl,
            hverb.takeWhile_append (p := inVerb) rfl]
          generalize s.dropWhile inVerb = u at hahead
          cases u with
          | nil =>
            cases t with
            | nil => rfl
            | cons x t => cases hahead.newline rfl; rfl
          | cons p args =>
            by_cases hp : p = '('
            · subst hp
              rfl
            · simp [hp]
      · simp [hd]

end Scan

/-! ## Opened and closed statements -/

/-- The opened statement behind `n` more bytes and with `t` behind its text. -/
def Opened.moved (n : Nat) (t : List Char) (o : Opened) : Opened :=
  { o with start := o.start + n, argsStart := o.argsStart + n, args := o.args ++ t }

namespace Closed

variable {k : Closed}

/-- The closed statement behind `n` more bytes and with `t` behind its text. -/
def moved (n : Nat) (t : List Char) (k : Closed) : Closed :=
  { k with start := k.start + n, close := k.close + n, rest := k.rest ++ t }

theorem semicolon_moved (h : Sealed k.rest t) :
    (k.moved n t).rest.head? = some ';' ↔ k.rest.head? = some ';' := by
  change (k.rest ++ t).head? = some ';' ↔ _
  cases hrest : k.rest with
  | nil =>
    rw [hrest] at h
    refine ⟨fun ht => ?_, nofun⟩
    exact absurd (h.newline ht) (by decide)
  | cons c rest => rfl

theorem isComplete_moved (h : Sealed k.rest t) :
    (k.moved n t).isComplete options = k.isComplete options := by
  rw [isComplete, isComplete, Bool.eq_iff_iff]
  simp [semicolon_moved h]

theorem behind_moved (h : Sealed k.rest t) :
    (k.moved n t).behind = (k.behind.1 + n, k.behind.2 ++ t) := by
  unfold behind
  by_cases hrest : k.rest.head? = some ';'
  · rw [if_pos ((semicolon_moved h).2 hrest), if_pos hrest]
    obtain ⟨rest, hrest⟩ := List.head?_eq_some_iff.1 hrest
    simp [moved, hrest, Nat.add_right_comm]
  · rw [if_neg (mt (semicolon_moved h).1 hrest), if_neg hrest]
    simp [moved, Nat.add_right_comm]

theorem sealed_behind (h : Sealed k.rest t) : Sealed k.behind.2 t := by
  unfold behind
  split
  · next hrest =>
    obtain ⟨rest, hrest⟩ := List.head?_eq_some_iff.1 hrest
    rw [hrest] at h ⊢
    exact h.tail (by decide)
  · exact h

theorem statement_moved (h : Sealed k.rest t) :
    (k.moved n t).statement = k.statement.shift n := by
  unfold statement
  rw [behind_moved h]
  dsimp only
  rw [Scan.takeReason_sealed (sealed_behind h)]
  simp [moved, Statement.shift, Span.shift, Nat.add_right_comm]

theorem flawed_moved : (k.moved n t).flawed = k.flawed.shift n := by
  simp [flawed, moved, Diagnostic.shift, Span.shift, Nat.add_right_comm]

theorem stop_moved (h : Sealed k.rest t) :
    (k.moved n t).stop options = k.stop options + n := by
  unfold stop
  rw [isComplete_moved h, statement_moved h]
  split
  · rfl
  · exact Nat.add_right_comm ..

end Closed

section

variable {earlier found : Extraction} {ks : List Closed} {os : List Opened} {stop : Nat}
  {flaw : Flaw}

theorem add_moved (h : ∀ k ∈ ks, Sealed k.rest t) :
    (earlier ++ found.shift n).add options (ks.map (·.moved n t)) =
      earlier ++ (found.add options ks).shift n := by
  induction ks generalizing found with
  | nil => rw [List.map_nil, add_nil, add_nil]
  | cons k ks ih =>
    obtain ⟨hk, hks⟩ := List.forall_mem_cons.1 h
    have hfirst : (earlier ++ found.shift n).add options [k.moved n t] =
        earlier ++ (found.add options [k]).shift n := by
      cases hcomplete : k.isComplete options <;>
        simp [add, append_def, shift, Closed.isComplete_moved hk, Closed.statement_moved hk,
          Closed.flawed_moved, hcomplete]
    rw [List.map_cons, add_cons, hfirst, ih hks, ← add_cons]

theorem passOver_moved :
    (earlier ++ found.shift n).passOver (os.map (·.moved n t)) (stop + n) flaw =
      earlier ++ (found.passOver os stop flaw).shift n := by
  simp [passOver, append_def, shift, Opened.moved, Diagnostic.shift, Span.shift, Function.comp_def]

end

namespace Scan

variable {st : Scan} {o : Opened} {place : Nat} {earlier : Extraction}

/-- The scan behind `n` more bytes, in which `earlier` has been found, and with `t` behind the text.
Where it resumes and the character before are given on their own. -/
def moved (n : Nat) (t : List Char) (earlier : Extraction) (resume : Nat) (before : Option Char)
    (st : Scan) : Scan :=
  { st with
    position := st.position + n
    resume := resume
    before := before
    stack := st.stack.map (·.moved n t)
    pending := st.pending.map (·.moved n t)
    found := earlier ++ st.found.shift n }

theorem outside_moved {resume : Nat} : (st.moved n t earlier resume before).outside (o.moved n t) =
    (st.outside o).map (·.moved n t) := by
  have hbefore : (fun k : Closed => decide ((o.moved n t).start < (k.moved n t).start)) =
      fun k : Closed => decide (o.start < k.start) := by
    funext k
    exact decide_eq_decide.2 Nat.add_lt_add_iff_right
  change (st.pending.map (·.moved n t)).dropWhile _ = _
  rw [List.dropWhile_map]
  exact congrArg (fun p => (st.pending.dropWhile p).map (·.moved n t)) hbefore

theorem add_outside_moved {found : Extraction} {k : Closed}
    (hpending : ∀ k ∈ st.pending, Sealed k.rest t) (hk : Sealed k.rest t) :
    (earlier ++ found.shift n).add options
      (((st.outside o).map (·.moved n t)).reverse ++ [k.moved n t]) =
      earlier ++ (found.add options ((st.outside o).reverse ++ [k])).shift n := by
  have hks : ∀ l ∈ (st.outside o).reverse ++ [k], Sealed l.rest t := by
    refine List.forall_mem_append.2 ⟨fun l hl => ?_, List.forall_mem_singleton.2 hk⟩
    exact hpending l (outside_subset o (List.mem_reverse.1 hl))
  rw [← add_moved hks, List.map_append, List.map_reverse, List.map_singleton]

/-- The arguments end where the search stands, so they do not reach into the text behind. -/
theorem closedAt_moved (h : place ≤ o.argsStart + Text.byteLength o.args) :
    Opened.closedAt (o.moved n t) (place + n) (rest ++ t) =
      (Opened.closedAt o place rest).moved n t := by
  have hargs : Text.takeBytes (place + n - (o.argsStart + n)) (o.args ++ t) =
      Text.takeBytes (place - o.argsStart) o.args := by
    rw [Nat.add_sub_add_right]
    exact Text.takeBytes_append_of_le t (by omega)
  exact congrArg
    (fun args => (⟨o.verb, o.start + n, args, place + n, rest ++ t⟩ : Closed)) hargs

theorem abandon_moved (st : Scan) {resume stop : Nat} {flaw : Flaw}
    (h : ∀ k ∈ st.pending, Sealed k.rest t) :
    abandon options (st.moved n t earlier resume before) (stop + n) flaw =
      (abandon options st stop flaw).moved n t earlier resume before := by
  have hpending : ∀ k ∈ st.pending.reverse, Sealed k.rest t :=
    fun k hk => h k (List.mem_reverse.1 hk)
  simp only [abandon_eq, moved, ← List.map_reverse, passOver_moved, add_moved hpending,
    List.map_nil]

/-! ## Two passes in step -/

/-- Outside of strings, and not where something is left out. -/
theorem visit_unquoted (hquote : st.quote = none) {skips : List Span}
    (hskips : st.stack ≠ [] ∧ skips = st.skips ∨ st.stack = [] ∧ skips = st.skipsAhead ∧
      ∀ r, st.skipsAhead.head? = some r → st.position < r.start) :
    visit options st c rest = visitPlain options { st with skips := skips } c rest := by
  rw [visit]
  split
  · next hq => rw [hquote] at hq; cases hq
  obtain ⟨hstack, rfl⟩ | ⟨hstack, rfl, hhead⟩ := hskips
  · rw [if_neg (mt List.isEmpty_iff.1 hstack)]
  · rw [if_pos (List.isEmpty_iff.2 hstack)]
    dsimp only
    split
    · next hnil => rw [skipsAhead, hnil]
    · next r skips hcons =>
      have hr : ¬ r.start ≤ st.position := Nat.not_le.2 (hhead r (by rw [skipsAhead, hcons]; rfl))
      rw [if_neg hr, skipsAhead]

theorem visitPlain_of_none (hopen : c = '_' → opening? st.before rest = none) :
    visitPlain options st c rest =
      if st.stack.isEmpty then st else visitArgument options st c rest := by
  by_cases hc : c = '_'
  · simp [visitPlain, hc, hopen hc]
  · simp [visitPlain, hc]

theorem visit_argument (hquote : st.quote = none) (hstack : st.stack ≠ [])
    (hopen : c = '_' → opening? st.before rest = none) :
    visit options st c rest = visitArgument options st c rest := by
  rw [visit_unquoted hquote (.inl ⟨hstack, rfl⟩), visitPlain_of_none hopen,
    if_neg (mt List.isEmpty_iff.1 hstack)]

/-- What the search does with a character is what is listed for it. -/
theorem Visited.eq {st' : Scan} (h : Visited options st c rest st') :
    visit options st c rest = st' := by
  cases h with
  | escape hquote hc => simp [visit, hquote, visitQuoted, hc]
  | line hquote hc => simp [visit, hquote, visitQuoted, hc]
  | @quoted q hquote hescape hline =>
    simp only [visit, hquote, visitQuoted, beq_iff_eq, if_neg hescape, if_neg hline]
    split
    · rfl
    · rw [← hquote]
  | leap hquote hstack hskips hr =>
    rw [skipsAhead] at hskips
    simp [visit, hquote, hstack, hskips, hr]
  | prose hquote hstack hskips hopen =>
    rw [visit_unquoted hquote (.inr ⟨hstack, rfl, hskips⟩), visitPlain_of_none]
    · exact if_pos (List.isEmpty_iff.2 hstack)
    · exact hopen
  | enter hquote hc hopen hskips =>
    rw [visit_unquoted hquote hskips]
    simp [visitPlain, hc, hopen]
  | quote hquote hstack hc =>
    have hopen : c = '_' → opening? st.before rest = none := by
      rintro rfl
      cases hc
    rw [visit_argument hquote hstack hopen, visitArgument, if_pos hc]
  | plain hquote hstack hopen hc hclose =>
    rw [visit_argument hquote hstack hopen, visitArgument, if_neg (by simp [hc])]
    exact if_neg (ne_true_of_eq_false hclose)
  | pass hquote hclose hstack hinner ho hbelow =>
    rw [visit_closing hquote (by simp [hstack]) hclose]
    exact (congrArg (settle options rest · _) hstack).trans (settle_open _ hinner ho hbelow)
  | @passAll inner o hquote hclose hstack hinner =>
    rw [List.forall_mem_append, List.forall_mem_singleton] at hinner
    rw [visit_closing hquote (by simp [hstack]) hclose]
    refine (congrArg (settle options rest · _) hstack).trans ?_
    rw [settle_all { st with depth := st.depth.past c } hinner.1 hinner.2, hstack]
  | wait hquote hclose hstack houter hinner ho =>
    rw [visit_closing hquote (by simp [hstack]) hclose]
    exact (congrArg (settle options rest · _) hstack).trans (settle_waits _ hinner ho houter)
  | complete hquote hclose hstack hinner ho =>
    rw [visit_closing hquote (by simp [hstack]) hclose]
    exact (congrArg (settle options rest · _) hstack).trans (settle_completes _ hinner ho)

theorem skipsAhead_of_nil (h : st.skips = []) : st.skipsAhead = [] := by
  rw [skipsAhead, h, List.dropWhile_nil]

/-- A pass stands at `st'` within a longer text, where the pass over a part of it stands at `st`,
before `rest`. In front of the part lie `n` bytes, in which `earlier` has been found, and behind it
lies `t`. -/
structure InStep (n : Nat) (t : List Char) (earlier : Extraction) (st : Scan) (rest : List Char)
    (st' : Scan) : Prop where
  moved : st' = st.moved n t earlier st'.resume st'.before
  resume : st'.resume - st'.position = st.resume - st.position
  before : st'.before.any inVerb = st.before.any inVerb
  skips : st.skips = []
  opened : ∀ o ∈ st.stack, o.argsStart + Text.byteLength o.args = st.position + Text.byteLength rest
  waiting : ∀ k ∈ st.pending, Sealed k.rest t

theorem stack_moved {inner outer : List Opened} (n : Nat) (t : List Char)
    (hstack : st.stack = inner ++ o :: outer) : st.stack.map (·.moved n t) =
      inner.map (·.moved n t) ++ o.moved n t :: outer.map (·.moved n t) := by
  simp [hstack]

theorem forall_below_moved {os : List Opened} {d : Depth} (n : Nat) (t : List Char)
    (h : ∀ p ∈ os, d.isBelow p.base) : ∀ p ∈ os.map (·.moved n t), d.isBelow p.base :=
  List.forall_mem_map.2 h

namespace InStep

variable {st' next next' : Scan}

theorem closedAt_moved (h : InStep n t earlier st (c :: rest) st') (ho : o ∈ st.stack) :
    Opened.closedAt (o.moved n t) (st.position + n) (rest ++ t) =
      (Opened.closedAt o st.position rest).moved n t :=
  Scan.closedAt_moved (by rw [h.opened o ho]; exact Nat.le_add_right ..)

theorem position_eq (h : InStep n t earlier st rest st') : st'.position = st.position + n := by
  rw [h.moved]
  rfl

theorem advance_moved (h : st' = st.moved n t earlier st'.resume st'.before) :
    st'.advance (place + n) c = (st.advance place c).moved n t earlier st'.resume (some c) := by
  generalize st'.resume = resume, st'.before = before at h
  subst h
  simp only [advance, Scan.moved, Nat.add_right_comm]

theorem skip (h : InStep n t earlier st (c :: rest) st') : InStep n t earlier
    (st.advance st.position c) rest (st'.advance st'.position c) where
  moved := by
    rw [h.position_eq]
    exact advance_moved h.moved
  resume := by
    have hresume := h.resume
    simp only [advance]
    omega
  before := rfl
  skips := h.skips
  opened := by
    intro o ho
    rw [h.opened o ho]
    exact (Nat.add_assoc ..).symm
  waiting := h.waiting

/-- The two places behind a character that the search has looked at. -/
theorem look (h : InStep n t earlier st (c :: rest) st') (resume : Nat) (before : Option Char)
    (hvisit : Visited options st' c (rest ++ t) next')
    (hmoved : next' = next.moved n t earlier resume before)
    (hresume : resume - st'.position = next.resume - st.position) (hskips : next.skips = [])
    (hopened : ∀ o ∈ next.stack, o ∈ st.stack ∨ o.argsStart + Text.byteLength o.args =
      st.position + Text.byteLength (c :: rest))
    (hwaiting : ∀ k ∈ next.pending, Sealed k.rest t) : InStep n t earlier
      (next.advance st.position c) rest
      ((visit options st' c (rest ++ t)).advance st'.position c) := by
  subst hmoved
  rw [hvisit.eq]
  refine ⟨?_, ?_, rfl, hskips, fun o ho => ?_, hwaiting⟩
  · rw [h.position_eq]
    exact advance_moved rfl
  · simp only [advance, Scan.moved]
    omega
  · have ho : o.argsStart + Text.byteLength o.args = st.position + Text.byteLength (c :: rest) :=
      (hopened o ho).elim (h.opened o) id
    rw [ho]
    exact (Nat.add_assoc ..).symm

section

variable {resume : Nat} {inner outer : List Opened}
  (h : InStep n t earlier st (c :: rest) (st.moved n t earlier resume before))

include h

theorem opening?_eq (hsealed : Sealed rest t) : opening? before (rest ++ t) =
    (opening? st.before rest).map fun (verb, args) => (verb, args ++ t) := by
  have hbefore : before.any inVerb = st.before.any inVerb := h.before
  rw [opening?_sealed hsealed]
  unfold opening?
  rw [hbefore]

theorem enter {verb args : List Char} (hsealed : Sealed rest t) (hquote : st.quote = none)
    (hc : c = '_') (hopen : opening? st.before rest = some (verb, args)) :
    InStep n t earlier ((Scan.enter { st with skips := [] } verb args).advance st.position c) rest
      ((visit options (st.moved n t earlier resume before) c (rest ++ t)).advance
        (st.position + n) c) := by
  have hopen' : opening? before (rest ++ t) = some (verb, args ++ t) := by
    rw [h.opening?_eq hsealed, hopen]
    rfl
  have hmoved : Scan.enter { st.moved n t earlier resume before with skips := [] } verb
      (args ++ t) = (Scan.enter { st with skips := [] } verb args).moved n t earlier
        (st.position + verb.length + 3 + n) before := by
    have hplace : st.position + n + verb.length + 3 = st.position + verb.length + 3 + n := by omega
    simp only [Scan.enter, Scan.moved, Opened.moved, List.map_cons, hplace]
  have hplain : (st.moved n t earlier resume before).skipsAhead = [] := skipsAhead_of_nil h.skips
  refine h.look (st.position + verb.length + 3 + n) before (.enter hquote hc hopen' ?_) hmoved ?_
    rfl ?_ h.waiting
  · obtain hstack | hstack := eq_or_ne st.stack []
    · exact .inr ⟨by simp [Scan.moved, hstack], hplain.symm, by simp [hplain]⟩
    · exact .inl ⟨by simpa [Scan.moved] using hstack, h.skips.symm⟩
  · exact Nat.add_sub_add_right ..
  · refine List.forall_mem_cons.2 ⟨.inr ?_, fun o ho => .inl ho⟩
    have hmark : ('_' : Char).utf8Size = 1 := rfl
    rw [Text.byteLength_cons, byteLength_opening hopen, hc, hmark]
    change st.position + verb.length + 3 + Text.byteLength args = _
    omega

theorem line {q : Char} (hquote : st.quote = some q) (hc : c = '\n') :
    InStep n t earlier
      (Scan.advance (abandon options { st with quote := none } st.position .unclosedString)
        st.position c)
      rest ((visit options (st.moved n t earlier resume before) c (rest ++ t)).advance
        (st.position + n) c) := by
  have hmoved : abandon options { st.moved n t earlier resume before with quote := none }
      (st.position + n) .unclosedString =
      (abandon options { st with quote := none } st.position .unclosedString).moved n t earlier
        resume before := abandon_moved { st with quote := none } h.waiting
  refine h.look resume before (.line hquote hc) hmoved ?_ ?_ ?_ ?_
  all_goals rw [abandon_eq]
  · exact h.resume
  · exact h.skips
  · exact nofun
  · exact nofun

theorem pass (hquote : st.quote = none) (hclose : Depth.isClosing c)
    (hstack : st.stack = inner ++ o :: outer)
    (hinner : ∀ p ∈ inner, (st.depth.past c).isBelow p.base)
    (ho : st.depth.past c ≠ o.base) (hbelow : (st.depth.past c).isBelow o.base = false) :
    InStep n t earlier
      (Scan.advance { st with
        stack := o :: outer
        depth := st.depth.past c
        found := st.found.passOver inner (st.position + 1) .unbalanced } st.position c)
      rest ((visit options (st.moved n t earlier resume before) c (rest ++ t)).advance
        (st.position + n) c) := by
  have hstack' := stack_moved n t hstack
  have hinner' := forall_below_moved n t hinner
  refine h.look resume before (.pass hquote hclose hstack' hinner' ho hbelow) ?_ h.resume h.skips
    ?_ h.waiting
  · simp only [Scan.moved, Nat.add_right_comm _ n 1, passOver_moved, List.map_cons]
  · intro p hp
    rw [hstack]
    exact .inl (List.mem_append_right _ hp)

theorem passAll (hquote : st.quote = none) (hclose : Depth.isClosing c)
    (hstack : st.stack = inner ++ [o])
    (hinner : ∀ p ∈ inner ++ [o], (st.depth.past c).isBelow p.base) :
    InStep n t earlier
      (Scan.advance { st with
        stack := []
        pending := []
        depth := {}
        found := (st.found.passOver st.stack (st.position + 1) .unbalanced).add options
          st.pending.reverse } st.position c)
      rest ((visit options (st.moved n t earlier resume before) c (rest ++ t)).advance
        (st.position + n) c) := by
  have hstack' := stack_moved n t hstack
  have hinner' := forall_below_moved n t hinner
  rw [List.map_append] at hinner'
  have hpending : ∀ k ∈ st.pending.reverse, Sealed k.rest t :=
    fun k hk => h.waiting k (List.mem_reverse.1 hk)
  refine h.look resume before (.passAll hquote hclose hstack' hinner') ?_ h.resume h.skips nofun
    nofun
  simp only [Scan.moved, Nat.add_right_comm _ n 1, passOver_moved, ← List.map_reverse,
    add_moved hpending, List.map_nil]

theorem wait (hsealed : Sealed rest t) (hquote : st.quote = none) (hclose : Depth.isClosing c)
    (hstack : st.stack = inner ++ o :: outer) (houter : outer ≠ [])
    (hinner : ∀ p ∈ inner, (st.depth.past c).isBelow p.base) (ho : st.depth.past c = o.base) :
    InStep n t earlier
      (Scan.advance { st with
        stack := outer
        pending := Opened.closedAt o st.position rest :: st.outside o
        depth := st.depth.past c
        found := st.found.passOver inner (st.position + 1) .unbalanced } st.position c)
      rest ((visit options (st.moved n t earlier resume before) c (rest ++ t)).advance
        (st.position + n) c) := by
  have hstack' := stack_moved n t hstack
  have hinner' := forall_below_moved n t hinner
  have houter' : outer.map (·.moved n t) ≠ [] := by simpa using houter
  have hclosed := h.closedAt_moved (o := o) (by simp [hstack])
  refine h.look resume before (.wait hquote hclose hstack' houter' hinner' ho) ?_ h.resume h.skips
    ?_ ?_
  · rw [outside_moved]
    simp only [Scan.moved, Nat.add_right_comm _ n 1, passOver_moved, hclosed, List.map_cons]
  · intro p hp
    rw [hstack]
    exact .inl (List.mem_append_right _ (List.mem_cons_of_mem _ hp))
  · exact List.forall_mem_cons.2 ⟨hsealed, fun k hk => h.waiting k (outside_subset o hk)⟩

theorem complete (hsealed : Sealed rest t) (hquote : st.quote = none)
    (hclose : Depth.isClosing c) (hstack : st.stack = inner ++ [o])
    (hinner : ∀ p ∈ inner, (st.depth.past c).isBelow p.base) (ho : st.depth.past c = o.base) :
    InStep n t earlier
      (Scan.advance { st with
        resume := (Opened.closedAt o st.position rest).stop options
        stack := []
        pending := []
        depth := {}
        found := (st.found.passOver inner (st.position + 1) .unbalanced).add options
          ((st.outside o).reverse ++ [Opened.closedAt o st.position rest]) } st.position c)
      rest ((visit options (st.moved n t earlier resume before) c (rest ++ t)).advance
        (st.position + n) c) := by
  have hstack' := stack_moved n t hstack
  have hinner' := forall_below_moved n t hinner
  have hclosed := h.closedAt_moved (o := o) (by simp [hstack])
  have hrest : Sealed (Opened.closedAt o st.position rest).rest t := hsealed
  refine h.look ((Opened.closedAt o st.position rest).stop options + n) before
    (.complete hquote hclose hstack' hinner' ho) ?_ ?_ h.skips nofun nofun
  · rw [outside_moved]
    simp only [Scan.moved, Nat.add_right_comm _ n 1, passOver_moved, hclosed,
      Closed.stop_moved hrest, add_outside_moved h.waiting hrest, List.map_nil]
  · exact Nat.add_sub_add_right ..

end

theorem visited (h : InStep n t earlier st (c :: rest) st') (hsealed : Sealed (c :: rest) t)
    (hvisit : Visited options st c rest next) : InStep n t earlier (next.advance st.position c) rest
      ((visit options st' c (rest ++ t)).advance st'.position c) := by
  have hmoved := h.moved
  generalize st'.resume = resume, st'.before = before at hmoved
  subst hmoved
  have hsealed : c ≠ '\n' → Sealed rest t := hsealed.tail
  have hopening (hc : c = '_') (hopen : opening? st.before rest = none) :
      opening? before (rest ++ t) = none := by
    rw [h.opening?_eq (hsealed (by simp [hc])), hopen]
    rfl
  have hclosing (hclose : Depth.isClosing c) : Sealed rest t := by
    refine hsealed ?_
    rintro rfl
    cases hclose
  have hnone : st.skipsAhead = [] := skipsAhead_of_nil h.skips
  have hnone' : (st.moved n t earlier resume before).skipsAhead = [] := skipsAhead_of_nil h.skips
  have hstays : ∀ o ∈ st.stack, o ∈ st.stack ∨ o.argsStart + Text.byteLength o.args =
      st.position + Text.byteLength (c :: rest) := fun o ho => .inl ho
  cases hvisit with
  | escape hquote hc =>
    exact h.look (st.position + n + 2) before (.escape hquote hc) rfl (by simp [Scan.moved])
      h.skips hstays h.waiting
  | line hquote hc => exact h.line hquote hc
  | quoted hquote hescape hline =>
    exact h.look resume before (.quoted hquote hescape hline) rfl h.resume h.skips hstays h.waiting
  | leap _ _ hskips =>
    rw [hnone] at hskips
    cases hskips
  | prose hquote hstack _ hopen =>
    have hstack' : st.stack.map (·.moved n t) = [] := by simp [hstack]
    refine h.look resume before (.prose hquote hstack' (by simp [hnone']) fun hc =>
      hopening hc (hopen hc)) ?_ h.resume hnone hstays h.waiting
    rw [hnone, hnone']
    rfl
  | @enter skips verb args hquote hc hopen hskips =>
    have hskips : skips = [] := by
      obtain ⟨-, rfl⟩ | ⟨-, rfl, -⟩ := hskips
      · exact h.skips
      · exact hnone
    subst hskips
    exact h.enter (hsealed (by simp [hc])) hquote hc hopen
  | quote hquote hstack hc =>
    have hstack' : st.stack.map (·.moved n t) ≠ [] := by simpa using hstack
    exact h.look resume before (.quote hquote hstack' hc) rfl h.resume h.skips hstays h.waiting
  | plain hquote hstack hopen hc hclose =>
    have hstack' : st.stack.map (·.moved n t) ≠ [] := by simpa using hstack
    exact h.look resume before (.plain hquote hstack' (fun hc => hopening hc (hopen hc)) hc hclose)
      rfl h.resume h.skips hstays h.waiting
  | pass hquote hclose hstack hinner ho hbelow => exact h.pass hquote hclose hstack hinner ho hbelow
  | passAll hquote hclose hstack hinner => exact h.passAll hquote hclose hstack hinner
  | wait hquote hclose hstack houter hinner ho =>
    exact h.wait (hclosing hclose) hquote hclose hstack houter hinner ho
  | complete hquote hclose hstack hinner ho =>
    exact h.complete (hclosing hclose) hquote hclose hstack hinner ho

theorem step (h : InStep n t earlier st (c :: rest) st') (hsealed : Sealed (c :: rest) t) :
    InStep n t earlier (step options st c rest) rest (step options st' c (rest ++ t)) := by
  have hresume := h.resume
  by_cases hskip : st.position < st.resume
  · rw [step_skipped st hskip, step_skipped st' (by omega)]
    exact h.skip
  · rw [step_eq st (by omega), step_eq st' (by omega)]
    exact h.visited hsealed (Scan.visited options st c rest)

/-- **Two passes stay in step** up to the end of the part, if it ends with a line or the text behind
it starts with one. -/
theorem run (h : InStep n t earlier st s st') (hsealed : ∀ x, s.getLast? = some x → x = '\n' ∨
    ∀ y, t.head? = some y → y = '\n') : ∃ st'', Scan.run options (s ++ t) st' =
      Scan.run options t st'' ∧ InStep n t earlier (Scan.run options s st) [] st'' := by
  induction s generalizing st st' with
  | nil => exact ⟨st', rfl, h⟩
  | cons c s ih =>
    have hline : Sealed (c :: s) t := by
      have hlast := List.getLast?_eq_some_getLast (List.cons_ne_nil c s)
      obtain hx | ht := hsealed _ hlast
      · exact .inl (hx ▸ List.getLast_mem _)
      · exact .inr ht
    refine ih (h.step hline) fun x hx => hsealed x ?_
    rw [List.getLast?_cons, hx]
    rfl

end InStep

end Scan

end Extraction

end StatVars
