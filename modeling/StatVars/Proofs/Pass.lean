import Mathlib.Data.List.TakeWhile
import StatVars.Statement.Scan

/-!
# What a pass over a text can do

`Scan.Visited` lists what the search for statements does with one character, with the conditions
under which it does so, and `Scan.Stands` says where a pass over a text can stand. What holds of
every such place is shown for the start and for one character, by `Scan.Stands.invariant`. The
positions of what is open and of what waits are in order throughout: `Scan.Ordered`.
-/

namespace StatVars

namespace Depth

variable {d e base : Depth} {c : Char}

theorem not_isBelow_iff : d.isBelow base = false ↔
    base.paren ≤ d.paren ∧ base.brace ≤ d.brace ∧ base.bracket ≤ d.bracket := by
  simp [isBelow, and_assoc]

theorem ne_of_isBelow (h : d.isBelow base) : d ≠ base := by
  rintro rfl
  simp [isBelow] at h

/-- Whether a character closes a bracket. -/
def isClosing (c : Char) : Bool :=
  c == ')' || c == '\x7d' || c == ']'

end Depth

namespace Extraction

variable {options : Options} {c : Char} {s : List Char}

/-! ## Closed statements -/

namespace Closed

/-- Whether the statement has the semicolon that it needs. -/
def isComplete (options : Options) (k : Closed) : Bool :=
  !options.requireSemicolon || k.rest.head? == some ';'

/-- The place behind the statement and its semicolon, and the text there. -/
def behind (k : Closed) : Nat × List Char :=
  if k.rest.head? = some ';' then (k.close + 2, k.rest.tail) else (k.close + 1, k.rest)

/-- The statement with the reason behind it. -/
def statement (k : Closed) : Statement :=
  let (stop, rest) := k.behind
  let (reason, length) := Scan.takeReason rest
  ⟨.ofList k.verb, Statement.splitArguments k.args, reason, ⟨k.start, stop + length⟩⟩

/-- What is said of the statement when its semicolon is missing. -/
def flawed (k : Closed) : Diagnostic :=
  ⟨⟨k.start, k.close + 1⟩, .missingSemicolon⟩

/-- Where the search goes on behind the statement. -/
def stop (options : Options) (k : Closed) : Nat :=
  if k.isComplete options then k.statement.span.stop else k.close + 1

end Closed

/-- What has been found together with these closed statements. -/
def add (options : Options) (found : Extraction) (ks : List Closed) : Extraction where
  statements := found.statements ++ (ks.filter (·.isComplete options)).map (·.statement)
  diagnostics := found.diagnostics ++ (ks.filter (!·.isComplete options)).map (·.flawed)

/-- What has been found together with the flaw of these opened statements. -/
def passOver (found : Extraction) (os : List Opened) (stop : Nat) (flaw : Flaw) : Extraction :=
  { found with diagnostics := found.diagnostics ++ os.map fun o => ⟨⟨o.start, stop⟩, flaw⟩ }

/-- The statement that starts at `start` is finished: it has been found, or only its semicolon is
missing. -/
def Finished (e : Extraction) (start : Nat) : Prop :=
  (∃ s ∈ e.statements, s.span.start = start) ∨
    ∃ d ∈ e.diagnostics, d.span.start = start ∧ d.flaw = .missingSemicolon

instance (e : Extraction) (start : Nat) : Decidable (e.Finished start) :=
  inferInstanceAs (Decidable ((∃ s ∈ e.statements, s.span.start = start) ∨
    ∃ d ∈ e.diagnostics, d.span.start = start ∧ d.flaw = .missingSemicolon))

section

variable {found : Extraction} {ks : List Closed} {os : List Opened} {stop : Nat} {flaw : Flaw}

theorem add_nil : found.add options [] = found := by
  simp [add]

theorem add_append (ks ks' : List Closed) :
    found.add options (ks ++ ks') = (found.add options ks).add options ks' := by
  simp [add]

theorem add_cons (k : Closed) :
    found.add options (k :: ks) = (found.add options [k]).add options ks :=
  add_append [k] ks

theorem mem_statements_add {s : Statement} : s ∈ (found.add options ks).statements ↔
    s ∈ found.statements ∨ ∃ k ∈ ks, k.isComplete options ∧ k.statement = s := by
  simp [add, and_assoc]

theorem mem_diagnostics_add {d : Diagnostic} : d ∈ (found.add options ks).diagnostics ↔
    d ∈ found.diagnostics ∨ ∃ k ∈ ks, k.isComplete options = false ∧ k.flawed = d := by
  simp [add, and_assoc]

theorem mem_diagnostics_passOver {d : Diagnostic} :
    d ∈ (found.passOver os stop flaw).diagnostics ↔
      d ∈ found.diagnostics ∨ ∃ o ∈ os, ⟨⟨o.start, stop⟩, flaw⟩ = d := by
  simp [passOver]

theorem finished_add {start : Nat} :
    (found.add options ks).Finished start ↔ found.Finished start ∨ ∃ k ∈ ks, k.start = start := by
  constructor
  · rintro (⟨s, hs, rfl⟩ | ⟨d, hd, rfl, hflaw⟩)
    · obtain hs | ⟨k, hk, -, rfl⟩ := mem_statements_add.1 hs
      · exact .inl (.inl ⟨s, hs, rfl⟩)
      · exact .inr ⟨k, hk, rfl⟩
    · obtain hd | ⟨k, hk, -, rfl⟩ := mem_diagnostics_add.1 hd
      · exact .inl (.inr ⟨d, hd, rfl, hflaw⟩)
      · exact .inr ⟨k, hk, rfl⟩
  · rintro ((⟨s, hs, rfl⟩ | ⟨d, hd, rfl, hflaw⟩) | ⟨k, hk, rfl⟩)
    · exact .inl ⟨s, mem_statements_add.2 (.inl hs), rfl⟩
    · exact .inr ⟨d, mem_diagnostics_add.2 (.inl hd), rfl, hflaw⟩
    · cases hcomplete : k.isComplete options with
      | true => exact .inl ⟨_, mem_statements_add.2 (.inr ⟨k, hk, hcomplete, rfl⟩), rfl⟩
      | false => exact .inr ⟨_, mem_diagnostics_add.2 (.inr ⟨k, hk, hcomplete, rfl⟩), rfl, rfl⟩

theorem finished_add_singleton {start : Nat} (k : Closed) :
    (found.add options [k]).Finished start ↔ found.Finished start ∨ k.start = start := by
  simp [finished_add]

theorem finished_passOver {start : Nat} (hflaw : flaw ≠ .missingSemicolon) :
    (found.passOver os stop flaw).Finished start ↔ found.Finished start := by
  refine or_congr Iff.rfl ⟨?_, ?_⟩
  · rintro ⟨d, hd, hstart, hd'⟩
    obtain hd | ⟨o, -, rfl⟩ := mem_diagnostics_passOver.1 hd
    · exact ⟨d, hd, hstart, hd'⟩
    · exact absurd hd' hflaw
  · rintro ⟨d, hd, hstart, hd'⟩
    exact ⟨d, mem_diagnostics_passOver.2 (.inl hd), hstart, hd'⟩

theorem passOver_cons (o : Opened) (os : List Opened) : found.passOver (o :: os) stop flaw =
    (found.passOver [o] stop flaw).passOver os stop flaw := by
  simp [passOver]

end

namespace Scan

variable {st : Scan} {rest : List Char} {o : Opened} {inner outer os : List Opened} {stop : Nat}
  {flaw : Flaw}

theorem finish_eq (k : Closed) : finish options st k =
    ({ st with found := st.found.add options [k] }, k.stop options) := by
  unfold finish
  split
  · next rest hrest =>
    simp [Closed.isComplete, Closed.stop, Closed.statement, Closed.behind, hrest, add, record]
  · next hrest =>
    have hhead : k.rest.head? ≠ some ';' := fun h => by
      obtain ⟨t, ht⟩ := List.head?_eq_some_iff.1 h
      exact hrest t ht
    cases hoption : options.requireSemicolon <;>
      simp [Closed.isComplete, Closed.stop, Closed.statement, Closed.behind, Closed.flawed, hoption,
        hhead, add, record, reject]

theorem foldl_finish (ks : List Closed) (st : Scan) :
    ks.foldl (fun st k => (finish options st k).1) st =
      { st with found := st.found.add options ks } := by
  induction ks generalizing st with
  | nil => rw [add_nil]; rfl
  | cons k ks ih =>
    rw [List.foldl_cons, finish_eq, ih]
    change { st with found := (st.found.add options [k]).add options ks } = _
    rw [← add_cons]

theorem foldl_reject (os : List Opened) (st : Scan) :
    os.foldl (fun st o => st.reject ⟨o.start, stop⟩ flaw) st =
      { st with found := st.found.passOver os stop flaw } := by
  induction os generalizing st with
  | nil => simp [passOver]
  | cons o os ih => rw [List.foldl_cons, ih, passOver_cons]; rfl

theorem flush_eq : flush options st =
    { st with pending := [], found := st.found.add options st.pending.reverse } :=
  foldl_finish _ _

theorem abandon_eq : abandon options st stop flaw =
    { st with
      stack := []
      pending := []
      depth := {}
      found := (st.found.passOver st.stack.reverse stop flaw).add options st.pending.reverse } := by
  simp only [abandon, foldl_reject, flush_eq]

/-! ## Statements that a bracket ends -/

/-- The statements that wait, without those within the opened one. -/
def outside (st : Scan) (o : Opened) : List Closed :=
  st.pending.dropWhile fun k => o.start < k.start

theorem settle_ended {top : Opened} (htop : st.depth.isBelow top.base) (houter : outer ≠ []) :
    settle options rest (top :: outer) st = settle options rest outer
      { st with found := st.found.passOver [top] (st.position + 1) .unbalanced } := by
  rw [settle, if_neg (Depth.ne_of_isBelow htop), if_pos htop]
  split
  · next h => exact absurd rfl houter
  · rfl

/-- Statements that the counts have fallen below are flawed. -/
theorem settle_inner (st : Scan) (hinner : ∀ p ∈ inner, st.depth.isBelow p.base)
    (houter : outer ≠ []) : settle options rest (inner ++ outer) st = settle options rest outer
      { st with found := st.found.passOver inner (st.position + 1) .unbalanced } := by
  induction inner generalizing st with
  | nil => simp [passOver]
  | cons p inner ih =>
    obtain ⟨hp, hinner⟩ := List.forall_mem_cons.1 hinner
    have hrest := ih { st with found := st.found.passOver [p] (st.position + 1) .unbalanced } hinner
    rw [List.cons_append, settle_ended hp (by simp [houter]), hrest, passOver_cons p inner]

theorem settle_all (st : Scan) (hinner : ∀ p ∈ inner, st.depth.isBelow p.base)
    (ho : st.depth.isBelow o.base) : settle options rest (inner ++ [o]) st = { st with
      stack := []
      pending := []
      depth := {}
      found := (st.found.passOver (inner ++ [o]) (st.position + 1) .unbalanced).add options
        st.pending.reverse } := by
  rw [settle_inner st hinner (by simp), settle, if_neg (Depth.ne_of_isBelow ho), if_pos ho]
  simp [flush_eq, passOver, reject]

/-- A statement within others waits for what becomes of them. -/
theorem settle_waits (st : Scan) (hinner : ∀ p ∈ inner, st.depth.isBelow p.base)
    (ho : st.depth = o.base) (houter : outer ≠ []) :
    settle options rest (inner ++ o :: outer) st = { st with
      stack := outer
      pending := Opened.closedAt o st.position rest :: st.outside o
      found := st.found.passOver inner (st.position + 1) .unbalanced } := by
  rw [settle_inner st hinner (by simp), settle, if_pos ho]
  split
  · next h => exact absurd rfl houter
  · rfl

/-- A statement within no other is complete. -/
theorem settle_completes (st : Scan) (hinner : ∀ p ∈ inner, st.depth.isBelow p.base)
    (ho : st.depth = o.base) : settle options rest (inner ++ [o]) st = { st with
      stack := []
      pending := []
      depth := {}
      resume := (Opened.closedAt o st.position rest).stop options
      found := (st.found.passOver inner (st.position + 1) .unbalanced).add options
        ((st.outside o).reverse ++ [Opened.closedAt o st.position rest]) } := by
  rw [settle_inner st hinner (by simp), settle, if_pos ho, add_append]
  simp only [flush_eq, finish_eq]
  rfl

theorem settle_open (st : Scan) (hinner : ∀ p ∈ inner, st.depth.isBelow p.base)
    (ho : st.depth ≠ o.base) (hbelow : st.depth.isBelow o.base = false) :
    settle options rest (inner ++ o :: outer) st = { st with
      stack := o :: outer
      found := st.found.passOver inner (st.position + 1) .unbalanced } := by
  rw [settle_inner st hinner (by simp), settle, if_neg ho, if_neg (by simp [hbelow])]

/-! ## What the search does with one character -/

/-- The parts to be left out that do not end before the character. -/
def skipsAhead (st : Scan) : List Span :=
  st.skips.dropWhile fun r => r.stop ≤ st.position

/-- What the search does with a character that it looks at, where `rest` is the text behind it. -/
inductive Visited (options : Options) (st : Scan) (c : Char) (rest : List Char) : Scan → Prop
  | escape {q} (hquote : st.quote = some q) (hc : c = '\\') :
      Visited options st c rest { st with resume := st.position + 2 }
  | line {q} (hquote : st.quote = some q) (hc : c = '\n') :
      Visited options st c rest
        (abandon options { st with quote := none } st.position .unclosedString)
  | quoted {q} (hquote : st.quote = some q) (hescape : c ≠ '\\') (hline : c ≠ '\n') :
      Visited options st c rest { st with quote := if c = q then none else some q }
  | leap {r skips} (hquote : st.quote = none) (hstack : st.stack = [])
      (hskips : st.skipsAhead = r :: skips) (hr : r.start ≤ st.position) :
      Visited options st c rest { st with resume := r.stop, skips := skips }
  | prose (hquote : st.quote = none) (hstack : st.stack = [])
      (hskips : ∀ r, st.skipsAhead.head? = some r → st.position < r.start)
      (hopen : c = '_' → opening? st.before rest = none) :
      Visited options st c rest { st with skips := st.skipsAhead }
  | enter {skips verb args} (hquote : st.quote = none) (hc : c = '_')
      (hopen : opening? st.before rest = some (verb, args))
      (hskips : st.stack ≠ [] ∧ skips = st.skips ∨ st.stack = [] ∧ skips = st.skipsAhead ∧
        ∀ r, st.skipsAhead.head? = some r → st.position < r.start) :
      Visited options st c rest (Scan.enter { st with skips := skips } verb args)
  | quote (hquote : st.quote = none) (hstack : st.stack ≠ []) (hc : Text.isQuote c) :
      Visited options st c rest { st with quote := some c }
  | plain (hquote : st.quote = none) (hstack : st.stack ≠ [])
      (hopen : c = '_' → opening? st.before rest = none) (hc : Text.isQuote c = false)
      (hclose : Depth.isClosing c = false) :
      Visited options st c rest { st with depth := st.depth.past c }
  | pass {inner : List Opened} {o : Opened} {outer : List Opened}
      (hquote : st.quote = none) (hclose : Depth.isClosing c)
      (hstack : st.stack = inner ++ o :: outer)
      (hinner : ∀ p ∈ inner, (st.depth.past c).isBelow p.base)
      (ho : st.depth.past c ≠ o.base) (hbelow : (st.depth.past c).isBelow o.base = false) :
      Visited options st c rest { st with
        stack := o :: outer
        depth := st.depth.past c
        found := st.found.passOver inner (st.position + 1) .unbalanced }
  | passAll {inner : List Opened} {o : Opened}
      (hquote : st.quote = none) (hclose : Depth.isClosing c)
      (hstack : st.stack = inner ++ [o])
      (hinner : ∀ p ∈ inner ++ [o], (st.depth.past c).isBelow p.base) :
      Visited options st c rest { st with
        stack := []
        pending := []
        depth := {}
        found := (st.found.passOver st.stack (st.position + 1) .unbalanced).add options
          st.pending.reverse }
  | wait {inner : List Opened} {o : Opened} {outer : List Opened}
      (hquote : st.quote = none) (hclose : Depth.isClosing c)
      (hstack : st.stack = inner ++ o :: outer) (houter : outer ≠ [])
      (hinner : ∀ p ∈ inner, (st.depth.past c).isBelow p.base) (ho : st.depth.past c = o.base) :
      Visited options st c rest { st with
        stack := outer
        pending := Opened.closedAt o st.position rest :: st.outside o
        depth := st.depth.past c
        found := st.found.passOver inner (st.position + 1) .unbalanced }
  | complete {inner : List Opened} {o : Opened}
      (hquote : st.quote = none) (hclose : Depth.isClosing c)
      (hstack : st.stack = inner ++ [o])
      (hinner : ∀ p ∈ inner, (st.depth.past c).isBelow p.base) (ho : st.depth.past c = o.base) :
      Visited options st c rest { st with
        resume := (Opened.closedAt o st.position rest).stop options
        stack := []
        pending := []
        depth := {}
        found := (st.found.passOver inner (st.position + 1) .unbalanced).add options
          ((st.outside o).reverse ++ [Opened.closedAt o st.position rest]) }

/-- The statements that a depth is below stand before the first one that it is not below. -/
theorem exists_ended (d : Depth) (os : List Opened) : ∃ inner outer, os = inner ++ outer ∧
    (∀ p ∈ inner, d.isBelow p.base) ∧ ∀ o, outer.head? = some o → d.isBelow o.base = false := by
  let ended (o : Opened) : Bool := d.isBelow o.base
  refine ⟨os.takeWhile ended, os.dropWhile ended, List.takeWhile_append_dropWhile.symm,
    fun p hp => List.mem_takeWhile_imp (p := ended) hp, fun o ho => ?_⟩
  have hhead := List.head?_dropWhile_not ended os
  rw [ho] at hhead
  exact hhead

theorem visited_closing (hquote : st.quote = none) (hos : st.stack = os) (hne : os ≠ [])
    (hclose : Depth.isClosing c) :
    Visited options st c rest (settle options rest os { st with depth := st.depth.past c }) := by
  obtain ⟨inner, outer, rfl, hinner, houter⟩ := exists_ended (st.depth.past c) os
  cases outer with
  | nil =>
    rw [List.append_nil] at hos hne ⊢
    obtain ⟨inner, o, rfl⟩ : ∃ init o, inner = init ++ [o] :=
      ⟨_, _, (List.dropLast_concat_getLast hne).symm⟩
    have hall := hinner
    rw [List.forall_mem_append, List.forall_mem_singleton] at hinner
    rw [settle_all { st with depth := st.depth.past c } hinner.1 hinner.2, ← hos]
    exact .passAll hquote hclose hos hall
  | cons o outer =>
    by_cases ho : st.depth.past c = o.base
    · cases outer with
      | nil =>
        rw [settle_completes { st with depth := st.depth.past c } hinner ho]
        exact .complete hquote hclose hos hinner ho
      | cons p outer =>
        rw [settle_waits { st with depth := st.depth.past c } hinner ho (by simp)]
        exact .wait hquote hclose hos (by simp) hinner ho
    · have hbelow := houter o rfl
      rw [settle_open { st with depth := st.depth.past c } hinner ho hbelow]
      exact .pass hquote hclose hos hinner ho hbelow

theorem visited_argument (hquote : st.quote = none) (hstack : st.stack ≠ [])
    (hopen : c = '_' → opening? st.before rest = none) :
    Visited options st c rest (visitArgument options st c rest) := by
  unfold visitArgument
  cases hc : Text.isQuote c with
  | true => exact .quote hquote hstack hc
  | false =>
    rw [if_neg Bool.false_ne_true]
    cases hclose : Depth.isClosing c with
    | false =>
      exact (if_neg (ne_true_of_eq_false hclose)).symm ▸ .plain hquote hstack hopen hc hclose
    | true => exact (if_pos hclose).symm ▸ visited_closing hquote rfl hstack hclose

/-- Outside of strings and of the parts to leave out. -/
theorem visited_plain (hquote : st.quote = none) {skips : List Span}
    (hskips : st.stack ≠ [] ∧ skips = st.skips ∨ st.stack = [] ∧ skips = st.skipsAhead ∧
        ∀ r, st.skipsAhead.head? = some r → st.position < r.start) :
    Visited options st c rest (visitPlain options { st with skips := skips } c rest) := by
  unfold visitPlain
  split
  · next verb args hopen =>
    split at hopen
    · next hc => exact .enter hquote (beq_iff_eq.1 hc) hopen hskips
    · cases hopen
  · next hopen =>
    have hopen' : c = '_' → opening? st.before rest = none := fun hc => by
      rwa [if_pos (beq_iff_eq.2 hc)] at hopen
    obtain ⟨hstack, rfl⟩ | ⟨hstack, rfl, hhead⟩ := hskips
    · rw [if_neg (mt List.isEmpty_iff.1 hstack)]
      exact visited_argument hquote hstack hopen'
    · rw [if_pos (List.isEmpty_iff.2 hstack)]
      exact .prose hquote hstack hhead hopen'

theorem visited (options : Options) (st : Scan) (c : Char) (rest : List Char) :
    Visited options st c rest (visit options st c rest) := by
  unfold visit
  split
  · next q hquote =>
    unfold visitQuoted
    by_cases hescape : c = '\\'
    · rw [if_pos (beq_iff_eq.2 hescape)]
      exact .escape hquote hescape
    rw [if_neg (mt beq_iff_eq.1 hescape)]
    by_cases hline : c = '\n'
    · rw [if_pos (beq_iff_eq.2 hline)]
      exact .line hquote hline
    rw [if_neg (mt beq_iff_eq.1 hline)]
    have hstate : (if c == q then { st with quote := none } else st) =
        { st with quote := if c = q then none else some q } := by
      by_cases hc : c = q
      · rw [if_pos hc, if_pos (beq_iff_eq.2 hc)]
      · rw [if_neg hc, if_neg (mt beq_iff_eq.1 hc), ← hquote]
    rw [hstate]
    exact .quoted hquote hescape hline
  · next hquote =>
    by_cases hstack : st.stack = []
    · rw [if_pos (List.isEmpty_iff.2 hstack)]
      dsimp only
      split
      · next hskips =>
        have hskips : st.skipsAhead = [] := hskips
        exact visited_plain hquote (.inr ⟨hstack, rfl, fun r hr => by rw [hskips] at hr; cases hr⟩)
      · next r skips hskips =>
        have hskips : st.skipsAhead = r :: skips := hskips
        by_cases hr : r.start ≤ st.position
        · rw [if_pos hr]
          exact .leap hquote hstack hskips hr
        · rw [if_neg hr]
          refine visited_plain hquote (.inr ⟨hstack, rfl, fun r' hr' => ?_⟩)
          rw [hskips] at hr'
          cases hr'
          exact Nat.lt_of_not_le hr
    · rw [if_neg (mt List.isEmpty_iff.1 hstack)]
      exact visited_plain hquote (.inl ⟨hstack, rfl⟩)

/-! ## Where a pass stands -/

/-- The scan behind a character that stands at the position. -/
def advance (st : Scan) (position : Nat) (c : Char) : Scan :=
  { st with position := position + c.utf8Size, before := some c }

theorem run_cons (st : Scan) : run options (c :: s) st = run options s (step options st c s) := rfl

theorem step_skipped (st : Scan) (h : st.position < st.resume) :
    step options st c s = { st with position := st.position + c.utf8Size, before := some c } := by
  rw [step, if_pos h]

theorem step_eq (st : Scan) (h : st.resume ≤ st.position) :
    step options st c s =
      { visit options st c s with position := st.position + c.utf8Size, before := some c } := by
  rw [step, if_neg (Nat.not_lt.2 h)]

theorem position_step (st : Scan) :
    (step options st c rest).position = st.position + c.utf8Size := rfl

/-- Where the pass over a text starts. -/
def start (options : Options) (text : List Char) : Scan where
  skips := Tag.nestedBlocks options.wrapperTag.toList options.analysisTag.toList text

/-- The pass over a text stands at `st`, before the part `rest` of the text. -/
inductive Stands (options : Options) (text : List Char) : Scan → List Char → Prop
  | start : Stands options text (start options text) text
  | step {st : Scan} {c : Char} {rest : List Char} (h : Stands options text st (c :: rest)) :
      Stands options text (step options st c rest) rest

namespace Stands

variable {text : List Char}

theorem run (h : Stands options text st rest) :
    Stands options text (Scan.run options rest st) [] := by
  induction rest generalizing st with
  | nil => exact h
  | cons c rest ih => exact ih h.step

/-- **What holds everywhere on a pass.** It holds at the start, and stays when the search passes
over a character and when it looks at one. -/
theorem invariant {P : Scan → List Char → Prop} (hstart : P (Scan.start options text) text)
    (hskip : ∀ st c rest, st.position < st.resume → P st (c :: rest) →
      P (st.advance st.position c) rest)
    (hvisit : ∀ st c rest st', Stands options text st (c :: rest) → st.resume ≤ st.position →
      Visited options st c rest st' → P st (c :: rest) → P (st'.advance st.position c) rest)
    (h : Stands options text st rest) : P st rest := by
  induction h with
  | start => exact hstart
  | @step st c rest h ih =>
    by_cases hresume : st.position < st.resume
    · rw [step_skipped st hresume]
      exact hskip st c rest hresume ih
    · have hresume := Nat.le_of_not_lt hresume
      rw [step_eq st hresume]
      exact hvisit st c rest _ h hresume (visited options st c rest) ih

/-- What holds where a pass stands holds at its end, if it stays when the search passes over a
character and when it looks at one. -/
theorem preserved {P : Scan → List Char → Prop}
    (hskip : ∀ st c rest, Stands options text st (c :: rest) → st.position < st.resume →
      P st (c :: rest) → P (st.advance st.position c) rest)
    (hvisit : ∀ st c rest st', Stands options text st (c :: rest) → st.resume ≤ st.position →
      Visited options st c rest st' → P st (c :: rest) → P (st'.advance st.position c) rest)
    (h : Stands options text st rest) (hP : P st rest) : P (Scan.run options rest st) [] := by
  induction rest generalizing st with
  | nil => exact hP
  | cons c rest ih =>
    refine ih h.step ?_
    by_cases hresume : st.position < st.resume
    · rw [step_skipped st hresume]
      exact hskip st c rest h hresume hP
    · have hresume := Nat.le_of_not_lt hresume
      rw [step_eq st hresume]
      exact hvisit st c rest _ h hresume (visited options st c rest) hP

/-- A pass goes on in one way. -/
theorem run_eq (h : Stands options text st rest) :
    Scan.run options rest st = Scan.run options text (Scan.start options text) := by
  induction h with
  | start => rfl
  | step _ ih => exact ih

/-- The text is what lies behind and what lies before. -/
theorem exists_passed (h : Stands options text st rest) :
    ∃ passed, text = passed ++ rest ∧ Text.byteLength passed = st.position := by
  induction h with
  | start => exact ⟨[], rfl, rfl⟩
  | @step st c rest _ ih =>
    obtain ⟨passed, rfl, hposition⟩ := ih
    refine ⟨passed ++ [c], by simp, ?_⟩
    rw [position_step, ← hposition]
    simp

end Stands

/-! ## The order of positions -/

/-- The innermost opened statement starts last, and what waits has started within the outermost. -/
structure Ordered (st : Scan) : Prop where
  stack : st.stack.Pairwise fun o p => p.start < o.start
  opened : ∀ o ∈ st.stack, o.start < st.position
  waiting : st.pending.Pairwise fun k l => l.start ≤ k.start
  pending : ∀ k ∈ st.pending, k.start < st.position ∧
    ∃ o, st.stack.getLast? = some o ∧ o.start < k.start

theorem Ordered.mono {st' : Scan} (h : st.Ordered) (hstack : st'.stack = st.stack)
    (hpending : st'.pending = st.pending) (hposition : st.position ≤ st'.position) :
    st'.Ordered := by
  obtain ⟨hstart, hopened, hwaiting, hpending'⟩ := h
  rw [← hstack] at hstart hopened hpending'
  rw [← hpending] at hwaiting hpending'
  refine ⟨hstart, fun o ho => ?_, hwaiting, fun k hk => ?_⟩
  · exact Nat.lt_of_lt_of_le (hopened o ho) hposition
  · exact ⟨Nat.lt_of_lt_of_le (hpending' k hk).1 hposition, (hpending' k hk).2⟩

theorem ordered_of_empty (hstack : st.stack = []) (hpending : st.pending = []) : st.Ordered := by
  refine ⟨hstack ▸ .nil, fun o ho => ?_, hpending ▸ .nil, fun k hk => ?_⟩
  · rw [hstack] at ho
    cases ho
  · rw [hpending] at hk
    cases hk

/-- What is left of the opened statements when the inner ones have gone. -/
theorem Ordered.of_outer {st' : Scan} (h : st.Ordered) (hstack : st.stack = inner ++ st'.stack)
    (hne : st'.stack ≠ []) (hpending : st'.pending = st.pending)
    (hposition : st.position ≤ st'.position) : st'.Ordered := by
  obtain ⟨hstart, hopened, hwaiting, hpending'⟩ := h
  have hlast : st.stack.getLast? = st'.stack.getLast? := by
    rw [hstack, List.getLast?_append, List.getLast?_eq_some_getLast hne, Option.some_or]
  rw [hlast] at hpending'
  rw [← hpending] at hwaiting hpending'
  rw [hstack] at hstart hopened
  refine ⟨(List.pairwise_append.1 hstart).2.1, fun o ho => ?_, hwaiting, fun k hk => ?_⟩
  · exact Nat.lt_of_lt_of_le (hopened o (List.mem_append_right _ ho)) hposition
  · exact ⟨Nat.lt_of_lt_of_le (hpending' k hk).1 hposition, (hpending' k hk).2⟩

theorem outside_subset (o : Opened) : st.outside o ⊆ st.pending :=
  (List.dropWhile_sublist _).subset

theorem mem_outside {k : Closed} (hk : k ∈ st.pending) (hle : k.start ≤ o.start) :
    k ∈ st.outside o := by
  unfold outside
  generalize st.pending = ks at hk ⊢
  induction ks with
  | nil => exact hk
  | cons l ks ih =>
    by_cases hl : o.start < l.start
    · rw [List.dropWhile_cons_of_pos (by simpa using hl)]
      obtain rfl | hk := List.mem_cons.1 hk
      · exact absurd hle (Nat.not_le.2 hl)
      · exact ih hk
    · rw [List.dropWhile_cons_of_neg (by simpa using hl)]
      exact hk

/-- The statements that wait, without those within the opened one, have started before it. -/
theorem Ordered.start_le_of_outside (h : st.Ordered) {k : Closed} (hk : k ∈ st.outside o) :
    k.start ≤ o.start := by
  have hsorted : (st.outside o).Pairwise fun k l => l.start ≤ k.start :=
    h.waiting.sublist (List.dropWhile_sublist _)
  cases houtside : st.outside o with
  | nil =>
    rw [houtside] at hk
    cases hk
  | cons l ks =>
    have hhead := List.head?_dropWhile_not (fun k : Closed => decide (o.start < k.start)) st.pending
    rw [show st.pending.dropWhile _ = l :: ks from houtside] at hhead
    have hl : l.start ≤ o.start := Nat.le_of_not_lt (of_decide_eq_false hhead)
    rw [houtside] at hk hsorted
    obtain rfl | hk := List.mem_cons.1 hk
    · exact hl
    · exact ((List.pairwise_cons.1 hsorted).1 k hk).trans hl

theorem Ordered.visited {st' : Scan} (h : st.Ordered) (hvisit : Visited options st c rest st') :
    (st'.advance st.position c).Ordered := by
  have hnext : st.position < st.position + c.utf8Size :=
    Nat.lt_add_of_pos_right c.utf8Size_pos
  cases hvisit with
  | escape | quoted | leap | prose | quote | plain => exact h.mono rfl rfl hnext.le
  | line => rw [abandon_eq]; exact ordered_of_empty rfl rfl
  | passAll | complete => exact ordered_of_empty rfl rfl
  | enter =>
    refine ⟨.cons (fun o ho => h.opened o ho) h.stack, ?_, h.waiting, fun k hk => ?_⟩
    · exact List.forall_mem_cons.2 ⟨hnext, fun o ho => (h.opened o ho).trans hnext⟩
    · obtain ⟨hstart, o, ho, hlt⟩ := h.pending k hk
      refine ⟨hstart.trans hnext, o, ?_, hlt⟩
      exact (List.getLast?_cons).trans (by simp [ho])
  | pass _ _ hstack => exact h.of_outer hstack (by simp [advance]) rfl hnext.le
  | @wait inner o outer _ _ hstack houter =>
    have hsplit : st.stack = (inner ++ [o]) ++ outer := by simp [hstack]
    have hleft : ({ st with stack := outer } : Scan).Ordered :=
      h.of_outer hsplit houter rfl (Nat.le_refl _)
    have hlast : outer.getLast? = some (outer.getLast houter) :=
      List.getLast?_eq_some_getLast houter
    have hstarts := h.stack
    rw [hstack] at hstarts
    have ho : o ∈ st.stack := by simp [hstack]
    refine ⟨hleft.stack, fun p hp => (hleft.opened p hp).trans hnext, ?_, ?_⟩
    · refine .cons (fun k hk => h.start_le_of_outside hk) ?_
      exact h.waiting.sublist (List.dropWhile_sublist _)
    refine List.forall_mem_cons.2 ⟨⟨(h.opened o ho).trans hnext, _, hlast, ?_⟩, fun k hk => ?_⟩
    · have hpairs := (List.pairwise_append.1 hstarts).2.1
      exact (List.pairwise_cons.1 hpairs).1 _ (List.getLast_mem houter)
    · obtain ⟨hk, hwithin⟩ := hleft.pending k (outside_subset o hk)
      exact ⟨hk.trans hnext, hwithin⟩

theorem Stands.ordered {text : List Char} (h : Stands options text st rest) : st.Ordered :=
  invariant (P := fun st _ => st.Ordered) (ordered_of_empty rfl rfl)
    (fun _ _ _ _ h => h.mono rfl rfl (Nat.le_add_right ..))
    (fun _ _ _ _ _ _ hvisit h => h.visited hvisit) h

/-! ## What becomes of opened statements -/

/-- What becomes of the statements that are open and of those that wait, when `rest` is the text
behind the character that the search looks at. -/
inductive Changed (options : Options) (st : Scan) (rest : List Char) (st' : Scan) : Prop
  | same (hstack : st'.stack = st.stack) (hpending : st'.pending = st.pending)
      (hfound : st'.found = st.found)
  | opened (o : Opened) (ho : o.start = st.position) (hstack : st'.stack = o :: st.stack)
      (hpending : st'.pending = st.pending) (hfound : st'.found = st.found)
  | dropped (inner : List Opened) (hstack : st.stack = inner ++ st'.stack) (hne : st'.stack ≠ [])
      (hpending : st'.pending = st.pending)
      (hfound : st'.found = st.found.passOver inner (st.position + 1) .unbalanced)
  | closed (inner : List Opened) (o : Opened) (hstack : st.stack = inner ++ o :: st'.stack)
      (hne : st'.stack ≠ [])
      (hpending : st'.pending = Opened.closedAt o st.position rest :: st.outside o)
      (hfound : st'.found = st.found.passOver inner (st.position + 1) .unbalanced)
  | completed (inner : List Opened) (o : Opened) (hstack : st.stack = inner ++ [o])
      (hnone : st'.stack = []) (hpending : st'.pending = [])
      (hfound : st'.found = (st.found.passOver inner (st.position + 1) .unbalanced).add options
        [Opened.closedAt o st.position rest])
  | abandoned (os : List Opened) (stop : Nat) (flaw : Flaw) (hos : ∀ o, o ∈ os ↔ o ∈ st.stack)
      (hstop : st.position ≤ stop) (hflaw : flaw ≠ .missingSemicolon)
      (hnone : st'.stack = []) (hpending : st'.pending = [])
      (hfound : st'.found = (st.found.passOver os stop flaw).add options st.pending.reverse)

/-- All that waits lies within the outermost statement. -/
theorem Ordered.outside_outermost (h : st.Ordered) (hstack : st.stack = inner ++ [o]) :
    st.outside o = [] := by
  refine List.eq_nil_iff_forall_not_mem.2 fun k hk => ?_
  obtain ⟨-, p, hp, hlt⟩ := h.pending k (outside_subset o hk)
  rw [hstack, List.getLast?_concat] at hp
  cases hp
  exact absurd (h.start_le_of_outside hk) (Nat.not_le.2 hlt)

theorem Visited.changed {st' : Scan} (h : Visited options st c rest st') (hordered : st.Ordered) :
    Changed options st rest (st'.advance st.position c) := by
  cases h with
  | escape | quoted | leap | prose | quote | plain => exact .same rfl rfl rfl
  | line =>
    rw [abandon_eq]
    exact .abandoned _ _ .unclosedString (fun _ => List.mem_reverse) (Nat.le_refl _) nofun rfl rfl
      rfl
  | enter => exact .opened _ rfl rfl rfl rfl
  | pass _ _ hstack => exact .dropped _ hstack (by simp [advance]) rfl rfl
  | passAll =>
    exact .abandoned _ _ .unbalanced (fun _ => Iff.rfl) (Nat.le_succ _) nofun rfl rfl rfl
  | wait _ _ hstack houter => exact .closed _ _ hstack houter rfl rfl
  | complete _ _ hstack =>
    refine .completed _ _ hstack rfl rfl ?_
    rw [hordered.outside_outermost hstack]
    rfl

end Scan

/-! ## What is found -/

/-- Where the pass stands at the end of the text. -/
def final (options : Options) (text : List Char) : Scan :=
  Scan.run options text (Scan.start options text)

theorem stands_final (options : Options) (text : List Char) :
    Scan.Stands options text (final options text) [] :=
  Scan.Stands.start.run

/-- What has been found when the statements that are still open have been given up. -/
def atEnd (options : Options) (text : List Char) : Extraction :=
  let st := final options text
  (st.found.passOver st.stack.reverse (Text.byteLength text) .unclosed).add options
    st.pending.reverse

/-- The end of the text gives up all statements that are still open. -/
theorem changed_atEnd (options : Options) (text : List Char) :
    Scan.Changed options (final options text) []
      { final options text with stack := [], pending := [], found := atEnd options text } := by
  obtain ⟨passed, htext, hposition⟩ := (stands_final options text).exists_passed
  have hstop : (final options text).position = Text.byteLength text := by
    rw [List.append_nil] at htext
    rw [htext] at hposition ⊢
    exact hposition.symm
  exact .abandoned _ _ .unclosed (fun _ => List.mem_reverse) hstop.le nofun rfl rfl rfl

theorem ofChars_eq (options : Options) (text : List Char) :
    ofChars options text = (atEnd options text).sorted := by
  change (Scan.abandon options (final options text) _ .unclosed).found.sorted = _
  rw [Scan.abandon_eq]
  rfl

theorem mem_statements_ofChars {text : List Char} {s : Statement} :
    s ∈ (ofChars options text).statements ↔ s ∈ (atEnd options text).statements := by
  rw [ofChars_eq]
  exact List.mem_mergeSort

theorem mem_diagnostics_ofChars {text : List Char} {d : Diagnostic} :
    d ∈ (ofChars options text).diagnostics ↔ d ∈ (atEnd options text).diagnostics := by
  rw [ofChars_eq]
  exact List.mem_mergeSort

theorem finished_ofChars {text : List Char} {start : Nat} :
    (ofChars options text).Finished start ↔ (atEnd options text).Finished start := by
  simp only [Finished, mem_statements_ofChars, mem_diagnostics_ofChars]

end Extraction

end StatVars
