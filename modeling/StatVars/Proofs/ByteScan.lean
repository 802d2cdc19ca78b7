import StatVars.Proofs.ArgumentSlices
import StatVars.Proofs.BlockSlices
import StatVars.Proofs.Succession

/-!
# The search over bytes

The search for statements can be a loop over the bytes of a text that keeps places only. It reads an
opening out of the bytes behind an underscore, and cuts a statement out of the text when it has been
completed, which may be long after its bracket: then the slices have to exist. Here is this loop,
and what it does for itself is compared with the search over characters. All statements that it cuts
out lie in the text, `Extraction.Closed.LiesIn`, so that their slices do exist.
-/

namespace StatVars

namespace Extraction

/-- An opened statement by its places: the end of its verb, its start, the start of its arguments,
and the counts before it. -/
structure OpenedMark where
  verbStop : Nat
  start : Nat
  argsStart : Nat
  base : Depth

/-- A closed statement by its places: the end of its verb, its start, the start of its arguments and
the place of the bracket that closed it. -/
structure ClosedMark where
  verbStop : Nat
  start : Nat
  argsStart : Nat
  close : Nat

/-- Where a loop over the bytes of a text stands, apart from its place. -/
structure ByteScan where
  quote : Option Char := none
  skips : List Span
  stack : List OpenedMark := []
  pending : List ClosedMark := []
  depth : Depth := {}
  found : Extraction := {}

namespace ByteScan

open Scan (inVerb isGap)

/-! ## The opening of a statement -/

/-- The character with the number of the byte at a place. -/
def charAt? (bytes : List UInt8) (place : Nat) : Option Char :=
  bytes[place]?.map .ofUInt8

/-- The end of the verb that goes on at a place. -/
def verbStop (bytes : List UInt8) (place : Nat) : Nat :=
  if _h : place < bytes.length then
    if inVerb (.ofUInt8 bytes[place]) then verbStop bytes (place + 1) else place
  else place
termination_by bytes.length - place

/-- The end of the verb of the statement that starts with the underscore at a place, if there is
one. -/
def opening? (bytes : List UInt8) (place : Nat) : Option Nat :=
  if 0 < place ∧ (charAt? bytes (place - 1)).any inVerb then none
  else if charAt? bytes (place + 1) = some '.' then
    if (charAt? bytes (place + 2)).any Char.isAlpha then
      let stop := verbStop bytes (place + 3)
      if charAt? bytes stop = some '(' then some stop else none
    else none
  else none

/-! ## Complete statements -/

/-- The reason at the start of a text and the number of bytes up to the end of its line, unless the
line is no slice. -/
def takeReason? (s : List Char) : Option (Option String × Nat) :=
  let trimmed := s.dropWhile isGap
  match trimmed with
  | '/' :: '/' :: comment =>
    let length := Text.byteLength (comment.takeWhile (· != '\n'))
    (Text.slice? 0 length comment).map fun line =>
      let reason := Text.trim line
      (if reason.isEmpty then none else some (.ofList reason),
        Text.byteLength s - Text.byteLength trimmed + 2 + length)
  | _ => some (none, 0)

/-- The statement whose call and semicolon end at byte `stop`, unless one of the slices does not
exist. -/
def cutOut? (text : List Char) (k : ClosedMark) (stop : Nat) : Option Statement := do
  let behind ← Text.sliceFrom? stop text
  let (reason, length) ← takeReason? behind
  let verb ← Text.slice? (k.start + 2) k.verbStop text
  let list ← Text.slice? k.argsStart k.close text
  let args ← Statement.splitSlices? list
  return ⟨.ofList verb, args, reason, ⟨k.start, stop + length⟩⟩

/-- What has been found together with a closed statement, and the place behind it. -/
def finish? (options : Options) (text : List Char) (found : Extraction) (k : ClosedMark) :
    Option (Extraction × Nat) := do
  let record (s : Statement) : Extraction × Nat :=
    ({ found with statements := found.statements ++ [s] }, s.span.stop)
  let rest ← Text.sliceFrom? (k.close + 1) text
  if rest.head? = some ';' then (cutOut? text k (k.close + 2)).map record
  else if options.requireSemicolon then
    let flawed : Diagnostic := ⟨⟨k.start, k.close + 1⟩, .missingSemicolon⟩
    return ({ found with diagnostics := found.diagnostics ++ [flawed] }, k.close + 1)
  else (cutOut? text k (k.close + 1)).map record

/-- Finishes the statements that closed inside opened ones. -/
def flush? (options : Options) (text : List Char) (st : ByteScan) : Option ByteScan :=
  let next? (found : Extraction) (k : ClosedMark) : Option Extraction :=
    (finish? options text found k).map (·.1)
  (st.pending.reverse.foldlM next? st.found).map fun found =>
    { st with pending := [], found := found }

/-- Passes over these opened statements, up to byte `stop`. -/
def reject (st : ByteScan) (os : List OpenedMark) (stop : Nat) (flaw : Flaw) : ByteScan :=
  { st with found := { st.found with
      diagnostics := st.found.diagnostics ++ os.map fun o => ⟨⟨o.start, stop⟩, flaw⟩ } }

/-- Passes over all opened statements, up to byte `stop`. -/
def abandon? (options : Options) (text : List Char) (st : ByteScan) (stop : Nat) (flaw : Flaw) :
    Option ByteScan :=
  flush? options text { st.reject st.stack.reverse stop flaw with stack := [], depth := {} }

/-- Closes the opened statements that the bracket at a place ends, where `stack` holds those still
to be looked at. The result has the place where the loop goes on. -/
def settle? (options : Options) (text : List Char) (place : Nat) :
    List OpenedMark → ByteScan → Option (Nat × ByteScan)
  | [], st => some (place + 1, { st with stack := [] })
  | top :: stack, st =>
    if st.depth = top.base then
      let closed : ClosedMark := ⟨top.verbStop, top.start, top.argsStart, place⟩
      let pending := st.pending.dropWhile fun k => top.start < k.start
      match stack with
      | [] =>
        (flush? options text { st with stack := [], pending := pending }).bind fun st' =>
          (finish? options text st'.found closed).map fun (found, stop) =>
            (stop, { st' with depth := {}, found := found })
      | _ => some (place + 1, { st with stack := stack, pending := closed :: pending })
    else if st.depth.isBelow top.base then
      let st' := st.reject [top] (place + 1) .unbalanced
      match stack with
      | [] => (flush? options text { st' with stack := [], depth := {} }).map (place + 1, ·)
      | _ => settle? options text place stack st'
    else some (place + 1, { st with stack := top :: stack })

/-! ## The loop -/

/-- Looks at the byte at a place inside a string. -/
def quoted? (options : Options) (text : List Char) (place : Nat) (st : ByteScan) (quote c : Char) :
    Option (Nat × ByteScan) :=
  if c == '\\' then some (place + 2, st)
  else if c == '\n' then
    (abandon? options text { st with quote := none } place .unclosedString).map (place + 1, ·)
  else if c == quote then some (place + 1, { st with quote := none })
  else some (place + 1, st)

/-- Looks at the byte at a place inside the arguments of a statement. -/
def argument? (options : Options) (text : List Char) (place : Nat) (st : ByteScan) (c : Char) :
    Option (Nat × ByteScan) :=
  if Text.isQuote c then some (place + 1, { st with quote := some c })
  else
    let st' := { st with depth := st.depth.past c }
    if c == ')' || c == '\x7d' || c == ']' then settle? options text place st.stack st'
    else some (place + 1, st')

def enter (st : ByteScan) (place stop : Nat) : ByteScan :=
  { st with
    stack := ⟨stop, place, stop + 1, st.depth⟩ :: st.stack
    depth := { st.depth with paren := st.depth.paren + 1 } }

/-- Looks at the byte at a place outside of strings and of the parts to leave out. -/
def plain? (options : Options) (text : List Char) (place : Nat) (st : ByteScan) (c : Char) :
    Option (Nat × ByteScan) :=
  match if c == '_' then opening? (Text.bytes text) place else none with
  | some stop => some (stop + 1, st.enter place stop)
  | none =>
    if st.stack.isEmpty then some (place + 1, st) else argument? options text place st c

/-- Looks at the byte at a place. The result has the place where the loop goes on. -/
def step? (options : Options) (text : List Char) (place : Nat) (st : ByteScan) (c : Char) :
    Option (Nat × ByteScan) :=
  match st.quote with
  | some quote => quoted? options text place st quote c
  | none =>
    if st.stack.isEmpty then
      let skips := st.skips.dropWhile fun r => r.stop ≤ place
      let st := { st with skips := skips }
      match skips with
      | [] => plain? options text place st c
      | r :: skips =>
        if r.start ≤ place then some (r.stop, { st with skips := skips })
        else plain? options text place st c
    else plain? options text place st c

/-! ## The loop goes on -/

section

variable {options : Options} {text : List Char} {bytes : List UInt8} {place place' stop : Nat}
  {found found' : Extraction} {st st' : ByteScan} {k : ClosedMark} {c : Char}

theorem le_verbStop (bytes : List UInt8) (place : Nat) : place ≤ verbStop bytes place := by
  induction place using verbStop.induct bytes with
  | case1 place h hverb ih =>
    rw [verbStop, dif_pos h, if_pos hverb]
    exact (Nat.le_succ _).trans ih
  | case2 place h hverb => rw [verbStop, dif_pos h, if_neg hverb]
  | case3 place h => rw [verbStop, dif_neg h]

theorem lt_of_opening? (h : opening? bytes place = some stop) : place < stop := by
  have hle := le_verbStop bytes (place + 3)
  unfold opening? at h
  split at h
  · cases h
  split at h
  · split at h
    · obtain ⟨-, h⟩ := Option.ite_none_right_eq_some.1 h
      cases h
      omega
    · cases h
  · cases h

theorem le_of_cutOut? {s : Statement} (h : cutOut? text k stop = some s) :
    stop ≤ s.span.stop := by
  simp only [cutOut?, Option.bind_eq_bind, Option.pure_def, Option.bind_eq_some_iff,
    Option.some.injEq] at h
  obtain ⟨-, -, ⟨reason, length⟩, -, -, -, -, -, -, -, rfl⟩ := h
  exact Nat.le_add_right ..

theorem lt_of_finish? (h : finish? options text found k = some (found', place')) :
    k.close < place' := by
  obtain ⟨rest, -, h⟩ := Option.bind_eq_some_iff.1 h
  split at h
  · obtain ⟨s, hs, h⟩ := Option.map_eq_some_iff.1 h
    cases h
    exact (Nat.lt_add_of_pos_right Nat.two_pos).trans_le (le_of_cutOut? hs)
  split at h
  · cases h
    exact Nat.lt_succ_self _
  · obtain ⟨s, hs, h⟩ := Option.map_eq_some_iff.1 h
    cases h
    exact (Nat.lt_succ_self _).trans_le (le_of_cutOut? hs)

theorem lt_of_settle? {os : List OpenedMark}
    (h : settle? options text place os st = some (place', st')) : place < place' := by
  induction os generalizing st with
  | nil =>
    cases h
    exact Nat.lt_succ_self _
  | cons top os ih =>
    rw [settle?] at h
    split at h
    · dsimp only at h
      split at h
      · obtain ⟨st₁, -, h⟩ := Option.bind_eq_some_iff.1 h
        obtain ⟨⟨found, stop⟩, hfinish, h⟩ := Option.map_eq_some_iff.1 h
        cases h
        exact lt_of_finish? hfinish
      · cases h
        exact Nat.lt_succ_self _
    split at h
    · dsimp only at h
      split at h
      · obtain ⟨st₁, -, h⟩ := Option.map_eq_some_iff.1 h
        cases h
        exact Nat.lt_succ_self _
      · exact ih h
    · cases h
      exact Nat.lt_succ_self _

theorem lt_of_plain? (h : plain? options text place st c = some (place', st')) :
    place < place' := by
  unfold plain? at h
  split at h
  · next stop hopen =>
    cases h
    split at hopen
    · exact (lt_of_opening? hopen).trans (Nat.lt_succ_self _)
    · cases hopen
  split at h
  · cases h
    exact Nat.lt_succ_self _
  unfold argument? at h
  split at h
  · cases h
    exact Nat.lt_succ_self _
  dsimp only at h
  split at h
  · exact lt_of_settle? h
  · cases h
    exact Nat.lt_succ_self _

theorem lt_of_quoted? {q : Char} (h : quoted? options text place st q c = some (place', st')) :
    place < place' := by
  unfold quoted? at h
  split at h
  · cases h
    exact Nat.lt_add_of_pos_right Nat.two_pos
  split at h
  · obtain ⟨st₁, -, h⟩ := Option.map_eq_some_iff.1 h
    cases h
    exact Nat.lt_succ_self _
  split at h
  all_goals
    cases h
    exact Nat.lt_succ_self _

theorem lt_of_step? (h : step? options text place st c = some (place', st')) : place < place' := by
  unfold step? at h
  split at h
  · exact lt_of_quoted? h
  split at h
  · dsimp only at h
    split at h
    · exact lt_of_plain? h
    · next r skips hskips =>
      split at h
      · cases h
        have hhead := List.head?_dropWhile_not (fun r : Span => decide (r.stop ≤ place)) st.skips
        rw [hskips] at hhead
        exact Nat.lt_of_not_le (of_decide_eq_false hhead)
      · exact lt_of_plain? h
  · exact lt_of_plain? h

end

/-- The loop over the bytes of a text. -/
def loop (options : Options) (text : List Char) : ByteLoop ByteScan where
  step? := step? options text
  lt_of_step? := lt_of_step?

/-- What is found in a text by the loop over its bytes, unless one of the slices that it takes does
not exist. -/
def ofText? (options : Options) (text : String) : Option Extraction := do
  let s := text.toList
  let skips ← Tag.nestedSlices? options.wrapperTag.toList options.analysisTag.toList s
  let st ← (loop options s).run? (Text.bytes s) 0 { skips := skips }
  let st ← abandon? options s st (Text.byteLength s) .unclosed
  return st.found.sorted

end ByteScan

end Extraction

end StatVars
