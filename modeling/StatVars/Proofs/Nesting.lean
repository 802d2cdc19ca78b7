import StatVars.Literal.Parser
import StatVars.Proofs.LiteralText

/-!
# Nesting

The reader of the relaxed notation calls itself for what a container holds. It answers what a
machine does that keeps the open containers on a list and takes the text part by part: a bracket or
a separator, a character of a string, or the whole of a key or a scalar without quotes, with the
blanks in front of it. Each step of the machine moves on in the text or ends, and never leaves more
containers open than the limit, so that the machine ends on every text. Main statement:
`nesting_bounded`.
-/

namespace StatVars

open Fallible Text

namespace Literal

namespace Relaxed

/-! ## The machine -/

/-- A container around the value that is read, with what it holds up to there. -/
inductive Container
  | array (items : List Json)
  | object (fields : List (String × Json)) (key : String)

/-- What a string is read for: a value, or a key of an object that has fields already. -/
inductive Purpose
  | value
  | key (fields : List (String × Json))

/-- The containers around the place, the innermost one first, and the text from there on. -/
inductive State
  /-- In front of a value. -/
  | value (within : List Container) (s : List Char)
  /-- Behind a value. -/
  | behind (within : List Container) (v : Json) (s : List Char)
  /-- In an array, in front of an item or of the closing bracket. -/
  | item (items : List Json) (within : List Container) (s : List Char)
  /-- In an object, in front of a field or of the closing brace. -/
  | field (fields : List (String × Json)) (within : List Container) (s : List Char)
  /-- In a string, behind the characters `read`. -/
  | string (purpose : Purpose) (quote : Char) (read : List Char) (within : List Container)
    (s : List Char)

inductive Outcome
  | go (st : State)
  | stop (result : Except SyntaxError Json)

def fail (e : StructureError) : Outcome :=
  .stop (.error (.invalidStructure e))

/-- Reads a character of a string, or its closing quote. -/
def takeChar (total : Nat) (quote : Char) :
    List Char → Except StructureError (Option Char × List Char)
  | [] => .error (.unterminatedString total)
  | ['\\'] => .error (.unterminatedString total)
  | '\\' :: 'u' :: s =>
    if byteLength (takeBytes 4 s) ≠ 4 then .error (.truncatedEscape (position total s))
    else
      match s with
      | a :: b :: c :: d :: rest =>
        match namedChar? a b c d with
        | some e => .ok (some e, rest)
        | none => .error (.invalidEscape (position total s))
      | _ => .error (.invalidEscape (position total s))
  | '\\' :: c :: s => .ok (some (escaped c), s)
  | c :: s => .ok (if c = quote then none else some c, s)

/-- A string ends a value, and a key is followed by a colon. -/
def finish (total : Nat) (within : List Container) (text rest : List Char) : Purpose → Outcome
  | .value => .go (.behind within (.str (.ofList text)) rest)
  | .key fields =>
    match skipBlank rest with
    | ':' :: rest => .go (.value (.object fields (.ofList text) :: within) rest)
    | rest => fail (.missingColon (position total rest))

/-- Begins a value. -/
def enter (total limit : Nat) (within : List Container) (s : List Char) : Outcome :=
  match skipBlank s with
  | [] => fail (.unexpectedEnd total)
  | '\x7b' :: s =>
    if within.length < limit then .go (.field [] within s) else .stop (.error (.tooDeep limit))
  | '[' :: s =>
    if within.length < limit then .go (.item [] within s) else .stop (.error (.tooDeep limit))
  | c :: s =>
    if isQuote c then .go (.string .value c [] within s)
    else
      match scalar ((c :: s).takeWhile inScalar) with
      | .ok v => .go (.behind within v ((c :: s).dropWhile inScalar))
      | .error e => .stop (.error e)

def step (total limit : Nat) : State → Outcome
  | .value within s => enter total limit within s
  | .behind [] v s =>
    match skipBlank s with
    | [] => .stop (.ok v)
    | rest => fail (.trailingInput (position total rest))
  | .behind (.array items :: within) v s =>
    match skipBlank s with
    | ',' :: rest => .go (.item (items ++ [v]) within rest)
    | ']' :: rest => .go (.behind within (.arr (items ++ [v])) rest)
    | rest => fail (.missingSeparator ']' (position total rest))
  | .behind (.object fields key :: within) v s =>
    match skipBlank s with
    | ',' :: rest => .go (.field (Table.insert fields key v) within rest)
    | '\x7d' :: rest => .go (.behind within (.obj (Table.insert fields key v)) rest)
    | rest => fail (.missingSeparator '\x7d' (position total rest))
  | .item items within s =>
    match skipBlank s with
    | ']' :: rest => .go (.behind within (.arr items) rest)
    | s => enter total limit (.array items :: within) s
  | .field fields within s =>
    match skipBlank s with
    | '\x7d' :: rest => .go (.behind within (.obj fields) rest)
    | [] => fail (.unterminatedObject total)
    | c :: s =>
      if isQuote c then .go (.string (.key fields) c [] within s)
      else
        let key := (c :: s).takeWhile inKey
        if key.isEmpty then fail (.missingKey (position total (c :: s)))
        else finish total within key ((c :: s).dropWhile inKey) (.key fields)
  | .string purpose quote read within s =>
    match takeChar total quote s with
    | .ok (some c, rest) => .go (.string purpose quote (read ++ [c]) within rest)
    | .ok (none, rest) => finish total within read rest purpose
    | .error e => fail e

/-- The answer, if the machine ends in so many steps. -/
def run (total limit : Nat) : Nat → State → Option (Except SyntaxError Json)
  | 0, _ => none
  | n + 1, st =>
    match step total limit st with
    | .go st => run total limit n st
    | .stop r => some r

/-- An outcome comes from another one by any number of steps. -/
inductive Leads (total limit : Nat) : Outcome → Outcome → Prop
  | refl (o : Outcome) : Leads total limit o o
  | next {st : State} {o : Outcome} (h : Leads total limit (step total limit st) o) :
    Leads total limit (.go st) o

variable {total limit : Nat} {st st' : State} {o o' o'' : Outcome} {within : List Container}
  {s t u : List Char}

theorem Leads.trans (h : Leads total limit o o') (h' : Leads total limit o' o'') :
    Leads total limit o o'' := by
  induction h with
  | refl => exact h'
  | next _ ih => exact .next (ih h')

/-- What a step preserves holds wherever the machine gets. -/
theorem Leads.preserves {P : State → Prop}
    (hstep : ∀ st st', P st → step total limit st = .go st' → P st')
    (h : Leads total limit (.go st) (.go st')) (hst : P st) : P st' := by
  generalize ho : Outcome.go st = o, ho' : Outcome.go st' = o' at h
  induction h generalizing st with
  | refl =>
    cases ho.trans ho'.symm
    exact hst
  | @next st₁ _ h ih =>
    cases ho
    cases hnext : step total limit st₁ with
    | go st₂ => exact ih (hstep _ _ hst hnext) hnext.symm ho'
    | stop r =>
      cases ho'
      rw [hnext] at h
      cases h

/-! ## What a step does -/

def Purpose.opened : Purpose → Nat
  | value => 0
  | key _ => 1

/-- How many containers are open. -/
def State.opened : State → Nat
  | value within _ | behind within _ _ => within.length
  | item _ within _ | field _ within _ => within.length + 1
  | string purpose _ _ within _ => within.length + purpose.opened

def State.rest : State → List Char
  | value _ s | behind _ _ s | item _ _ s | field _ _ s | string _ _ _ _ s => s

/-- The second text is what is left of the first one from a later place on. -/
def Advances (s t : List Char) : Prop :=
  t <:+ s ∧ t.length < s.length

theorem advances_cons (c : Char) (s : List Char) : Advances (c :: s) s :=
  ⟨List.suffix_cons c s, Nat.lt_succ_self _⟩

theorem Advances.trans_suffix (h : Advances s t) (h' : u <:+ t) : Advances s u :=
  ⟨h'.trans h.1, Nat.lt_of_le_of_lt h'.length_le h.2⟩

theorem Advances.trans (h : Advances s t) (h' : Advances t u) : Advances s u :=
  h.trans_suffix h'.1

theorem Advances.of_suffix (h : t <:+ s) (h' : Advances t u) : Advances s u :=
  ⟨h'.1.trans h, Nat.lt_of_lt_of_le h'.2 h.length_le⟩

theorem skipBlank_suffix (s : List Char) : skipBlank s <:+ s :=
  List.dropWhile_suffix _

theorem advances_of_skipBlank {c : Char} (h : skipBlank s = c :: t) : Advances s t :=
  .of_suffix (h ▸ skipBlank_suffix s) (advances_cons c t)

theorem advances_dropWhile {p : Char → Bool} (h : s.takeWhile p ≠ []) :
    Advances s (s.dropWhile p) := by
  refine ⟨List.dropWhile_suffix p, ?_⟩
  have hlength := congrArg List.length (List.takeWhile_append_dropWhile (p := p) (l := s))
  have hpos := List.length_pos_iff.2 h
  rw [List.length_append] at hlength
  omega

theorem advances_of_takeChar {quote : Char} {c : Option Char}
    (h : takeChar total quote s = .ok (c, t)) : Advances s t := by
  unfold takeChar at h
  split at h
  · cases h
  · cases h
  · next s =>
    have hescape : Advances ('\\' :: 'u' :: s) s := (advances_cons _ _).trans (advances_cons _ s)
    split at h
    · cases h
    · split at h
      · split at h
        · cases h
          exact hescape.trans_suffix (List.suffix_append [_, _, _, _] _)
        · cases h
      · cases h
  · cases h
    exact (advances_cons _ _).trans (advances_cons _ _)
  · cases h
    exact advances_cons _ _

theorem ne_nil_of_scalar {token : List Char} {v : Json} (h : scalar token = .ok v) :
    token ≠ [] := by
  rintro rfl
  cases h

theorem scalar_ne_tooDeep {token : List Char} (n : Nat) :
    scalar token ≠ .error (.tooDeep n) := by
  intro h
  unfold scalar numberValue at h
  split at h
  · cases h
  split at h
  · cases h
  split at h
  · cases h
  split at h
  · split at h <;> cases h
  · cases h

/-- From a place in front of `s` with so many containers open the machine moves on, and opens no
container beyond the limit, or it ends, and rejects a container for its depth only there. -/
def Outcome.Bounded (limit : Nat) (s : List Char) (opened : Nat) : Outcome → Prop
  | go st => Advances s st.rest ∧ st.opened ≤ max opened limit
  | stop (.error (.tooDeep n)) => n = limit ∧ limit ≤ opened
  | stop _ => True

theorem Outcome.Bounded.of_suffix {o : Outcome} {opened : Nat} (h : t <:+ s)
    (ho : o.Bounded limit t opened) : o.Bounded limit s opened := by
  unfold Outcome.Bounded at ho ⊢
  split
  · exact ⟨.of_suffix h ho.1, ho.2⟩
  · exact ho
  · trivial

/-- Behind a character nothing is opened but what was open in front of it. -/
theorem bounded_go {c : Char} {opened : Nat} (h : skipBlank s = c :: st.rest)
    (hst : st.opened ≤ opened) : (Outcome.go st).Bounded limit s opened :=
  ⟨advances_of_skipBlank h, Nat.le_trans hst (Nat.le_max_left ..)⟩

theorem bounded_finish (purpose : Purpose) (text : List Char) (h : Advances s t) :
    (finish total within text t purpose).Bounded limit s (within.length + purpose.opened) := by
  cases purpose with
  | value => exact ⟨h, Nat.le_max_left ..⟩
  | key fields =>
    rw [finish]
    split
    · next hcolon => exact ⟨h.trans (advances_of_skipBlank hcolon), Nat.le_max_left ..⟩
    · trivial

theorem bounded_enter (total limit : Nat) (within : List Container) (s : List Char) :
    (enter total limit within s).Bounded limit s within.length := by
  have hblank := skipBlank_suffix s
  rw [enter]
  split
  · trivial
  · next hopen =>
    split
    · next hroom => exact ⟨advances_of_skipBlank hopen, Nat.le_trans hroom (Nat.le_max_right ..)⟩
    · next hroom => exact ⟨rfl, Nat.le_of_not_lt hroom⟩
  · next hopen =>
    split
    · next hroom => exact ⟨advances_of_skipBlank hopen, Nat.le_trans hroom (Nat.le_max_right ..)⟩
    · next hroom => exact ⟨rfl, Nat.le_of_not_lt hroom⟩
  · next c t _ _ hfirst =>
    rw [hfirst] at hblank
    split
    · exact bounded_go hfirst (Nat.le_refl _)
    · split
      · next hscalar =>
        exact ⟨.of_suffix hblank (advances_dropWhile (ne_nil_of_scalar hscalar)),
          Nat.le_max_left ..⟩
      · next e hscalar =>
        cases e with
        | tooDeep n => exact absurd hscalar (scalar_ne_tooDeep n)
        | _ => trivial

/-- **Each step moves on in the text or ends, and no container is opened beyond the limit.** -/
theorem bounded_step (total limit : Nat) (st : State) :
    (step total limit st).Bounded limit st.rest st.opened := by
  cases st with
  | value within s => exact bounded_enter total limit within s
  | behind within v s =>
    cases within with
    | nil =>
      rw [step]
      split <;> trivial
    | cons container within =>
      -- Behind a comma the container is open still, and behind its end one less is.
      cases container with
      | array items =>
        rw [step]
        split
        · next hcomma => exact bounded_go hcomma (Nat.le_refl _)
        · next hclose => exact bounded_go hclose (Nat.le_succ _)
        · trivial
      | object fields key =>
        rw [step]
        split
        · next hcomma => exact bounded_go hcomma (Nat.le_refl _)
        · next hclose => exact bounded_go hclose (Nat.le_succ _)
        · trivial
  | item items within s =>
    rw [step]
    split
    · next hclose => exact bounded_go hclose (Nat.le_succ _)
    · exact (bounded_enter total limit (.array items :: within) _).of_suffix (skipBlank_suffix s)
  | field fields within s =>
    rw [step]
    split
    · next hclose => exact bounded_go hclose (Nat.le_succ _)
    · trivial
    · next c t _ hfirst =>
      split
      · exact bounded_go hfirst (Nat.le_refl _)
      · dsimp only
        split
        · trivial
        · next hkey =>
          have hadvances := advances_dropWhile (mt List.isEmpty_iff.2 hkey)
          exact bounded_finish (.key fields) _
            (.of_suffix (hfirst ▸ skipBlank_suffix s) hadvances)
  | string purpose quote read within s =>
    rw [step]
    split
    · next hchar => exact ⟨advances_of_takeChar hchar, Nat.le_max_left ..⟩
    · next hchar => exact bounded_finish purpose read (advances_of_takeChar hchar)
    · trivial

theorem advances_of_step (h : step total limit st = .go st') : Advances st.rest st'.rest := by
  have hstep := bounded_step total limit st
  rw [h] at hstep
  exact hstep.1

theorem opened_of_step (hst : st.opened ≤ limit) (h : step total limit st = .go st') :
    st'.opened ≤ limit := by
  have hstep := bounded_step total limit st
  rw [h] at hstep
  exact Nat.le_trans hstep.2 (Nat.max_le.2 ⟨hst, Nat.le_refl limit⟩)

theorem tooDeep_of_step {n : Nat} (h : step total limit st = .stop (.error (.tooDeep n))) :
    n = limit ∧ limit ≤ st.opened := by
  have hstep := bounded_step total limit st
  rwa [h] at hstep

theorem Leads.rest_suffix (h : Leads total limit (.go st) (.go st')) : st'.rest <:+ st.rest :=
  h.preserves (P := fun st' => st'.rest <:+ st.rest)
    (fun _ _ hst hstep => (advances_of_step hstep).1.trans hst) (List.suffix_refl _)

theorem advances_of_leads_enter (h : Leads total limit (enter total limit within s) (.go st)) :
    Advances s st.rest := by
  have hbounded := bounded_enter total limit within s
  cases henter : enter total limit within s with
  | go st' =>
    rw [henter] at h hbounded
    exact hbounded.1.trans_suffix h.rest_suffix
  | stop r =>
    rw [henter] at h
    cases h

/-- Every step but the last one takes a character. -/
theorem run_of_leads {n : Nat} {r : Except SyntaxError Json}
    (h : Leads total limit (.go st) (.stop r)) (hn : st.rest.length < n) :
    run total limit n st = some r := by
  induction n generalizing st with
  | zero => omega
  | succ n ih =>
    cases h with
    | next h =>
      rw [run]
      cases hnext : step total limit st with
      | go st₂ =>
        rw [hnext] at h
        exact ih h (by have := (advances_of_step hnext).2; omega)
      | stop r₂ =>
        rw [hnext] at h
        cases h
        rfl

/-! ## Strings and keys -/

theorem takeString_eq (quote : Char) (s : List Char) : takeString total quote s =
    match takeChar total quote s with
    | .ok (some c, rest) => putFirst c (takeString total quote rest)
    | .ok (none, rest) => .ok ([], rest)
    | .error e => .error e := by
  fun_cases takeString total quote s <;> simp [takeChar, *]

def afterString (total : Nat) (within : List Container) (purpose : Purpose) (read : List Char) :
    Except StructureError (List Char × List Char) → Outcome
  | .ok (text, rest) => finish total within (read ++ text) rest purpose
  | .error e => fail e

def afterKey (fields : List (String × Json)) (within : List Container) :
    Except StructureError (String × List Char) → Outcome
  | .ok (key, rest) => .go (.value (.object fields key :: within) rest)
  | .error e => fail e

def afterValue (within : List Container) : Except SyntaxError (Json × List Char) → Outcome
  | .ok (v, rest) => .go (.behind within v rest)
  | .error e => .stop (.error e)

theorem leads_string (purpose : Purpose) (quote : Char) (read s : List Char) :
    Leads total limit (.go (.string purpose quote read within s))
      (afterString total within purpose read (takeString total quote s)) := by
  refine .next ?_
  rw [step, takeString_eq]
  cases hchar : takeChar total quote s with
  | error e => exact .refl _
  | ok r =>
    obtain ⟨_ | c, rest⟩ := r
    · dsimp only [afterString]
      rw [List.append_nil]
      exact .refl _
    · have hrest := leads_string purpose quote (read ++ [c]) rest
      dsimp only
      cases hread : takeString total quote rest with
      | error e =>
        rw [hread] at hrest
        exact hrest
      | ok r =>
        rw [hread, afterString, List.append_assoc] at hrest
        exact hrest
termination_by s.length
decreasing_by exact (advances_of_takeChar hchar).2

theorem leads_finish {fields : List (String × Json)} (text rest : List Char) :
    Leads total limit (finish total within text rest (.key fields))
      (afterKey fields within (match skipBlank rest with
        | ':' :: rest => .ok (.ofList text, rest)
        | rest => .error (.missingColon (position total rest)))) := by
  rw [finish]
  split <;> exact .refl _

theorem leads_key {fields : List (String × Json)} (hs : ∀ t, skipBlank s ≠ '\x7d' :: t) :
    Leads total limit (.go (.field fields within s))
      (afterKey fields within (takeKey total (skipBlank s))) := by
  refine .next ?_
  rw [step]
  cases hfirst : skipBlank s with
  | nil => exact .refl _
  | cons c t =>
    split
    · next hclose =>
      cases hclose
      exact absurd hfirst (hs _)
    · next hnil => cases hnil
    · next hcons =>
      cases hcons
      rw [takeKey]
      split
      · refine (leads_string ..).trans ?_
        cases takeString total c t with
        | error e => exact .refl _
        | ok r => exact leads_finish r.1 r.2
      · dsimp only
        split
        · exact .refl _
        · exact leads_finish _ _

/-! ## Items and fields -/

section

variable {value : ValueReader} {fuel : Nat} {items : List Json} {fields : List (String × Json)}
  {v : Json} {e : SyntaxError}

theorem takeItems_nil (hs : skipBlank s = ']' :: t) :
    takeItems total value (fuel + 1) s = .ok ([], t) := by
  rw [takeItems, hs]
  rfl

theorem takeItems_separator (hs : (skipBlank s).head? ≠ some ']')
    (hv : value (skipBlank s) = .ok (v, t)) (hcomma : ∀ u, skipBlank t ≠ ',' :: u)
    (hclose : ∀ u, skipBlank t ≠ ']' :: u) : takeItems total value (fuel + 1) s =
      .error (.invalidStructure (.missingSeparator ']' (position total (skipBlank t)))) := by
  rw [takeItems_open rfl hs, hv, ok_bind]
  dsimp only
  split
  · next h => exact absurd h (hcomma _)
  · next h => exact absurd h (hclose _)
  · rfl

theorem leads_items
    (hvalue : ∀ items s, Leads total limit (enter total limit (.array items :: within) s)
      (afterValue (.array items :: within) (value s))) (hfuel : s.length < fuel) :
    Leads total limit (.go (.item items within s))
      (afterValue within ((takeItems total value fuel s).map fun (vs, rest) =>
        (.arr (items ++ vs), rest))) := by
  -- Every item shortens the text, which the fuel exceeds.
  induction fuel generalizing items s with
  | zero => omega
  | succ fuel ih =>
    refine .next ?_
    rw [step]
    split
    · next hclose =>
      rw [takeItems_nil hclose, Except.map, afterValue, List.append_nil]
      exact .refl _
    · next hopen =>
      have hs : (skipBlank s).head? ≠ some ']' := fun h => by
        obtain ⟨t, ht⟩ := List.head?_eq_some_iff.1 h
        exact hopen t ht
      have hread := hvalue items (skipBlank s)
      refine hread.trans ?_
      cases hv : value (skipBlank s) with
      | error e =>
        rw [takeItems_error rfl hs hv]
        exact .refl _
      | ok r =>
        obtain ⟨v, t⟩ := r
        rw [hv] at hread
        refine .next ?_
        rw [step]
        split
        · next u hcomma =>
          have hadvances : Advances s u := .of_suffix (skipBlank_suffix s)
            ((advances_of_leads_enter hread).trans (advances_of_skipBlank hcomma))
          rw [takeItems_comma rfl hs hv hcomma]
          refine (ih (Nat.lt_of_lt_of_le hadvances.2 (Nat.le_of_lt_succ hfuel))).trans ?_
          cases takeItems total value fuel u with
          | error e => exact .refl _
          | ok r =>
            dsimp only [Except.map, afterValue]
            rw [List.append_assoc]
            exact .refl _
        · next hclose =>
          rw [takeItems_close rfl hs hv hclose]
          exact .refl _
        · next hcomma hclose =>
          rw [takeItems_separator hs hv hcomma hclose]
          exact .refl _

theorem takeFields_nil (hs : skipBlank s = '\x7d' :: t) :
    takeFields total value (fuel + 1) s = .ok ([], t) := by
  rw [takeFields, hs]
  rfl

theorem takeFields_key_error {e : StructureError} (hs : (skipBlank s).head? ≠ some '\x7d')
    (hk : takeKey total (skipBlank s) = .error e) :
    takeFields total value (fuel + 1) s = .error (.invalidStructure e) := by
  rw [takeFields_open rfl hs, hk]
  rfl

theorem takeFields_separator {k : String} (hs : (skipBlank s).head? ≠ some '\x7d')
    (hk : takeKey total (skipBlank s) = .ok (k, t)) (hv : value t = .ok (v, u))
    (hcomma : ∀ rest, skipBlank u ≠ ',' :: rest) (hclose : ∀ rest, skipBlank u ≠ '\x7d' :: rest) :
    takeFields total value (fuel + 1) s =
      .error (.invalidStructure (.missingSeparator '\x7d' (position total (skipBlank u)))) := by
  rw [takeFields_open rfl hs, hk]
  show value t >>= _ = _
  rw [hv, ok_bind]
  dsimp only
  split
  · next h => exact absurd h (hcomma _)
  · next h => exact absurd h (hclose _)
  · rfl

theorem leads_fields
    (hvalue : ∀ fields key s, Leads total limit (enter total limit (.object fields key :: within) s)
      (afterValue (.object fields key :: within) (value s))) (hfuel : s.length < fuel) :
    Leads total limit (.go (.field fields within s))
      (afterValue within ((takeFields total value fuel s).map fun (fs, rest) =>
        (.obj (Table.insertAll fields fs), rest))) := by
  induction fuel generalizing fields s with
  | zero => omega
  | succ fuel ih =>
    by_cases hs : (skipBlank s).head? = some '\x7d'
    · obtain ⟨t, hclose⟩ := List.head?_eq_some_iff.1 hs
      refine .next ?_
      rw [step, hclose, takeFields_nil hclose]
      exact .refl _
    · have hkey : Leads total limit (.go (.field fields within s))
          (afterKey fields within (takeKey total (skipBlank s))) :=
        leads_key fun t ht => hs (congrArg List.head? ht)
      refine hkey.trans ?_
      cases hk : takeKey total (skipBlank s) with
      | error e =>
        rw [takeFields_key_error hs hk]
        exact .refl _
      | ok r =>
        obtain ⟨key, t⟩ := r
        rw [hk] at hkey
        have hread := hvalue fields key t
        refine .next (hread.trans ?_)
        cases hv : value t with
        | error e =>
          rw [takeFields_error rfl hs hk hv]
          exact .refl _
        | ok r =>
          obtain ⟨v, u⟩ := r
          rw [hv] at hread
          refine .next ?_
          rw [step]
          split
          · next rest hcomma =>
            have hadvances : Advances s rest := .of_suffix hkey.rest_suffix
              ((advances_of_leads_enter hread).trans (advances_of_skipBlank hcomma))
            rw [takeFields_comma rfl hs hk hv hcomma]
            refine (ih (Nat.lt_of_lt_of_le hadvances.2 (Nat.le_of_lt_succ hfuel))).trans ?_
            cases takeFields total value fuel rest <;> exact .refl _
          · next hclose =>
            rw [takeFields_close rfl hs hk hv hclose]
            exact .refl _
          · next hcomma hclose =>
            rw [takeFields_separator hs hk hv hcomma hclose]
            exact .refl _

end

/-! ## Values -/

theorem takeValue_plain {room : Nat} {c : Char} (hs : skipBlank s = c :: t) (hbrace : c ≠ '\x7b')
    (hbracket : c ≠ '[') : takeValue total limit room s =
      if isQuote c then
        (structural (takeString total c t)).map fun (text, rest) => (.str (.ofList text), rest)
      else
        (scalar ((c :: t).takeWhile inScalar)).map fun v => (v, (c :: t).dropWhile inScalar) := by
  rw [takeValue, hs]
  split
  · next h => cases h
  · next h => exact absurd (List.cons.inj h).1 hbrace
  · next h => exact absurd (List.cons.inj h).1 hbracket
  · next h =>
    cases h
    rfl

/-- **The reader of a value answers what the machine has behind it.** -/
theorem leads_value {within : List Container} {room : Nat} (hroom : within.length + room = limit)
    (s : List Char) : Leads total limit (enter total limit within s)
      (afterValue within (takeValue total limit room s)) := by
  rw [enter]
  split
  · next hs =>
    rw [takeValue, hs]
    exact .refl _
  · next t hs =>
    cases room with
    | zero =>
      rw [if_neg (by omega), takeValue, hs]
      exact .refl _
    | succ room =>
      rw [if_pos (by omega), takeValue, hs]
      refine leads_fields (fun fields key s => leads_value ?_ s) (Nat.lt_succ_self _)
      rw [List.length_cons]
      omega
  · next t hs =>
    cases room with
    | zero =>
      rw [if_neg (by omega), takeValue, hs]
      exact .refl _
    | succ room =>
      rw [if_pos (by omega), takeValue, hs]
      refine leads_items (fun items s => leads_value ?_ s) (Nat.lt_succ_self _)
      rw [List.length_cons]
      omega
  · next c t hbrace hbracket hs =>
    rw [takeValue_plain hs hbrace hbracket]
    split
    · refine (leads_string ..).trans ?_
      cases takeString total c t <;> exact .refl _
    · cases scalar ((c :: t).takeWhile inScalar) <;> exact .refl _
termination_by room

/-- **The machine ends with what the reader answers.** -/
theorem leads_parse (limit : Nat) (s : List Char) :
    Leads (byteLength s) limit (.go (.value [] s)) (.stop (parse limit s)) := by
  refine .next ((leads_value (Nat.zero_add limit) s).trans ?_)
  rw [parse]
  cases takeValue (byteLength s) limit limit s with
  | error e => exact .refl _
  | ok r =>
    obtain ⟨v, t⟩ := r
    refine .next ?_
    rw [step, ok_bind]
    dsimp only
    cases skipBlank t <;> exact .refl _

end Relaxed

open Relaxed

/-- **Nesting is bounded on every text.** The machine answers what the reader of the relaxed
notation does, within one step more than there are characters. Wherever it gets, no more containers
are open than the limit, its next step moves on in the text or ends, and what it rejects for its
depth is the first container beyond the limit. A literal is nested no deeper than the options allow,
whichever reader it comes from. -/
theorem nesting_bounded (limit : Nat) (s : List Char) :
    run (byteLength s) limit (s.length + 1) (.value [] s) = some (Relaxed.parse limit s) ∧
      (∀ st, Leads (byteLength s) limit (.go (.value [] s)) (.go st) →
        st.opened ≤ limit ∧
          (∀ st', step (byteLength s) limit st = .go st' → Advances st.rest st'.rest) ∧
          ∀ n, step (byteLength s) limit st = .stop (.error (.tooDeep n)) →
            n = limit ∧ st.opened = limit) ∧
      ∀ options source v, parse options source = .ok (.value v) → v.depth ≤ options.maxDepth := by
  refine ⟨run_of_leads (leads_parse limit s) (Nat.lt_succ_self _), fun st h => ?_,
    fun options source v h => (readable_of_parse h).regular.2⟩
  have hopened : st.opened ≤ limit :=
    h.preserves (fun _ _ => opened_of_step) (Nat.zero_le limit)
  refine ⟨hopened, fun st' => advances_of_step, fun n hstop => ?_⟩
  obtain ⟨hn, hfull⟩ := tooDeep_of_step hstop
  exact ⟨hn, Nat.le_antisymm hopened hfull⟩

/-- Both values of a field that is written twice are read, so that the literal is less deep than its
text. -/
theorem nesting_bounded_repeated :
    let s := "\x7ba:[],a:true\x7d".toList
    let first : State := .field [] [] "a:[],a:true\x7d".toList
    let st : State := .value [.object [] "a"] "[],a:true\x7d".toList
    let v : Json := .obj [("a", .bool true)]
    run (byteLength s) 1 (s.length + 1) (.value [] s) = some (.error (.tooDeep 1)) ∧
      (step (byteLength s) 1 (.value [] s) = .go first ∧ Advances s first.rest) ∧
      (Leads (byteLength s) 1 (.go (.value [] s)) (.go st) ∧
        step (byteLength s) 1 st = .stop (.error (.tooDeep 1)) ∧ st.opened = 1) ∧
      parse ⟨2, false⟩ "\x7ba:[],a:true\x7d" = .ok (.value v) ∧ v.depth = 1 ∧ v.depth ≤ 2 := by
  intro s first st v
  obtain ⟨hrun, hreached, hparsed⟩ := nesting_bounded 1 s
  have hfirst : step (byteLength s) 1 (.value [] s) = .go first := by rfl
  have hst : step (byteLength s) 1 first = .go st := by rfl
  have hleads : Leads (byteLength s) 1 (.go (.value [] s)) (.go st) :=
    .next (hfirst ▸ .next (hst ▸ .refl _))
  have hstop : step (byteLength s) 1 st = .stop (.error (.tooDeep 1)) := by rfl
  have hvalue : parse ⟨2, false⟩ "\x7ba:[],a:true\x7d" = .ok (.value v) := by rfl
  exact ⟨hrun.trans (by rfl), ⟨hfirst, (hreached _ (.refl _)).2.1 _ hfirst⟩,
    ⟨hleads, hstop, ((hreached _ hleads).2.2 1 hstop).2⟩, hvalue, rfl, hparsed _ _ _ hvalue⟩

end Literal

end StatVars
