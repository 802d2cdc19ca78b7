import StatVars.Proofs.SelfContained
import StatVars.Proofs.Slices

/-!
# Arguments as slices

The arguments of a list can be cut out of it by a loop over its bytes, which keeps the place where
the current argument begins and takes a slice at each comma. A backslash in a string passes over two
bytes, so that the loop may go on within a character or behind the end. It meets a comma between
characters all the same, so that each slice exists, and the slices are the arguments. Main
statement: `Statement.splitSlices?_eq`.
-/

namespace StatVars

namespace Statement

/-! ## The loop -/

/-- Where the reading of an argument list stands: the quote around the place, the number of brackets
around it, the place where the argument begins and the arguments in front of it. -/
structure Cutting where
  quote : Option Char := none
  depth : Int := 0
  last : Nat := 0
  args : List String := []

/-- The argument that a slice holds. -/
def ofSlice (part : List Char) : String :=
  .ofList (Text.trim part)

/-- Looks at the byte at a place. -/
def cutStep? (src : List Char) (place : Nat) (st : Cutting) (c : Char) : Option (Nat × Cutting) :=
  match st.quote with
  | some q =>
    if c = '\\' then some (place + 2, st)
    else some (place + 1, { st with quote := if c = q then none else some q })
  | none =>
    if Text.isQuote c then some (place + 1, { st with quote := some c })
    else if c = ',' ∧ st.depth = 0 then
      (Text.slice? st.last place src).map fun part =>
        (place + 1, { st with last := place + 1, args := st.args ++ [ofSlice part] })
    else some (place + 1, { st with depth := st.depth + nesting c })

def cutLoop (src : List Char) : ByteLoop Cutting where
  step? := cutStep? src
  lt_of_step? := by
    intro place st c place' st' h
    unfold cutStep? at h
    split at h
    · split at h <;> (cases h; omega)
    · split at h
      · cases h; omega
      split at h
      · obtain ⟨part, -, hnext⟩ := Option.map_eq_some_iff.1 h
        cases hnext
        omega
      · cases h; omega

/-- The arguments when the last one is cut out as well. -/
def cutLast? (src : List Char) (st : Cutting) : Option (List String) :=
  (Text.sliceFrom? (min st.last (Text.byteLength src)) src).map fun part =>
    st.args ++ [ofSlice part]

/-- The arguments of a list, unless one of the slices does not exist. -/
def splitSlices? (src : List Char) : Option (List String) :=
  if src.all Text.isBlank then some []
  else ((cutLoop src).run? (Text.bytes src) 0 {}).bind (cutLast? src)

/-! ## Its slices -/

variable {src u a s : List Char} {c e : Char} {st : Cutting}

theorem nesting_eq_zero (he : e.utf8Size ≠ 1) : nesting e = 0 := by
  have hne {a : Char} (ha : a.utf8Size = 1) : e ≠ a := Text.ne_of_utf8Size_ne_one he ha
  have hopen : e ≠ '(' ∧ e ≠ '\x7b' ∧ e ≠ '[' := ⟨hne rfl, hne rfl, hne rfl⟩
  have hclose : e ≠ ')' ∧ e ≠ '\x7d' ∧ e ≠ ']' := ⟨hne rfl, hne rfl, hne rfl⟩
  simp [nesting, hopen, hclose]

theorem nesting_shown (h : Text.Shows c e) : nesting e = nesting c := by
  obtain ⟨-, rfl⟩ | ⟨hc, he⟩ := h
  · rfl
  · rw [nesting_eq_zero he, nesting_eq_zero hc]

/-- Bytes that no ASCII character has are passed over. -/
theorem cutStep?_idle (hquote : ∀ q, st.quote = some q → Text.isQuote q) (he : e.utf8Size ≠ 1)
    (place : Nat) : cutStep? src place st e = some (place + 1, st) := by
  have hne {a : Char} (ha : a.utf8Size = 1) : e ≠ a := Text.ne_of_utf8Size_ne_one he ha
  have hslash : e ≠ '\\' := hne rfl
  have hcomma : e ≠ ',' := hne rfl
  unfold cutStep?
  split
  · next q hq =>
    have heq : e ≠ q := hne (Text.utf8Size_of_isQuote (hquote q hq))
    rw [if_neg hslash, if_neg heq, ← hq]
  · have hmark : Text.isQuote e = false := Bool.eq_false_iff.2 (mt Text.utf8Size_of_isQuote he)
    rw [hmark, if_neg Bool.false_ne_true, if_neg (fun h => hcomma h.1), nesting_eq_zero he,
      Int.add_zero]

/-- What is cut out of the list from a place on, where `a` is the argument up to there. -/
def CutsFrom (src : List Char) (place : Nat) (st : Cutting) (a rest : List Char) : Prop :=
  ((cutLoop src).run? (Text.bytes src) place st).bind (cutLast? src) =
    some (st.args ++ (a.foldr putFirst (splitCommas st.quote st.depth rest)).map ofSlice)

theorem CutsFrom.of_run {place place' : Nat} {st' : Cutting} {a' s' : List Char}
    (h : CutsFrom src place' st' a' s')
    (hrun : (cutLoop src).run? (Text.bytes src) place st =
      (cutLoop src).run? (Text.bytes src) place' st')
    (hargs : st'.args ++ (a'.foldr putFirst (splitCommas st'.quote st'.depth s')).map ofSlice =
      st.args ++ (a.foldr putFirst (splitCommas st.quote st.depth s)).map ofSlice) :
    CutsFrom src place st a s := by
  rw [CutsFrom, hrun, h, hargs]

theorem cutsFrom_end (hsrc : src = u ++ a) (hlast : st.last = Text.byteLength u) {place : Nat}
    (hplace : Text.byteLength src ≤ place) : CutsFrom src place st a [] := by
  have hle : st.last ≤ Text.byteLength src := by
    rw [hlast, hsrc, Text.byteLength_append]
    exact Nat.le_add_right ..
  rw [CutsFrom, ByteLoop.run?_end _ (by rwa [Text.length_bytes]), Option.bind_some, cutLast?,
    Nat.min_eq_left hle, Text.sliceFrom?_eq_some_iff.2 ⟨u, hsrc, hlast.symm⟩, splitCommas,
    foldr_putFirst, List.append_nil]
  rfl

/-! ## What the loop does with a character -/

section

variable {w : List Char} {q : Char}

/-- The loop sees a character and goes on at the next one. -/
theorem run?_cut {st' : Cutting} (hsrc : src = w ++ c :: s)
    (hquote : ∀ q, st'.quote = some q → Text.isQuote q) (hstep : ∀ e, Text.Shows c e →
      cutStep? src (Text.byteLength w) st e = some (Text.byteLength w + 1, st')) :
    (cutLoop src).run? (Text.bytes src) (Text.byteLength w) st =
      (cutLoop src).run? (Text.bytes src) (Text.byteLength (w ++ [c])) st' := by
  have hrun := (cutLoop src).run?_char w s hstep (fun i e _ _ he => cutStep?_idle hquote he i)
    (Nat.add_le_add_left c.utf8Size_pos (Text.byteLength w))
  rwa [← hsrc, show Text.byteLength w + c.utf8Size = Text.byteLength (w ++ [c]) by simp] at hrun

/-- A backslash in a string leads the loop into the next character or behind it. -/
theorem run?_escape (hsrc : src = w ++ '\\' :: s) (hq : st.quote = some q) :
    (cutLoop src).run? (Text.bytes src) (Text.byteLength w) st =
      (cutLoop src).run? (Text.bytes src) (Text.byteLength (w ++ ['\\']) + 1) st := by
  obtain ⟨b, hb, hshows⟩ := Text.exists_byte (c := '\\') w s Nat.one_pos
  have hslash : Char.ofUInt8 b = '\\' := (hshows.eq_iff rfl).2 rfl
  rw [← hsrc, Nat.add_zero] at hb
  have hstep : cutStep? src (Text.byteLength w) st (.ofUInt8 b) =
      some (Text.byteLength (w ++ ['\\']) + 1, st) := by
    rw [cutStep?, hq]
    dsimp only
    rw [if_pos hslash, Text.byteLength_append]
    rfl
  exact (cutLoop src).run?_step hb hstep

theorem cutsFrom_escape {d : Char} (hsrc : src = w ++ '\\' :: d :: s)
    (hquote : ∀ q, st.quote = some q → Text.isQuote q) (hq : st.quote = some q)
    (h : CutsFrom src (Text.byteLength (w ++ ['\\'] ++ [d])) st (a ++ ['\\'] ++ [d]) s) :
    CutsFrom src (Text.byteLength w) st a ('\\' :: d :: s) := by
  have hinside := (cutLoop src).run?_inside (w ++ ['\\']) s
    (fun i e _ _ he => cutStep?_idle hquote he i) (Nat.lt_succ_self _)
    (Nat.add_le_add_left d.utf8Size_pos _)
  have hplace : Text.byteLength (w ++ ['\\']) + d.utf8Size =
      Text.byteLength (w ++ ['\\'] ++ [d]) := by simp [Nat.add_assoc]
  have hsrc' : (w ++ ['\\']) ++ d :: s = src := by simp [hsrc]
  rw [hsrc', hplace] at hinside
  refine h.of_run ((run?_escape hsrc hq).trans hinside) ?_
  simp [hq, splitCommas_escaped]

theorem cutsFrom_quoted (hsrc : src = w ++ c :: s)
    (hquote : ∀ q, st.quote = some q → Text.isQuote q) (hq : st.quote = some q) (hc : c ≠ '\\')
    (h : CutsFrom src (Text.byteLength (w ++ [c]))
      { st with quote := if c = q then none else some q } (a ++ [c]) s) :
    CutsFrom src (Text.byteLength w) st a (c :: s) := by
  have hsize := Text.utf8Size_of_isQuote (hquote q hq)
  refine h.of_run (run?_cut hsrc (fun p hp => ?_) fun e he => ?_) ?_
  · obtain ⟨-, hp⟩ := Option.ite_none_left_eq_some.1 hp
    exact hquote p (hq.trans hp)
  · simp only [cutStep?, hq, he.eq_iff hsize, he.eq_iff (a := '\\') rfl, if_neg hc]
  · simp [hq, splitCommas_quoted hc]

theorem cutsFrom_quote (hsrc : src = w ++ c :: s) (hq : st.quote = none) (hc : Text.isQuote c)
    (h : CutsFrom src (Text.byteLength (w ++ [c])) { st with quote := some c } (a ++ [c]) s) :
    CutsFrom src (Text.byteLength w) st a (c :: s) := by
  refine h.of_run (run?_cut hsrc (fun p hp => ?_) fun e he => ?_) ?_
  · cases hp
    exact hc
  · obtain rfl := (he.eq_iff (Text.utf8Size_of_isQuote hc)).2 rfl
    simp only [cutStep?, hq, if_pos hc]
  · simp [hq, splitCommas_quote hc]

/-- At a comma the argument in front of it is a slice. -/
theorem cutsFrom_comma (hsrc : src = w ++ ',' :: s) (hw : w = u ++ a)
    (hlast : st.last = Text.byteLength u) (hq : st.quote = none) (hdepth : st.depth = 0)
    (h : CutsFrom src (Text.byteLength (w ++ [',']))
      { st with last := Text.byteLength w + 1, args := st.args ++ [ofSlice a] } [] s) :
    CutsFrom src (Text.byteLength w) st a (',' :: s) := by
  have hslice : Text.slice? st.last (Text.byteLength w) src = some a := by
    refine Text.slice?_eq_some_iff.2 ⟨u, ',' :: s, ?_, hlast.symm, ?_⟩
    · rw [hsrc, hw, List.append_assoc]
    · rw [hw, hlast, Text.byteLength_append]
  refine h.of_run (run?_cut hsrc (fun p hp => ?_) fun e he => ?_) ?_
  · cases hq.symm.trans hp
  · obtain rfl := (he.eq_iff rfl).2 rfl
    simp [cutStep?, hq, hdepth, hslice, Text.isQuote]
  · simp [hq, hdepth, splitCommas_comma, foldr_putFirst]

theorem cutsFrom_plain (hsrc : src = w ++ c :: s) (hq : st.quote = none)
    (hc : Text.isQuote c = false) (hcomma : ¬ (c = ',' ∧ st.depth = 0))
    (h : CutsFrom src (Text.byteLength (w ++ [c])) { st with depth := st.depth + nesting c }
      (a ++ [c]) s) :
    CutsFrom src (Text.byteLength w) st a (c :: s) := by
  refine h.of_run (run?_cut hsrc (fun p hp => ?_) fun e he => ?_) ?_
  · cases hq.symm.trans hp
  · have hmark : ¬ Text.isQuote e := by
      rw [he.congr fun _ => Text.utf8Size_of_isQuote, hc]
      exact Bool.false_ne_true
    have hcomma' : ¬ (e = ',' ∧ st.depth = 0) := by rwa [he.eq_iff rfl]
    rw [cutStep?, hq]
    dsimp only
    rw [if_neg hmark, if_neg hcomma', nesting_shown he]
  · have hdepth (h : c = ',') : st.depth ≠ 0 := fun h' => hcomma ⟨h, h'⟩
    simp [hq, splitCommas_plain hc hdepth]

end

/-- **The arguments from a place on are cut out as they are split.** The text in front of the place
ends with the current argument up to there. -/
theorem cutsFrom (w : List Char) (hsrc : src = w ++ s) (hw : w = u ++ a)
    (hlast : st.last = Text.byteLength u) (hquote : ∀ q, st.quote = some q → Text.isQuote q) :
    CutsFrom src (Text.byteLength w) st a s := by
  -- the backslash takes two characters at once, so the induction is on the length
  induction hn : s.length using Nat.strongRecOn generalizing s w u a st with
  | ind n ih =>
    cases s with
    | nil =>
      rw [List.append_nil] at hsrc
      exact cutsFrom_end (hsrc.trans hw) hlast (by rw [hsrc])
    | cons c s =>
      have hlt : s.length < n := by rw [← hn]; exact Nat.lt_succ_self _
      have hnext : src = (w ++ [c]) ++ s := by simp [hsrc]
      have hw' : w ++ [c] = u ++ (a ++ [c]) := by simp [hw]
      cases hq : st.quote with
      | some q =>
        by_cases hc : c = '\\'
        · subst hc
          cases s with
          | nil =>
            rw [List.append_nil] at hnext
            refine (cutsFrom_end (hnext.trans hw') hlast ?_).of_run (run?_escape hsrc hq) ?_
            · rw [hnext]
              exact Nat.le_succ _
            · simp [hq, splitCommas, putFirst]
          | cons d s =>
            exact cutsFrom_escape hsrc hquote hq (ih _ (Nat.lt_of_succ_lt hlt) _ (by simp [hnext])
              (by simp [hw]) hlast hquote rfl)
        · refine cutsFrom_quoted hsrc hquote hq hc (ih _ hlt _ hnext hw' hlast (fun p hp => ?_) rfl)
          obtain ⟨-, hp⟩ := Option.ite_none_left_eq_some.1 hp
          exact hquote p (hq.trans hp)
      | none =>
        cases hc : Text.isQuote c with
        | true =>
          refine cutsFrom_quote hsrc hq hc (ih _ hlt _ hnext hw' hlast (fun p hp => ?_) rfl)
          cases hp
          exact hc
        | false =>
          by_cases hcomma : c = ',' ∧ st.depth = 0
          · obtain ⟨rfl, hdepth⟩ := hcomma
            have hlast' : Text.byteLength w + 1 = Text.byteLength (w ++ [',']) := by
              rw [Text.byteLength_append]
              rfl
            exact cutsFrom_comma hsrc hw hlast hq hdepth
              (ih _ hlt _ hnext (List.append_nil _).symm hlast' hquote rfl)
          · exact cutsFrom_plain hsrc hq hc hcomma (ih _ hlt _ hnext hw' hlast hquote rfl)

/-- **All slices exist, and they are the arguments.** -/
theorem splitSlices?_eq (src : List Char) : splitSlices? src = some (splitArguments src) := by
  have hcut : CutsFrom src 0 {} [] src :=
    cutsFrom (u := []) [] rfl rfl rfl fun q hq => absurd hq.symm (Option.some_ne_none q)
  by_cases hblank : src.all Text.isBlank
  · rw [splitSlices?, splitArguments, if_pos hblank, if_pos hblank]
  · rw [splitSlices?, splitArguments, if_neg hblank, if_neg hblank]
    exact hcut

end Statement

end StatVars
