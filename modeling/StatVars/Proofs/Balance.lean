import Mathlib.Data.List.Induction
import StatVars.Proofs.Pass

/-!
# The brackets of arguments

Arguments are read from their parenthesis on: strings are passed over, and brackets of each kind are
counted. `EndsCall` says that a character is the first one to bring the counts back to those before
the parenthesis. It is a parenthesis behind balanced arguments, unless a parenthesis has come while
a brace or a bracket was open: `EndsCall.paren_and_balanced_iff`.
-/

namespace StatVars

/-! ## Counts within a statement -/

namespace Depth

variable {d e base : Depth} {c : Char}

/-- The counts are those of a place within a statement, where `base` are those before it. -/
structure Within (d base : Depth) : Prop where
  notBelow : d.isBelow base = false
  ne : d ≠ base

theorem eq_of_notBelow (h : d.isBelow e = false) (h' : e.isBelow d = false) : d = e := by
  obtain ⟨paren, brace, bracket⟩ := d
  obtain ⟨paren', brace', bracket'⟩ := e
  simp only [not_isBelow_iff] at h h'
  simp only [mk.injEq]
  omega

theorem Within.of_notBelow (h : e.Within base) (hd : d.isBelow e = false) : d.Within base := by
  refine ⟨?_, ?_⟩
  · have hbelow := h.notBelow
    rw [not_isBelow_iff] at hbelow hd ⊢
    omega
  · rintro rfl
    exact h.ne (eq_of_notBelow h.notBelow hd)

theorem past_of_opens (hclose : isClosing c = false) (d : Depth) :
    (d.past c).isBelow d = false := by
  simp only [isClosing, Bool.or_eq_false_iff] at hclose
  obtain ⟨⟨hparen, hbrace⟩, hbracket⟩ := hclose
  obtain ⟨paren, brace, bracket⟩ := d
  rw [not_isBelow_iff]
  simp only [past, hparen, hbrace, hbracket, if_neg Bool.false_ne_true]
  repeat' split
  all_goals dsimp only
  all_goals omega

theorem eq_paren_of_past_lt (h : (d.past c).paren < d.paren) : c = ')' := by
  by_contra hc
  have hle : d.paren ≤ (d.past c).paren := by
    unfold past
    split
    · exact Int.le_add_one (Int.le_refl _)
    · repeat' split
      all_goals simp_all
  omega

theorem Within.past (h : d.Within base) (hclose : isClosing c = false) : (d.past c).Within base :=
  h.of_notBelow (past_of_opens hclose d)

/-- The counts behind the bracket that ends a statement, since the parenthesis that opened it. -/
def ended : Depth :=
  ⟨-1, 0, 0⟩

theorem isQuote_of_isClosing (hclose : isClosing c) : Text.isQuote c = false := by
  simp only [isClosing, Bool.or_eq_true, beq_iff_eq] at hclose
  obtain (rfl | rfl) | rfl := hclose
  all_goals rfl

/-- Brackets that stand in balance can be ended by a parenthesis only. -/
theorem of_past_eq_ended (hclose : isClosing c) (hd : d.isBelow {} = false)
    (h : d.past c = ended) : c = ')' ∧ d = {} := by
  obtain ⟨paren, brace, bracket⟩ := d
  rw [not_isBelow_iff] at hd
  simp only [isClosing, Bool.or_eq_true, beq_iff_eq] at hclose
  obtain (rfl | rfl) | rfl := hclose
  all_goals simp [past, ended] at h hd ⊢
  all_goals omega

/-- The counts since the parenthesis behind `base`. -/
def inside (d base : Depth) : Depth :=
  ⟨d.paren - base.paren - 1, d.brace - base.brace, d.bracket - base.bracket⟩

theorem inside_opened (base : Depth) :
    ({ base with paren := base.paren + 1 } : Depth).inside base = {} := by
  simp only [inside, mk.injEq]
  omega

theorem inside_past (d base : Depth) (c : Char) :
    (d.past c).inside base = (d.inside base).past c := by
  unfold past inside
  repeat' split
  all_goals simp only [mk.injEq, true_and, and_true]
  all_goals omega

theorem inside_eq_ended : d.inside base = ended ↔ d = base := by
  obtain ⟨paren, brace, bracket⟩ := d
  obtain ⟨paren', brace', bracket'⟩ := base
  simp only [inside, ended, mk.injEq]
  omega

theorem within_inside : (d.inside base).Within ended ↔ d.Within base := by
  have hbelow : (d.inside base).isBelow ended = false ↔ d.isBelow base = false := by
    simp only [not_isBelow_iff, inside, ended]
    omega
  constructor
  · intro h
    exact ⟨hbelow.1 h.notBelow, mt inside_eq_ended.2 h.ne⟩
  · intro h
    exact ⟨hbelow.2 h.notBelow, mt inside_eq_ended.1 h.ne⟩

end Depth

/-! ## Reading arguments -/

/-- Where a reader of arguments stands: the quote around the next character, whether a backslash
inside a string stands before it, and the counts of brackets since the arguments start. -/
structure Reading where
  quote : Option Char := none
  escaped : Bool := false
  depth : Depth := {}
deriving DecidableEq

namespace Reading

def next (r : Reading) (c : Char) : Reading :=
  match r.quote with
  | none =>
    if Text.isQuote c then { r with quote := some c } else { r with depth := r.depth.past c }
  | some q =>
    if r.escaped then { r with escaped := false }
    else if c = '\\' then { r with escaped := true }
    else { r with quote := if c = q then none else some q }

/-- Where a reader stands behind a part of the arguments. -/
def behind (args : List Char) : Reading :=
  args.foldl next {}

theorem behind_concat (a : List Char) (c : Char) : behind (a ++ [c]) = (behind a).next c := by
  simp [behind]

variable {c q : Char} {d : Depth} {r : Reading}

theorem next_quote (hc : Text.isQuote c) :
    (⟨none, false, d⟩ : Reading).next c = ⟨some c, false, d⟩ :=
  if_pos hc

theorem next_plain (hc : Text.isQuote c = false) :
    (⟨none, false, d⟩ : Reading).next c = ⟨none, false, d.past c⟩ :=
  if_neg (by simp [hc])

theorem next_quoted (hc : c ≠ '\\') :
    (⟨some q, false, d⟩ : Reading).next c = ⟨if c = q then none else some q, false, d⟩ :=
  if_neg hc

theorem depth_next (hquote : r.quote = none) (hc : Text.isQuote c = false) :
    (r.next c).depth = r.depth.past c := by
  rw [next, hquote]
  simp [hc]

/-- A backslash counts inside of strings only. -/
theorem unescaped_behind {a : List Char} (h : (behind a).quote = none) :
    (behind a).escaped = false := by
  induction a using List.reverseRecOn with
  | nil => rfl
  | append_singleton a c ih =>
    rw [behind_concat] at h ⊢
    unfold next at h ⊢
    split at h
    · next hquote =>
      split
      · exact ih hquote
      · exact ih hquote
    · next hquote =>
      rw [hquote]
      cases hescaped : (behind a).escaped
      all_goals simp_all
      split at h
      all_goals simp_all

/-- Only a closing parenthesis outside of strings lowers the count of parentheses. -/
theorem closing_of_paren_lt (h : (r.next c).depth.paren < r.depth.paren) :
    r.quote = none ∧ c = ')' ∧ (r.next c).depth = r.depth.past c := by
  obtain ⟨quote, escaped, d⟩ := r
  cases quote with
  | some q =>
    have hdepth : (Reading.next ⟨some q, escaped, d⟩ c).depth = d := by
      simp only [next]
      repeat' split
      all_goals rfl
    rw [hdepth] at h
    exact absurd h (Int.lt_irrefl _)
  | none =>
    cases hc : Text.isQuote c with
    | true =>
      rw [next, if_pos hc] at h
      exact absurd h (Int.lt_irrefl _)
    | false =>
      have hnext : Reading.next ⟨none, escaped, d⟩ c = ⟨none, escaped, d.past c⟩ :=
        if_neg (ne_true_of_eq_false hc)
      rw [hnext] at h ⊢
      exact ⟨rfl, Depth.eq_paren_of_past_lt h, rfl⟩

end Reading

/-- The arguments close the brackets and the strings that they open, and no others. -/
structure Balanced (args : List Char) : Prop where
  sane : ∀ a, a <+: args → (Reading.behind a).depth.isBelow {} = false
  settled : Reading.behind args = {}

/-- The parenthesis of the statement comes while a brace or a bracket is open. -/
def ClosedEarly (args : List Char) : Prop :=
  ∃ a rest, args = a ++ ')' :: rest ∧ (Reading.behind a).quote = none ∧
    (Reading.behind a).depth.paren = 0 ∧ (Reading.behind a).depth ≠ {}

/-- The counts behind any part of the text are those of a place within the statement. -/
def KeepsOpen (a : List Char) : Prop :=
  ∀ b, b <+: a → (Reading.behind b).depth.Within .ended

/-- The character is the first one that brings the counts back to those before the statement. -/
structure EndsCall (args : List Char) (c : Char) : Prop where
  closing : Depth.isClosing c
  opened : KeepsOpen args
  unquoted : (Reading.behind args).quote = none
  ended : (Reading.behind args).depth.past c = .ended

theorem keepsOpen_nil : KeepsOpen [] := by
  intro b hb
  rw [List.prefix_nil.1 hb]
  exact ⟨rfl, by decide⟩

theorem KeepsOpen.concat {a : List Char} {c : Char} (h : KeepsOpen a)
    (hc : (Reading.behind (a ++ [c])).depth.Within .ended) : KeepsOpen (a ++ [c]) := by
  intro b hb
  obtain rfl | hb := List.prefix_concat_iff.1 hb
  · exact hc
  · exact h b hb

/-! ## The bracket that ends a statement -/

namespace EndsCall

variable {a args : List Char} {c : Char}

/-- Unless the parenthesis comes early, the counts stay at zero or above. -/
theorem sane (h : EndsCall args c) (hearly : ¬ ClosedEarly args) (ha : a <+: args) :
    (Reading.behind a).depth.isBelow {} = false := by
  induction a using List.reverseRecOn with
  | nil => rfl
  | append_singleton a e ih =>
    have hshorter : a <+: args := (List.prefix_append a [e]).trans ha
    have hsane := ih hshorter
    have hwithin := h.opened _ ha
    rw [Reading.behind_concat] at hwithin ⊢
    obtain ⟨hparen, hbrace, hbracket⟩ := Depth.not_isBelow_iff.1 hwithin.notBelow
    rw [Depth.not_isBelow_iff]
    refine ⟨?_, hbrace, hbracket⟩
    by_contra hlt
    have hpos := (Depth.not_isBelow_iff.1 hsane).1
    obtain ⟨hquote, rfl, hdepth⟩ :=
      Reading.closing_of_paren_lt (Int.lt_of_lt_of_le (Int.not_le.1 hlt) hpos)
    rw [hdepth] at hwithin hlt hparen
    have hne : (Reading.behind a).depth ≠ {} := by
      intro h
      rw [h] at hwithin
      exact hwithin.ne rfl
    have hzero : (Reading.behind a).depth.paren = 0 := by
      simp [Depth.past, Depth.ended] at *
      omega
    obtain ⟨rest, rfl⟩ := ha
    exact hearly ⟨a, rest, by simp, hquote, hzero, hne⟩

/-- **A statement ends at its own parenthesis, behind balanced arguments, unless the parenthesis
comes early.** -/
theorem paren_and_balanced_iff (h : EndsCall args c) :
    c = ')' ∧ Balanced args ↔ ¬ ClosedEarly args := by
  constructor
  · rintro ⟨-, hbalanced⟩ ⟨a, rest, rfl, hquote, hparen, -⟩
    have hsane := hbalanced.sane (a ++ [')']) ⟨rest, by simp⟩
    rw [Reading.behind_concat, Reading.depth_next hquote rfl, Depth.not_isBelow_iff] at hsane
    simp [Depth.past, hparen] at hsane
  · intro hearly
    have hsane (a : List Char) (ha : a <+: args) := h.sane hearly ha
    obtain ⟨hc, hdepth⟩ :=
      Depth.of_past_eq_ended h.closing (hsane args (List.prefix_refl _)) h.ended
    refine ⟨hc, hsane, ?_⟩
    rw [← hdepth, ← h.unquoted, ← Reading.unescaped_behind h.unquoted]

end EndsCall

end StatVars
