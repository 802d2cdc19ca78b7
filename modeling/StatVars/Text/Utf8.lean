/-!
# Positions in bytes

Positions in a text count the bytes of its UTF-8 form, while the text itself is a list of
characters. The functions here measure a text and cut it at such positions.
-/

namespace StatVars.Text

/-- The number of bytes that `s` takes in UTF-8. -/
def byteLength : List Char → Nat
  | [] => 0
  | c :: s => c.utf8Size + byteLength s

/-- The characters that lie within the first `n` bytes. -/
def takeBytes (n : Nat) : List Char → List Char
  | [] => []
  | c :: s => if c.utf8Size ≤ n then c :: takeBytes (n - c.utf8Size) s else []

/-- The characters that start at byte `n` or later. -/
def dropBytes (n : Nat) : List Char → List Char
  | [] => []
  | c :: s => if n = 0 then c :: s else dropBytes (n - c.utf8Size) s

/-- The characters from byte `start` up to byte `stop`. -/
def sliceBytes (start stop : Nat) (s : List Char) : List Char :=
  takeBytes (stop - start) (dropBytes start s)

/-- Where the end `rest` of a text starts that reaches to byte `stop`. -/
def position (stop : Nat) (rest : List Char) : Nat :=
  stop - byteLength rest

@[simp] theorem byteLength_nil : byteLength [] = 0 := rfl

@[simp] theorem byteLength_cons (c : Char) (s : List Char) :
    byteLength (c :: s) = c.utf8Size + byteLength s := rfl

@[simp] theorem byteLength_append (s t : List Char) :
    byteLength (s ++ t) = byteLength s + byteLength t := by
  induction s with
  | nil => simp
  | cons c s ih => simp [ih, Nat.add_assoc]

/-- A text of ASCII characters has as many bytes as characters. -/
theorem byteLength_ascii {s : List Char} (h : ∀ c ∈ s, c.utf8Size = 1) :
    byteLength s = s.length := by
  induction s with
  | nil => rfl
  | cons c s ih =>
    obtain ⟨hc, hs⟩ := List.forall_mem_cons.1 h
    rw [byteLength_cons, hc, ih hs, List.length_cons, Nat.add_comm]

@[simp] theorem dropBytes_zero (s : List Char) : dropBytes 0 s = s := by
  cases s <;> rfl

theorem dropBytes_append (s t : List Char) : dropBytes (byteLength s) (s ++ t) = t := by
  induction s with
  | nil => simp
  | cons c s ih =>
    have := Char.utf8Size_pos c
    rw [List.cons_append, dropBytes, byteLength_cons, if_neg (by omega),
      Nat.add_sub_cancel_left, ih]

theorem takeBytes_append (s t : List Char) : takeBytes (byteLength s) (s ++ t) = s := by
  induction s with
  | nil =>
    cases t with
    | nil => rfl
    | cons c t => simp [takeBytes, Nat.not_le.2 (Char.utf8Size_pos c)]
  | cons c s ih => simp [takeBytes, ih]

end StatVars.Text
