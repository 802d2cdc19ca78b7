import StatVars.Text.Quotes
import StatVars.Text.Utf8

/-!
# Slices of a text and loops over its bytes

A place in the UTF-8 form of a text may lie within a character. A slice that begins or ends at such
a place does not exist, nor does one that leaves the text: `Text.slice?` checks for both. A loop
over the bytes of a text may get to such places. The bytes there are those of no ASCII character, so
a loop that passes over all such bytes goes on at the next character: `ByteLoop.run?_inside`.
-/

namespace StatVars

namespace Text

variable {s t u v : List Char} {c e : Char} {n start stop : Nat}

/-! ## Slices -/

/-- The text in front of byte `n` and the text from there on, if this is a place between characters.
-/
def splitAt? (n : Nat) : List Char → Option (List Char × List Char)
  | [] => if n = 0 then some ([], []) else none
  | c :: s =>
    if n = 0 then some ([], c :: s)
    else if c.utf8Size ≤ n then (splitAt? (n - c.utf8Size) s).map fun (t, u) => (c :: t, u)
    else none

/-- The slice from byte `start` up to byte `stop`, if there is one. -/
def slice? (start stop : Nat) (s : List Char) : Option (List Char) :=
  (splitAt? stop s).bind fun (t, _) => (splitAt? start t).map (·.2)

/-- The slice from byte `start` up to the end, if there is one. -/
def sliceFrom? (start : Nat) (s : List Char) : Option (List Char) :=
  (splitAt? start s).map (·.2)

/-- The place lies in the text and between characters. -/
def Boundary (n : Nat) (s : List Char) : Prop :=
  ∃ t u, s = t ++ u ∧ byteLength t = n

theorem splitAt?_append (t u : List Char) : splitAt? (byteLength t) (t ++ u) = some (t, u) := by
  induction t with
  | nil => cases u <;> rfl
  | cons c t ih =>
    have hpos := c.utf8Size_pos
    rw [List.cons_append, splitAt?, byteLength_cons, if_neg (by omega), if_pos (by omega),
      Nat.add_sub_cancel_left, ih, Option.map_some]

theorem splitAt?_eq_some_iff : splitAt? n s = some (t, u) ↔ s = t ++ u ∧ byteLength t = n := by
  constructor
  · intro h
    induction s generalizing n t with
    | nil =>
      rw [splitAt?] at h
      split at h
      · next hn =>
        cases h
        exact ⟨rfl, hn.symm⟩
      · cases h
    | cons c s ih =>
      rw [splitAt?] at h
      split at h
      · next hn =>
        cases h
        exact ⟨rfl, hn.symm⟩
      split at h
      · next hle =>
        obtain ⟨⟨t', u'⟩, hsplit, htu⟩ := Option.map_eq_some_iff.1 h
        cases htu
        obtain ⟨rfl, hlength⟩ := ih hsplit
        exact ⟨rfl, by rw [byteLength_cons, hlength, Nat.add_sub_cancel' hle]⟩
      · cases h
  · rintro ⟨rfl, rfl⟩
    exact splitAt?_append t u

theorem slice?_eq_some_iff : slice? start stop s = some t ↔
    ∃ u v, s = u ++ (t ++ v) ∧ byteLength u = start ∧ start + byteLength t = stop := by
  simp only [slice?, Option.bind_eq_some_iff, Option.map_eq_some_iff, Prod.exists,
    splitAt?_eq_some_iff]
  constructor
  · rintro ⟨w, v, ⟨rfl, rfl⟩, u, t, ⟨rfl, rfl⟩, rfl⟩
    exact ⟨u, v, List.append_assoc .., rfl, (byteLength_append ..).symm⟩
  · rintro ⟨u, v, rfl, rfl, rfl⟩
    exact ⟨u ++ t, v, ⟨(List.append_assoc ..).symm, byteLength_append ..⟩, u, t, ⟨rfl, rfl⟩, rfl⟩

theorem sliceFrom?_eq_some_iff : sliceFrom? start s = some t ↔
    ∃ u, s = u ++ t ∧ byteLength u = start := by
  simp only [sliceFrom?, Option.map_eq_some_iff, Prod.exists, splitAt?_eq_some_iff]
  constructor
  · rintro ⟨u, t, h, rfl⟩
    exact ⟨u, h⟩
  · rintro ⟨u, h⟩
    exact ⟨u, t, h, rfl⟩

/-- A text that begins in front of a place has an end behind it. -/
theorem exists_append_of_le {t' u' : List Char} (h : t ++ u = t' ++ u')
    (hle : byteLength t ≤ byteLength t') : ∃ w, t' = t ++ w ∧ u = w ++ u' := by
  obtain ⟨w, rfl, rfl⟩ | ⟨w, rfl, rfl⟩ := List.append_eq_append_iff.1 h
  · exact ⟨w, rfl, rfl⟩
  · cases w with
    | nil => exact ⟨[], by simp, rfl⟩
    | cons c w =>
      have hpos := c.utf8Size_pos
      rw [byteLength_append, byteLength_cons] at hle
      omega

/-- **There is a slice just between two places between characters.** -/
theorem isSome_slice?_iff : (slice? start stop s).isSome ↔
    start ≤ stop ∧ Boundary start s ∧ Boundary stop s := by
  constructor
  · intro h
    obtain ⟨t, ht⟩ := Option.isSome_iff_exists.1 h
    obtain ⟨u, v, rfl, rfl, rfl⟩ := slice?_eq_some_iff.1 ht
    exact ⟨Nat.le_add_right .., ⟨u, t ++ v, rfl, rfl⟩, u ++ t, v, by simp, by simp⟩
  · rintro ⟨hle, ⟨u, w, rfl, rfl⟩, w', v, h, rfl⟩
    obtain ⟨t, rfl, rfl⟩ := exists_append_of_le h hle
    exact Option.isSome_iff_exists.2
      ⟨t, slice?_eq_some_iff.2 ⟨u, v, rfl, rfl, (byteLength_append ..).symm⟩⟩

/-- **The places between characters are the valid positions of the string.** -/
theorem boundary_iff_isValid {s : String} :
    Boundary n s.toList ↔ (⟨n⟩ : String.Pos.Raw).IsValid s := by
  have hlength (t : List Char) : (String.ofList t).utf8ByteSize = byteLength t := by
    induction t with
    | nil => rfl
    | cons c t ih =>
      rw [String.ofList_cons, String.utf8ByteSize_append, String.utf8ByteSize_singleton, ih,
        byteLength_cons]
  rw [String.Pos.Raw.isValid_iff_exists_append]
  constructor
  · rintro ⟨t, u, h, rfl⟩
    refine ⟨.ofList t, .ofList u, ?_, String.Pos.Raw.ext (hlength t).symm⟩
    rw [← String.ofList_append, ← h, String.ofList_toList]
  · rintro ⟨t, u, rfl, hn⟩
    refine ⟨t.toList, u.toList, String.toList_append, ?_⟩
    rw [← hlength, String.ofList_toList]
    exact (congrArg String.Pos.Raw.byteIdx hn).symm

theorem boundary_length (s : List Char) : Boundary (byteLength s) s :=
  ⟨s, [], (List.append_nil s).symm, rfl⟩

/-- No place between characters is within a character. -/
theorem Boundary.outside (h : Boundary n (u ++ c :: v)) :
    n ≤ byteLength u ∨ byteLength u + c.utf8Size ≤ n := by
  obtain ⟨t, w, h, rfl⟩ := h
  by_cases hle : byteLength t ≤ byteLength u
  · exact .inl hle
  obtain ⟨x, rfl, hx⟩ := exists_append_of_le h (Nat.le_of_not_le hle)
  cases x with
  | nil => simp at hle
  | cons d x =>
    cases hx
    rw [byteLength_append, byteLength_cons]
    omega

/-! ## Bytes -/

/-- The bytes of the UTF-8 form. -/
def bytes (s : List Char) : List UInt8 :=
  s.flatMap String.utf8EncodeChar

@[simp] theorem length_bytes (s : List Char) : (bytes s).length = byteLength s := by
  induction s with
  | nil => rfl
  | cons c s ih => 
    rw [bytes, List.flatMap_cons, List.length_append, String.length_utf8EncodeChar, byteLength_cons]
    exact congrArg _ ih

@[simp] theorem bytes_append (s t : List Char) : bytes (s ++ t) = bytes s ++ bytes t :=
  List.flatMap_append

/-- What a loop over bytes sees of a character: the character itself if it is an ASCII character,
else characters that are none. -/
def Shows (c e : Char) : Prop :=
  c.utf8Size = 1 ∧ e = c ∨ c.utf8Size ≠ 1 ∧ e.utf8Size ≠ 1

/-- Each byte of a character has the number of an ASCII character just if it is that character. -/
theorem shows_of_mem {b : UInt8} (hb : b ∈ String.utf8EncodeChar c) : Shows c (.ofUInt8 b) := by
  by_cases hc : c.utf8Size = 1
  · refine .inl ⟨hc, Char.ext (UInt32.toNat.inj ?_)⟩
    rw [String.utf8EncodeChar_eq_singleton hc, List.mem_singleton] at hb
    rw [Char.utf8Size_eq_one_iff, UInt32.le_iff_toNat_le] at hc
    have hval : (Char.ofUInt8 b).val.toNat = c.val.toNat % 256 := by rw [hb]; rfl
    rw [hval, Nat.mod_eq_of_lt (Nat.lt_of_le_of_lt hc (by decide))]
  · refine .inr ⟨hc, fun he => ?_⟩
    rw [Char.utf8Size_eq_one_iff, UInt32.le_iff_toNat_le] at hc he
    replace hc : ¬ c.val.toNat ≤ 127 := hc
    have hlarge (n k : Nat) (hk : 128 ≤ k) (hlt : n + k < 256) : b ≠ UInt8.ofNat (n + k) := by
      rintro rfl
      have hval : (n + k) % 256 ≤ 127 := he
      omega
    simp only [String.utf8EncodeChar, if_neg hc, apply_ite (b ∈ ·), List.mem_cons, List.not_mem_nil,
      or_false] at hb
    split at hb
    · obtain hb | hb := hb
      all_goals exact hlarge _ _ (by decide) (by omega) hb
    split at hb
    · obtain hb | hb | hb := hb
      all_goals exact hlarge _ _ (by decide) (by omega) hb
    · obtain hb | hb | hb | hb := hb
      all_goals exact hlarge _ _ (by decide) (by omega) hb

theorem exists_byte (u v : List Char) {j : Nat} (hj : j < c.utf8Size) :
    ∃ b, (bytes (u ++ c :: v))[byteLength u + j]? = some b ∧ Shows c (.ofUInt8 b) := by
  have hlength : j < (String.utf8EncodeChar c).length := by rwa [String.length_utf8EncodeChar]
  refine ⟨(String.utf8EncodeChar c)[j], ?_, shows_of_mem (List.getElem_mem hlength)⟩
  have hbytes : bytes (u ++ c :: v) = bytes u ++ (String.utf8EncodeChar c ++ bytes v) :=
    bytes_append u (c :: v)
  rw [hbytes, List.getElem?_append_right (by simp), length_bytes, Nat.add_sub_cancel_left,
    List.getElem?_append_left hlength, List.getElem?_eq_getElem]

/-- A property of ASCII characters alone is seen in the bytes. -/
theorem Shows.congr {p : Char → Bool} (h : Shows c e) (hp : ∀ c, p c → c.utf8Size = 1) :
    p e = p c := by
  obtain ⟨-, rfl⟩ | ⟨hc, he⟩ := h
  · rfl
  · rw [Bool.eq_false_iff.2 (mt (hp e) he), Bool.eq_false_iff.2 (mt (hp c) hc)]

theorem Shows.eq_iff {a : Char} (h : Shows c e) (ha : a.utf8Size = 1) : e = a ↔ c = a := by
  have hcongr := h.congr (p := (· == a)) fun d hd => by rw [beq_iff_eq.1 hd, ha]
  rw [← beq_iff_eq, hcongr, beq_iff_eq]

theorem ne_of_utf8Size_ne_one {a : Char} (he : e.utf8Size ≠ 1) (ha : a.utf8Size = 1) : e ≠ a := by
  rintro rfl
  exact he ha

theorem utf8Size_of_isQuote (hc : isQuote c) : c.utf8Size = 1 := by
  simp only [isQuote, Bool.or_eq_true, beq_iff_eq] at hc
  obtain (rfl | rfl) | rfl := hc
  all_goals rfl

end Text

/-! ## Loops -/

/-- A loop over the bytes of a text with states in `σ`. It looks at the byte at its place, as the
character with the number of the byte, and goes on at a later place or fails. -/
structure ByteLoop (σ : Type) where
  step? : Nat → σ → Char → Option (Nat × σ)
  lt_of_step? : ∀ {place : Nat} {st : σ} {c : Char} {place' : Nat} {st' : σ},
    step? place st c = some (place', st') → place < place'

namespace ByteLoop

variable {σ : Type} (loop : ByteLoop σ) {u v : List Char} {c : Char} {place : Nat} {st st' : σ}

/-- The state at the end of the bytes, unless a step fails. -/
def run? (bytes : List UInt8) (place : Nat) (st : σ) : Option σ :=
  match _hb : bytes[place]? with
  | none => some st
  | some b =>
    match _hstep : loop.step? place st (.ofUInt8 b) with
    | none => none
    | some (place', st') => run? bytes place' st'
termination_by bytes.length - place
decreasing_by
  have hlt := loop.lt_of_step? _hstep
  have hplace := (List.getElem?_eq_some_iff.1 _hb).1
  omega

theorem run?_end {bytes : List UInt8} (h : bytes.length ≤ place) :
    loop.run? bytes place st = some st := by
  rw [run?]
  split
  · rfl
  · next hb => 
    rw [List.getElem?_eq_none h] at hb
    cases hb

theorem run?_step {bytes : List UInt8} {b : UInt8} {place' : Nat} (hb : bytes[place]? = some b)
    (hstep : loop.step? place st (.ofUInt8 b) = some (place', st')) :
    loop.run? bytes place st = loop.run? bytes place' st' := by
  rw [run?]
  split
  · next hb' => simp [hb'] at hb
  · next hb' =>
    cases hb'.symm.trans hb
    split
    · next hstep' => simp [hstep'] at hstep
    · next hstep' =>
      cases hstep'.symm.trans hstep
      rfl

/-- **A loop that has got into a character goes on at the next one**, if it passes over all bytes
that are not those of an ASCII character. -/
theorem run?_inside (u v : List Char) (hidle : ∀ i e, Text.byteLength u < i →
      i < Text.byteLength u + c.utf8Size → e.utf8Size ≠ 1 → loop.step? i st e = some (i + 1, st))
    (hplace : Text.byteLength u < place) (hle : place ≤ Text.byteLength u + c.utf8Size) :
    loop.run? (Text.bytes (u ++ c :: v)) place st =
      loop.run? (Text.bytes (u ++ c :: v)) (Text.byteLength u + c.utf8Size) st := by
  obtain ⟨k, hk⟩ := Nat.exists_eq_add_of_le hle
  induction k generalizing place with
  | zero => rw [hk, Nat.add_zero]
  | succ k ih =>
    obtain ⟨j, rfl⟩ := Nat.exists_eq_add_of_le (Nat.le_of_lt hplace)
    obtain ⟨b, hb, hshows⟩ := Text.exists_byte (c := c) u v (j := j) (by omega)
    have hsize : c.utf8Size ≠ 1 := by omega
    have he : (Char.ofUInt8 b).utf8Size ≠ 1 := by
      obtain ⟨h, -⟩ | ⟨-, h⟩ := hshows
      · exact absurd h hsize
      · exact h
    rw [loop.run?_step hb (hidle _ _ hplace (by omega) he)]
    exact ih (by omega) (by omega) (by omega)

/-- A loop that sees a character goes on at the next one, if it passes over the rest of it. -/
theorem run?_char (u v : List Char) (hstep : ∀ e, Text.Shows c e →
      loop.step? (Text.byteLength u) st e = some (place, st'))
    (hidle : ∀ i e, Text.byteLength u < i → i < Text.byteLength u + c.utf8Size →
      e.utf8Size ≠ 1 → loop.step? i st' e = some (i + 1, st'))
    (hle : place ≤ Text.byteLength u + c.utf8Size) :
    loop.run? (Text.bytes (u ++ c :: v)) (Text.byteLength u) st =
      loop.run? (Text.bytes (u ++ c :: v)) (Text.byteLength u + c.utf8Size) st' := by
  obtain ⟨b, hb, hshows⟩ := Text.exists_byte u v c.utf8Size_pos
  rw [Nat.add_zero] at hb
  rw [loop.run?_step hb (hstep _ hshows)]
  exact loop.run?_inside u v hidle (loop.lt_of_step? (hstep _ hshows)) hle

end ByteLoop

end StatVars
