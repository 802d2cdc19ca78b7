import Mathlib.Data.List.DropRight
import StatVars.Proofs.RelaxedText

/-!
# Standard texts in relaxed notation

The relaxed notation contains the standard one: whatever the reader of JSON texts takes, the reader
of the relaxed notation takes too, wherever it stands, and reads as an equal value, with two
exceptions. Of a character that is escaped as two halves the one reader joins the halves, while the
other one reads each of them as the replacement character, so it reads the text as if all halves had
been replaced (`Json.replaceHalves`). The one reader calculates numbers, while the other one takes
the nearest (`Json.readNearest?`), which need not be finite where the calculated one is. Main
statement: `Literal.Relaxed.parse_standard`.
-/

namespace StatVars

open Fallible Text

/-! ## Halves of characters -/

namespace Json

variable {s t rest : List Char} {a b c d : Char} {n : Nat}

/-- The text with the number of the replacement character in the place of that of every half that is
escaped. -/
def replaceHalves : List Char → List Char
  | [] => []
  | '\\' :: 'u' :: a :: b :: c :: d :: s =>
    '\\' :: 'u' :: ((if (hex4? a b c d).any isHalf then ['f', 'f', 'f', 'd'] else [a, b, c, d]) ++
      replaceHalves s)
  | '\\' :: c :: s => '\\' :: c :: replaceHalves s
  | c :: s => c :: replaceHalves s

theorem replaceHalves_cons (hc : c ≠ '\\') (s : List Char) :
    replaceHalves (c :: s) = c :: replaceHalves s := by
  rw [replaceHalves] <;> simp [hc]

theorem replaceHalves_letter (hc : c ≠ 'u') (s : List Char) :
    replaceHalves ('\\' :: c :: s) = '\\' :: c :: replaceHalves s := by
  rw [replaceHalves]
  rintro a b c' d s' rfl
  exact absurd rfl hc

theorem replaceHalves_unicode (h : hex4? a b c d = some n) (s : List Char) :
    replaceHalves ('\\' :: 'u' :: a :: b :: c :: d :: s) = '\\' :: 'u' ::
      ((if isHalf n then ['f', 'f', 'f', 'd'] else [a, b, c, d]) ++ replaceHalves s) := by
  rw [replaceHalves, h, Option.any_some]

theorem replaceHalves_append (ht : ∀ c ∈ t, c ≠ '\\') (s : List Char) :
    replaceHalves (t ++ s) = t ++ replaceHalves s := by
  induction t with
  | nil => rfl
  | cons c t ih =>
    obtain ⟨hc, ht⟩ := List.forall_mem_cons.1 ht
    rw [List.cons_append, replaceHalves_cons hc, ih ht, List.cons_append]

theorem head?_replaceHalves (s : List Char) : (replaceHalves s).head? = s.head? := by
  fun_cases replaceHalves s <;> rfl

theorem length_replaceHalves (s : List Char) : (replaceHalves s).length = s.length := by
  fun_induction replaceHalves s with
  | case1 => rfl
  | case2 a b c d s ih => split <;> simp [ih]
  | case3 | case4 => simp [*]

theorem skipSpace_replaceHalves (s : List Char) :
    skipSpace (replaceHalves s) = replaceHalves (skipSpace s) := by
  obtain ⟨t, rest, rfl, ht, hrest⟩ := exists_run isSpace s
  have hplain : ∀ c ∈ t, c ≠ '\\' := by
    rintro c hc rfl
    cases ht _ hc
  have hstop : Stops isSpace (replaceHalves rest) := by
    rwa [Stops, head?_replaceHalves]
  rw [replaceHalves_append hplain, skipSpace, skipSpace, dropWhile_run ht hrest,
    dropWhile_run ht hstop]

theorem skipSpace_skipSpace (s : List Char) : skipSpace (skipSpace s) = skipSpace s :=
  List.dropWhile_idempotent isSpace s

theorem readValue_skipSpace (float : FloatReader) (depth : Nat) (s : List Char) :
    readValue float depth (skipSpace s) = readValue float depth s := by
  unfold readValue
  rw [skipSpace_skipSpace]

theorem exists_of_putFirst {r : Option (List Char × List Char)}
    (h : putFirst c r = some (t, rest)) : ∃ t, r = some (t, rest) := by
  obtain ⟨⟨t', _⟩, hr, heq⟩ := Option.map_eq_some_iff.1 h
  cases heq
  exact ⟨t', hr⟩

/-- The replacement character by its number. -/
theorem hex4?_replacement : hex4? 'f' 'f' 'f' 'd' = some 0xfffd := by decide

theorem readString_half (h : hex4? a b c d = some n) (hn : isHalf n) (s : List Char) :
    readString (replaceHalves ('\\' :: 'u' :: a :: b :: c :: d :: s)) =
      putFirst '\ufffd' (readString (replaceHalves s)) := by
  rw [replaceHalves_unicode h, if_pos hn]
  exact readString_unicode hex4?_replacement rfl _

/-- Reads a text that is one value as the reader of JSON texts does, but for its numbers, which are
the nearest. -/
def readNearest? (text : List Char) : Option Json :=
  (readWith? Decimal.nearest text).map mergeRepeated

/-! ## Equal values -/

mutual

/-- The values differ at most in what stores the same number in double precision. -/
inductive Agrees : Json → Json → Prop
  | null : Agrees .null .null
  | bool (b : Bool) : Agrees (.bool b) (.bool b)
  | num {m n : Number} {x y : Finite} (hm : m.toBinary64 = .finite x)
    (hn : n.toBinary64 = .finite y) (h : x.sameValue y) : Agrees (.num m) (.num n)
  | str (s : String) : Agrees (.str s) (.str s)
  | arr {vs ws : List Json} (h : AgreesItems vs ws) : Agrees (.arr vs) (.arr ws)
  | obj {fs gs : List (String × Json)} (h : AgreesFields fs gs) : Agrees (.obj fs) (.obj gs)

inductive AgreesItems : List Json → List Json → Prop
  | nil : AgreesItems [] []
  | cons {v w : Json} {vs ws : List Json} (h : Agrees v w) (hs : AgreesItems vs ws) :
    AgreesItems (v :: vs) (w :: ws)

inductive AgreesFields : List (String × Json) → List (String × Json) → Prop
  | nil : AgreesFields [] []
  | cons {k : String} {v w : Json} {fs gs : List (String × Json)} (h : Agrees v w)
    (hs : AgreesFields fs gs) : AgreesFields ((k, v) :: fs) ((k, w) :: gs)

end

mutual

theorem Agrees.symm : {v w : Json} → v.Agrees w → w.Agrees v
  | _, _, .null => .null
  | _, _, .bool b => .bool b
  | _, _, .num hm hn h => .num hn hm (beq_iff_eq.2 (beq_iff_eq.1 h).symm)
  | _, _, .str s => .str s
  | _, _, .arr h => .arr h.symm
  | _, _, .obj h => .obj h.symm

theorem AgreesItems.symm : {vs ws : List Json} → AgreesItems vs ws → AgreesItems ws vs
  | _, _, .nil => .nil
  | _, _, .cons h hs => .cons h.symm hs.symm

theorem AgreesFields.symm : {fs gs : List (String × Json)} → AgreesFields fs gs →
    AgreesFields gs fs
  | _, _, .nil => .nil
  | _, _, .cons h hs => .cons h.symm hs.symm

end

mutual

theorem Agrees.trans : {u v w : Json} → u.Agrees v → v.Agrees w → u.Agrees w
  | _, _, _, .null, h => h
  | _, _, _, .bool _, h => h
  | _, _, _, .num hm hn h, .num hm' hn' h' => by
    cases hn.symm.trans hm'
    exact .num hm hn' (beq_iff_eq.2 ((beq_iff_eq.1 h).trans (beq_iff_eq.1 h')))
  | _, _, _, .str _, h => h
  | _, _, _, .arr h, .arr h' => .arr (h.trans h')
  | _, _, _, .obj h, .obj h' => .obj (h.trans h')

theorem AgreesItems.trans : {us vs ws : List Json} → AgreesItems us vs → AgreesItems vs ws →
    AgreesItems us ws
  | _, _, _, .nil, h => h
  | _, _, _, .cons h hs, .cons h' hs' => .cons (h.trans h') (hs.trans hs')

theorem AgreesFields.trans : {es fs gs : List (String × Json)} → AgreesFields es fs →
    AgreesFields fs gs → AgreesFields es gs
  | _, _, _, .nil, h => h
  | _, _, _, .cons h hs, .cons h' hs' => .cons (h.trans h') (hs.trans hs')

end

theorem Agrees.congr_right {u v w : Json} (h : u.Agrees w) : v.Agrees w ↔ v.Agrees u :=
  ⟨fun hv => hv.trans h.symm, fun hv => hv.trans h⟩

mutual

/-- Rounding changes no number in double precision. -/
theorem agrees_rounded (v : Json) : v.Agrees v.rounded :=
  match v with
  | .null => .null
  | .bool b => .bool b
  | .num n => by
    obtain ⟨x, y, hx, hy, hsame⟩ := n.sameValue_rounded
    exact .num hx hy hsame
  | .str s => .str s
  | .arr items => .arr (agrees_roundedItems items)
  | .obj fields => .obj (agrees_roundedFields fields)

theorem agrees_roundedItems (items : List Json) :
    AgreesItems items (mapItems Number.rounded items) :=
  match items with
  | [] => .nil
  | v :: items => .cons (agrees_rounded v) (agrees_roundedItems items)

theorem agrees_roundedFields (fields : List (String × Json)) :
    AgreesFields fields (mapFields Number.rounded fields) :=
  match fields with
  | [] => .nil
  | (_, v) :: fields => .cons (agrees_rounded v) (agrees_roundedFields fields)

end

end Json

namespace Literal.Relaxed

open Json

variable {v : Json} {s t rest : List Char} {a b c d : Char} {n total limit room fuel : Nat}

/-! ## Strings -/

theorem takeString_half (h : hex4? a b c d = some n) (hn : isHalf n) (s : List Char) :
    takeString total '"' ('\\' :: 'u' :: a :: b :: c :: d :: s) =
      putFirst '\ufffd' (takeString total '"' s) := by
  rw [takeString_unicode h, codePoint_eq (hex4?_eq_some h).1, if_pos hn]

theorem takeString_whole (h : hex4? a b c d = some n) (hn : isHalf n = false) (s : List Char) :
    takeString total '"' ('\\' :: 'u' :: a :: b :: c :: d :: s) =
      putFirst (.ofNat n) (takeString total '"' s) := by
  rw [takeString_unicode h, codePoint_eq (hex4?_eq_some h).1, hn, if_neg Bool.false_ne_true]

/-- **A string is read with replacement characters for the halves.** -/
theorem takeString_standard (total : Nat) (h : readString s = some (t, rest)) :
    ∃ u, readString (replaceHalves s) = some (u, replaceHalves rest) ∧
      takeString total '"' s = .ok (u, rest) := by
  -- A character that both readers take puts itself before what they read behind it.
  have hput {s s' : List Char} {c : Char}
      (hread : readString (replaceHalves s') = Json.putFirst c (readString (replaceHalves s)))
      (htake : takeString total '"' s' = putFirst c (takeString total '"' s))
      (ih : ∃ u, readString (replaceHalves s) = some (u, replaceHalves rest) ∧
        takeString total '"' s = .ok (u, rest)) :
      ∃ u, readString (replaceHalves s') = some (u, replaceHalves rest) ∧
        takeString total '"' s' = .ok (u, rest) := by
    obtain ⟨u, hu, hu'⟩ := ih
    exact ⟨c :: u, by rw [hread, hu]; rfl, by rw [htake, hu']; rfl⟩
  fun_induction readString s generalizing t with
  | case1 | case3 | case4 | case5 | case7 | case8 | case11 | case12 => cases h
  | case2 s =>
    cases h
    exact ⟨[], by rw [replaceHalves_cons (by decide), readString], by simp [takeString]⟩
  | case6 a b c d n hn hlow hhigh a' b' c' d' s m hm hlow' ih =>
    have hn' : isHalf n := Bool.or_eq_true_iff.2 (.inl hhigh)
    have hm' : isHalf m := Bool.or_eq_true_iff.2 (.inr hlow')
    obtain ⟨t, h⟩ := exists_of_putFirst h
    have hsecond := hput (readString_half hm hm' s) (takeString_half hm hm' s) (ih h)
    exact hput (readString_half hn hn' _) (takeString_half hn hn' _) hsecond
  | case9 a b c d s n hn hlow hhigh ih =>
    have hn' : isHalf n = false := Bool.or_eq_false_iff.2
      ⟨Bool.eq_false_iff.2 hhigh, Bool.eq_false_iff.2 hlow⟩
    obtain ⟨t, h⟩ := exists_of_putFirst h
    refine hput ?_ (takeString_whole hn hn' s) (ih h)
    rw [replaceHalves_unicode hn, if_neg (by simp [hn'])]
    exact readString_unicode hn hn' _
  | case10 c s hu e he ih =>
    have hne : c ≠ 'u' := by
      rintro rfl
      cases he
    obtain ⟨t, h⟩ := exists_of_putFirst h
    refine hput ?_ (takeString_letter hne he s) (ih h)
    rw [replaceHalves_letter hne, readString_letter hne he]
  | case13 c s hq _ _ hplain ih =>
    simp only [Bool.or_eq_true, decide_eq_true_eq, beq_iff_eq, not_or, Nat.not_lt] at hplain
    obtain ⟨hle, hb⟩ := hplain
    obtain ⟨t, h⟩ := exists_of_putFirst h
    refine hput ?_ (takeString_plain hq hb s) (ih h)
    rw [replaceHalves_cons hb, readString_plain hle hq hb]

/-! ## Blanks -/

theorem skipBlank_skipSpace (s : List Char) : skipBlank (skipSpace s) = skipBlank s := by
  obtain ⟨t, rest, rfl, ht, hrest⟩ := exists_run isSpace s
  rw [skipSpace, dropWhile_run ht hrest, skipBlank, skipBlank,
    List.dropWhile_append_of_pos fun c hc => isBlank_of_isSpace c (ht c hc)]

theorem skipBlank_of_skipSpace (h : skipSpace s = c :: t) (hc : isBlank c = false) :
    skipBlank s = c :: t := by
  rw [← skipBlank_skipSpace, h, skipBlank_of_stops (stops_cons hc)]

theorem stops_of_skipSpace (h : Stops inScalar (skipSpace s)) : Stops inScalar s := by
  obtain ⟨t, rest, rfl, ht, hrest⟩ := exists_run isSpace s
  rw [skipSpace, dropWhile_run ht hrest] at h
  refine stops_append (fun c hc => Bool.eq_false_iff.2 fun hscalar => ?_) h
  have hblank := isBlank_of_isSpace c (ht c (List.mem_of_mem_head? hc))
  exact absurd hblank (by rw [not_isBlank_of_inScalar hscalar]; decide)

theorem takeValue_skipSpace (s : List Char) :
    takeValue total limit room (skipSpace s) = takeValue total limit room s := by
  unfold takeValue
  rw [skipBlank_skipSpace]

/-! ## Parts of arrays and objects -/

variable {α β γ δ : Type} {f : α → β} {standard : Option (α × List Char)}
  {relaxed : Except SyntaxError (β × List Char)}

/-- Both readers go on at `rest`, the reader of JSON texts with its halves replaced, and the relaxed
one has what `f` makes of the result of the other. If there is no result, a number is not finite. -/
def Matches (f : α → β) (rest : List Char) (standard : Option (α × List Char))
    (relaxed : Except SyntaxError (β × List Char)) : Prop :=
  (∃ a, standard = some (a, replaceHalves rest) ∧ relaxed = .ok (f a, rest)) ∨
    standard = none ∧ relaxed = .error .nonFinite

theorem Matches.map (h : Matches f rest standard relaxed) {g : α → γ} {k : β → δ} {f' : γ → δ}
    (hf : ∀ a, k (f a) = f' (g a)) :
    Matches f' rest (standard.map fun (a, s) => (g a, s)) (relaxed.map fun (b, s) => (k b, s)) := by
  obtain ⟨a, rfl, rfl⟩ | ⟨rfl, rfl⟩ := h
  · exact .inl ⟨g a, rfl, congrArg (fun b => Except.ok (b, rest)) (hf a)⟩
  · exact .inr ⟨rfl, rfl⟩

variable {float : FloatReader}

/-- Wherever the reader of JSON texts takes a value, with any numbers, the relaxed one takes what
the other takes with the nearest numbers, if there is room for it. -/
def TakesStandard (float : FloatReader) (total limit depth room : Nat) : Prop :=
  ∀ ⦃s v rest⦄, readValue float depth s = some (v, rest) → v.depth ≤ room → Stops inScalar rest →
    Matches (fun u : Json => u.mergeRepeated.rounded) rest
      (readValue Decimal.nearest depth (replaceHalves s)) (takeValue total limit room s)

variable {depth : Nat} {items : List Json} {fields : List (String × Json)}

theorem skipSpace_replaceHalves_of_cons (h : skipSpace s = c :: t) (hc : c ≠ '\\') :
    skipSpace (replaceHalves s) = c :: replaceHalves t := by
  rw [skipSpace_replaceHalves, h, replaceHalves_cons hc]

theorem takeItems_standard (h : TakesStandard float total limit depth room) {more : Nat}
    (hread : readItems (readValue float depth) fuel s = some (items, rest))
    (hdepth : depthItems items ≤ room) (hfuel : fuel ≤ more) :
    Matches (fun us => mapItems Number.rounded (mergeItems us)) rest
      (readItems (readValue Decimal.nearest depth) fuel (replaceHalves s))
      (takeItems total (takeValue total limit room) more s) := by
  induction fuel generalizing s items more with
  | zero => cases hread
  | succ fuel ih =>
    obtain _ | more := more
    · cases hfuel
    obtain ⟨v, t, hv, hrest⟩ := readItems_eq_some_iff.1 hread
    obtain ⟨c, s', hs, hc, hbracket⟩ := (takes_of_readValue hv).exists_cons
    have hskip := skipBlank_of_skipSpace hs hc
    have hhead : (c :: s').head? ≠ some ']' := mt Option.some.inj hbracket
    have hnext : v ∈ items ∧ Stops inScalar t := by
      obtain ⟨t', vs, ht, -, rfl⟩ | ⟨ht, rfl⟩ := hrest
      · exact ⟨.head _, stops_of_skipSpace (ht ▸ stops_cons rfl)⟩
      · exact ⟨.head _, stops_of_skipSpace (ht ▸ stops_cons rfl)⟩
    have hvalue := h hv (depthItems_le.1 hdepth v hnext.1) hnext.2
    rw [← takeValue_skipSpace, hs] at hvalue
    obtain ⟨u, hu, htake⟩ | ⟨hu, htake⟩ := hvalue
    · obtain ⟨t', vs, ht, hvs, rfl⟩ | ⟨ht, rfl⟩ := hrest
      · rw [readItems_comma hu (skipSpace_replaceHalves_of_cons ht (by decide)),
          takeItems_comma hskip hhead htake (skipBlank_of_skipSpace ht rfl)]
        have hitems := ih hvs
          (depthItems_le.2 fun w hw => depthItems_le.1 hdepth w (.tail _ hw))
          (Nat.le_of_succ_le_succ hfuel)
        exact hitems.map fun _ => rfl
      · exact .inl ⟨[u], readItems_close hu (skipSpace_replaceHalves_of_cons ht (by decide)),
          takeItems_close hskip hhead htake (skipBlank_of_skipSpace ht rfl)⟩
    · exact .inr ⟨readItems_none hu, takeItems_error hskip hhead htake⟩

theorem takeKey_standard (total : Nat) {k : String} (h : readKey readString s = some (k, rest)) :
    ∃ t k', skipSpace s = '"' :: t ∧
      readKey readString (replaceHalves s) = some (k', replaceHalves rest) ∧
      takeKey total ('"' :: t) = .ok (k', rest) := by
  obtain ⟨t, key, t', hs, hkey, hcolon, rfl⟩ := readKey_eq_some_iff.1 h
  obtain ⟨key', hread, htake⟩ := takeString_standard total hkey
  refine ⟨t, .ofList key', hs, readKey_eq_some_iff.2 ?_, ?_⟩
  · exact ⟨_, key', _, skipSpace_replaceHalves_of_cons hs (by decide), hread,
      skipSpace_replaceHalves_of_cons hcolon (by decide), rfl⟩
  · exact takeKey_quote htake (skipBlank_of_skipSpace hcolon rfl)

theorem takeFields_standard (h : TakesStandard float total limit depth room) {more : Nat}
    (hread : readFields readString (fun _ => readValue float depth) fuel s = some (fields, rest))
    (hdepth : depthFields fields ≤ room) (hfuel : fuel ≤ more) :
    Matches (fun us => mapFields Number.rounded (mergeFields us)) rest
      (readFields readString (fun _ => readValue Decimal.nearest depth) fuel (replaceHalves s))
      (takeFields total (takeValue total limit room) more s) := by
  induction fuel generalizing s fields more with
  | zero => cases hread
  | succ fuel ih =>
    obtain _ | more := more
    · cases hfuel
    obtain ⟨k, s₁, v, s₂, hk, hv, hrest⟩ := readFields_eq_some_iff.1 hread
    obtain ⟨t, k', hs, hk', htakeKey⟩ := takeKey_standard total hk
    have hskip := skipBlank_of_skipSpace hs rfl
    have hhead : ('"' :: t).head? ≠ some '\x7d' := by simp
    have hnext : (k, v) ∈ fields ∧ Stops inScalar s₂ := by
      obtain ⟨s₃, fs, ht, -, rfl⟩ | ⟨ht, rfl⟩ := hrest
      · exact ⟨.head _, stops_of_skipSpace (ht ▸ stops_cons rfl)⟩
      · exact ⟨.head _, stops_of_skipSpace (ht ▸ stops_cons rfl)⟩
    obtain ⟨u, hu, htake⟩ | ⟨hu, htake⟩ :=
      h hv (depthFields_le.1 hdepth (k, v) hnext.1) hnext.2
    · obtain ⟨s₃, fs, ht, hfs, rfl⟩ | ⟨ht, rfl⟩ := hrest
      · rw [readFields_comma hk' hu (skipSpace_replaceHalves_of_cons ht (by decide)),
          takeFields_comma hskip hhead htakeKey htake (skipBlank_of_skipSpace ht rfl)]
        have hfields := ih hfs
          (depthFields_le.2 fun f hf => depthFields_le.1 hdepth f (.tail _ hf))
          (Nat.le_of_succ_le_succ hfuel)
        exact hfields.map fun _ => rfl
      · exact .inl ⟨[(k', u)],
          readFields_close hk' hu (skipSpace_replaceHalves_of_cons ht (by decide)),
          takeFields_close hskip hhead htakeKey htake (skipBlank_of_skipSpace ht rfl)⟩
    · exact .inr ⟨readFields_none hk' hu, takeFields_error hskip hhead htakeKey htake⟩

theorem takeItems_skipSpace (value : ValueReader) (fuel : Nat) (s : List Char) :
    takeItems total value (fuel + 1) (skipSpace s) = takeItems total value (fuel + 1) s := by
  rw [takeItems, takeItems, skipBlank_skipSpace]

theorem takeFields_skipSpace (value : ValueReader) (fuel : Nat) (s : List Char) :
    takeFields total value (fuel + 1) (skipSpace s) = takeFields total value (fuel + 1) s := by
  rw [takeFields, takeFields, skipBlank_skipSpace]

theorem length_skipSpace_le (s : List Char) : (skipSpace s).length ≤ s.length + 1 :=
  Nat.le_succ_of_le (List.length_dropWhile_le _ _)

/-! ## Values -/

theorem inScalar_of_continues (c : Char) (h : Numeral.continues c) : inScalar c := by
  refine inScalar_of_isPart ?_
  simp only [Numeral.continues, Bool.or_eq_true] at h
  simp only [Numeral.isPart, Bool.or_eq_true]
  tauto

/-- A numeral is read by both readers as the nearest number. -/
theorem takeValue_readNumber {n : Number} (hread : readNumber float s = some (n, rest))
    (hrest : Stops inScalar rest) :
    Matches (fun u : Json => u.mergeRepeated.rounded) rest
      (readValue Decimal.nearest depth (replaceHalves s)) (takeValue total limit room s) := by
  obtain ⟨m, rfl⟩ := Numeral.exists_of_readNumber hread
  have hstop : Stops Numeral.continues (replaceHalves rest) := by
    rw [Stops, head?_replaceHalves]
    exact hrest.mono inScalar_of_continues
  have hplain : ∀ c ∈ m.text, c ≠ '\\' := by
    rintro c hc rfl
    cases m.isPart_of_mem_text _ hc
  rw [replaceHalves_append hplain, readValue_numeral, m.readNumber_text _ hstop]
  obtain ⟨k, hk, hvalue⟩ | ⟨hk, hvalue⟩ := Number.number?_nearest m
  · rw [hk]
    exact .inl ⟨.num k, rfl, takeValue_numeral m hvalue hrest⟩
  · rw [hk]
    exact .inr ⟨rfl, takeValue_nonFinite m hvalue hrest⟩

theorem takeValue_items (h : TakesStandard float total limit depth room)
    (hhead : (skipSpace s).head? ≠ some ']')
    (hitems : readItems (readValue float depth) (skipSpace s).length (skipSpace s) =
      some (items, rest)) (hdepth : depthItems items ≤ room) :
    Matches (fun u : Json => u.mergeRepeated.rounded) rest
      (readValue Decimal.nearest (depth + 1) (replaceHalves ('[' :: s)))
      (takeValue total limit (room + 1) ('[' :: s)) := by
  have hmatches := takeItems_standard h hitems hdepth (length_skipSpace_le s)
  have hhead' : (skipSpace (replaceHalves s)).head? ≠ some ']' := by
    rwa [skipSpace_replaceHalves, head?_replaceHalves]
  rw [takeItems_skipSpace] at hmatches
  rw [replaceHalves_cons (by decide), readValue_items hhead', takeValue_bracket,
    skipSpace_replaceHalves, length_replaceHalves]
  exact hmatches.map fun _ => rfl

theorem takeValue_fields (h : TakesStandard float total limit depth room)
    (hhead : (skipSpace s).head? ≠ some '\x7d')
    (hfields : readFields readString (fun _ => readValue float depth) (skipSpace s).length
      (skipSpace s) = some (fields, rest)) (hdepth : depthFields fields ≤ room) :
    Matches (fun u : Json => u.mergeRepeated.rounded) rest
      (readValue Decimal.nearest (depth + 1) (replaceHalves ('\x7b' :: s)))
      (takeValue total limit (room + 1) ('\x7b' :: s)) := by
  have hmatches := takeFields_standard h hfields hdepth (length_skipSpace_le s)
  have hhead' : (skipSpace (replaceHalves s)).head? ≠ some '\x7d' := by
    rwa [skipSpace_replaceHalves, head?_replaceHalves]
  rw [takeFields_skipSpace] at hmatches
  rw [replaceHalves_cons (by decide), readValue_fields hhead', takeValue_brace,
    skipSpace_replaceHalves, length_replaceHalves]
  refine hmatches.map (k := fun fs => obj (Table.ofEntries fs)) fun us => ?_
  rw [← mapFields_ofEntries]
  rfl

theorem takeValue_takes (h : Takes float depth s v rest)
    (hinner : ∀ d room, depth = d + 1 → TakesStandard float total limit d room)
    (hdepth : v.depth ≤ room) (hrest : Stops inScalar rest) :
    Matches (fun u : Json => u.mergeRepeated.rounded) rest
      (readValue Decimal.nearest depth (replaceHalves s)) (takeValue total limit room s) := by
  cases h with
  | null =>
    refine .inl ⟨.null, ?_, takeValue_token "null".toList rfl rfl rfl hrest⟩
    rw [replaceHalves_append (by simp)]
    exact Takes.null.readValue
  | bool b =>
    refine .inl ⟨.bool b, ?_, ?_⟩
    · rw [replaceHalves_append (by cases b <;> simp [write, writeScalar])]
      exact (Takes.bool b).readValue
    · cases b with
      | true => exact takeValue_token "true".toList rfl rfl rfl hrest
      | false => exact takeValue_token "false".toList rfl rfl rfl hrest
  | num hread => exact takeValue_readNumber hread hrest
  | str hkey =>
    obtain ⟨key, hread, htake⟩ := takeString_standard total hkey
    rw [replaceHalves_cons (by decide), readValue_quote, hread, takeValue_quote, htake]
    exact .inl ⟨.str (.ofList key), rfl, rfl⟩
  | noItems hclose =>
    obtain _ | room := room
    · cases hdepth
    refine .inl ⟨.arr [], ?_, ?_⟩
    · rw [replaceHalves_cons (by decide)]
      exact (Takes.noItems (skipSpace_replaceHalves_of_cons hclose (by decide))).readValue
    · rw [takeValue_bracket, takeItems, skipBlank_of_skipSpace hclose rfl]
      rfl
  | items hhead hitems =>
    obtain _ | room := room
    · cases hdepth
    exact takeValue_items (hinner _ room rfl) hhead hitems (Nat.le_of_succ_le_succ hdepth)
  | noFields hclose =>
    obtain _ | room := room
    · cases hdepth
    refine .inl ⟨.obj [], ?_, ?_⟩
    · rw [replaceHalves_cons (by decide)]
      exact (Takes.noFields (skipSpace_replaceHalves_of_cons hclose (by decide))).readValue
    · rw [takeValue_brace, takeFields, skipBlank_of_skipSpace hclose rfl]
      rfl
  | fields hhead hfields =>
    obtain _ | room := room
    · cases hdepth
    exact takeValue_fields (hinner _ room rfl) hhead hfields (Nat.le_of_succ_le_succ hdepth)

/-- **A value that is read as JSON is read in relaxed notation, wherever it stands.** -/
theorem takesStandard (float : FloatReader) (total limit depth room : Nat) :
    TakesStandard float total limit depth room := by
  have hstep {depth : Nat}
      (hinner : ∀ d room, depth = d + 1 → TakesStandard float total limit d room) (room : Nat) :
      TakesStandard float total limit depth room := by
    intro s v rest h hdepth hrest
    have hmatches := takeValue_takes (takes_of_readValue h) hinner hdepth hrest
    rwa [takeValue_skipSpace, ← skipSpace_replaceHalves, readValue_skipSpace] at hmatches
  -- What a container holds is read with one level less, so the induction is on the levels.
  induction depth generalizing room with
  | zero =>
    refine hstep (fun d room hd => ?_) room
    cases hd
  | succ depth ih =>
    refine hstep (fun d room hd => ?_) room
    cases hd
    exact ih room

theorem parse_of_readWith? (h : readWith? float s = some v) (hdepth : v.depth ≤ limit) :
    (∃ u, readNearest? (replaceHalves s) = some u ∧ parse limit s = .ok u.rounded) ∨
      readNearest? (replaceHalves s) = none ∧ parse limit s = .error .nonFinite := by
  obtain ⟨⟨_, rest⟩, hread, hw⟩ := Option.bind_eq_some_iff.1 h
  dsimp only at hw
  split at hw
  case isFalse => cases hw
  case isTrue hempty =>
  cases hw
  have hspace : skipSpace rest = [] := List.isEmpty_iff.1 hempty
  have hblank : skipBlank rest = [] := by
    rw [← skipBlank_skipSpace, hspace]
    rfl
  have hstop : Stops inScalar rest := stops_of_skipSpace (hspace ▸ stops_nil)
  rw [readNearest?, readWith?, parse]
  dsimp only
  obtain ⟨u, hu, htake⟩ | ⟨hu, htake⟩ :=
    takesStandard float (byteLength s) limit maxDepth limit hread hdepth hstop
  · refine .inl ⟨u.mergeRepeated, ?_, ?_⟩
    · rw [hu, Option.bind_eq_bind, Option.bind_some]
      dsimp only
      rw [skipSpace_replaceHalves, hspace]
      rfl
    · rw [htake, ok_bind]
      simp only [hblank]
      rfl
  · exact .inr ⟨by rw [hu]; rfl, by rw [htake]; rfl⟩

/-- **Whatever is read as JSON is read in relaxed notation** if there is room for its containers, by
itself as well as before any other part of a text, unless a number in it is nearest to an infinity.
It is what the reader of JSON texts would read with replacement characters in the place of the
escaped halves and with the nearest numbers, up to how these are stored. So it is the same value
just if these make no difference to the reader of JSON texts. -/
theorem parse_standard (limit : Nat) (s : List Char) :
    (∀ v, readRaw? s = some v → v.depth ≤ limit →
      (∃ u w, readNearest? (replaceHalves s) = some u ∧ parse limit s = .ok w ∧ u.Agrees w ∧
        (v.mergeRepeated.Agrees w ↔ v.mergeRepeated.Agrees u)) ∨
      readNearest? (replaceHalves s) = none ∧ parse limit s = .error .nonFinite) ∧
    ∀ total depth room v rest, readValue Decimal.estimate depth s = some (v, rest) →
      v.depth ≤ room → Stops inScalar rest →
      (∃ u w, readValue Decimal.nearest depth (replaceHalves s) = some (u, replaceHalves rest) ∧
        takeValue total limit room s = .ok (w, rest) ∧ u.mergeRepeated.Agrees w ∧
        (v.mergeRepeated.Agrees w ↔ v.mergeRepeated.Agrees u.mergeRepeated)) ∨
      readValue Decimal.nearest depth (replaceHalves s) = none ∧
        takeValue total limit room s = .error .nonFinite := by
  constructor
  · intro v h hdepth
    obtain ⟨u, hu, hparse⟩ | hnone := parse_of_readWith? h hdepth
    · have hagrees := u.agrees_rounded
      exact .inl ⟨u, u.rounded, hu, hparse, hagrees, hagrees.congr_right⟩
    · exact .inr hnone
  · intro total depth room v rest h hdepth hrest
    obtain ⟨u, hu, htake⟩ | hnone := takesStandard _ total limit depth room h hdepth hrest
    · have hagrees := u.mergeRepeated.agrees_rounded
      exact .inl ⟨u, u.mergeRepeated.rounded, hu, htake, hagrees, hagrees.congr_right⟩
    · exact .inr hnone

/-- An emoji that is escaped as two halves is read as two replacement characters, by itself and as
the first item of an array that is not standard. The number behind it is read as it is written,
though the reader of JSON texts takes it for `1.4`. A number that this reader takes for the greatest
one is refused, since it is nearest to an infinity. -/
theorem parse_standard_halves :
    let x : Json := .num (.float ⟨false, 6305039478318695, 1022, by decide, by decide, by decide⟩)
    let y : Json := .num (.float ⟨false, 6305039478318694, 1022, by decide, by decide, by decide⟩)
    let z : Json := .num (.float ⟨false, 9007199254740991, 2045, by decide, by decide, by decide⟩)
    let v : Json := .arr [.str "😀", y]
    let s := "[\"\\ud83d\\ude00\", 1.4000000000000001]".toList
    let rest := ", 'c',]".toList
    let t := "[179769313486231581e291]".toList
    readRaw? s = some v ∧ readValue Decimal.estimate maxDepth (s ++ rest) = some (v, rest) ∧
      (∃ w, parse 1 s = .ok w ∧ (Json.arr [.str "\ufffd\ufffd", x]).Agrees w) ∧
      (∃ w, takeValue 0 2 1 (s ++ rest) = .ok (w, rest) ∧
        (Json.arr [.str "\ufffd\ufffd", x]).Agrees w) ∧
      readRaw? t = some (.arr [z]) ∧ parse 1 t = .error .nonFinite := by
  intro x y z v s rest t
  let u : Json := .arr [.str "\ufffd\ufffd", x]
  have hraw : readRaw? s = some v := by decide +kernel
  have hread : readValue Decimal.estimate maxDepth (s ++ rest) = some (v, rest) := by
    decide +kernel
  have hnearest : readNearest? (replaceHalves s) = some u := by decide +kernel
  have hnearest' : readValue Decimal.nearest maxDepth (replaceHalves (s ++ rest)) =
      some (u, replaceHalves rest) := by decide +kernel
  have hgreatest : readRaw? t = some (.arr [z]) := by decide +kernel
  have hinfinite : readNearest? (replaceHalves t) = none := by decide +kernel
  refine ⟨hraw, hread, ?_, ?_, hgreatest, ?_⟩
  · obtain ⟨u', w, hu, hparse, hagrees, -⟩ | ⟨hnone, -⟩ := (parse_standard 1 s).1 v hraw (by decide)
    · cases hnearest.symm.trans hu
      exact ⟨w, hparse, hagrees⟩
    · cases hnearest.symm.trans hnone
  · obtain ⟨u', w, hu, htake, hagrees, -⟩ | ⟨hnone, -⟩ :=
      (parse_standard 2 (s ++ rest)).2 0 maxDepth 1 v rest hread (by decide) (stops_cons rfl)
    · cases hnearest'.symm.trans hu
      exact ⟨w, htake, hagrees⟩
    · cases hnearest'.symm.trans hnone
  · obtain ⟨_, _, hu, -⟩ | ⟨-, hparse⟩ := (parse_standard 1 t).1 (.arr [z]) hgreatest (by decide)
    · cases hinfinite.symm.trans hu
    · exact hparse

end Literal.Relaxed

end StatVars
