import StatVars.Proofs.Blocks
import StatVars.Proofs.Slices

/-!
# Blocks as slices

The blocks to be left out can be found by a loop that keeps a place in bytes and looks for the next
tag from there on, in the slice of the text up to the end of the enclosing block. Tags begin and end
between characters, so that each slice exists, and the loop ends since each tag is behind the one
before. Main statement: `Tag.nestedSlices?_eq`.
-/

namespace StatVars

open Text

theorem Text.sliceBytes_of_slice? {start stop : Nat} {s t : List Char}
    (h : slice? start stop s = some t) : sliceBytes start stop s = t := by
  obtain ⟨u, v, rfl, rfl, rfl⟩ := slice?_eq_some_iff.1 h
  rw [sliceBytes, dropBytes_append, Nat.add_sub_cancel_left, takeBytes_append]

namespace Tag

variable {tag? : List Char → Option (List Char)} {name text s t u v rest : List Char}
  {place stop fuel : Nat} {mayBeOpen : Bool} {r w : Span}

/-! ## The loop -/

/-- The part that the first tag takes from a place on, in the text up to byte `stop`. It fails if
the text cannot be cut there, or at the place. -/
def findSlice? (tag? : List Char → Option (List Char)) (text : List Char) (place stop : Nat) :
    Option (Option Span) :=
  (slice? 0 stop text).bind fun t => (sliceFrom? place t).map fun s =>
    (find? tag? s).map fun (t, rest) => ⟨position stop t, position stop rest⟩

/-- A tag takes a character at least. -/
theorem exists_cons_of_find? (htag : ∀ s rest, tag? s = some rest → rest <:+ s)
    (h : find? tag? s = some (t, rest)) : ∃ c s', t = c :: s' ∧ rest <:+ s' := by
  induction s with
  | nil => cases h
  | cons c s ih =>
    rw [find?] at h
    split at h
    · next hfound =>
      cases h
      split at hfound
      · exact ⟨c, s, rfl, htag s rest hfound⟩
      · cases hfound
    · exact ih h

theorem lt_of_findSlice? (htag : ∀ s rest, tag? s = some rest → rest <:+ s)
    (h : findSlice? tag? text place stop = some (some r)) : place < r.stop := by
  unfold findSlice? at h
  obtain ⟨a, ha, h⟩ := Option.bind_eq_some_iff.1 h
  obtain ⟨s, hs, h⟩ := Option.map_eq_some_iff.1 h
  obtain ⟨⟨t, rest⟩, hfind, rfl⟩ := Option.map_eq_some_iff.1 h
  obtain ⟨-, -, -, -, hstop⟩ := slice?_eq_some_iff.1 ha
  obtain ⟨u, rfl, rfl⟩ := sliceFrom?_eq_some_iff.1 hs
  have hle := byteLength_le_of_suffix (suffix_of_find? htag hfind).1
  obtain ⟨c, s', rfl, hrest⟩ := exists_cons_of_find? htag hfind
  have hlt := byteLength_le_of_suffix hrest
  have hpos := c.utf8Size_pos
  rw [byteLength_append] at hstop
  rw [byteLength_cons] at hle
  dsimp only [position]
  omega

/-- The insides of the blocks from a place on, unless the text cannot be cut where it has to be. -/
def blockSlices? (name text : List Char) (stop : Nat) (mayBeOpen : Bool) (place : Nat) :
    Option (List Span) :=
  if place < stop then
    match _hopen : findSlice? (openTag? name) text place stop with
    | none => none
    | some none => some []
    | some (some opening) =>
      match _hclose : findSlice? (closeTag? name) text opening.stop stop with
      | none => none
      | some none => some (if mayBeOpen then [⟨opening.stop, stop⟩] else [])
      | some (some closing) =>
        (blockSlices? name text stop mayBeOpen closing.stop).map
          (⟨opening.stop, closing.start⟩ :: ·)
  else some []
termination_by stop - place
decreasing_by
  have hopening := lt_of_findSlice? (fun _ _ => suffix_of_openTag?) _hopen
  have hclosing := lt_of_findSlice? (fun _ _ => suffix_of_closeTag?) _hclose
  omega

/-- The insides of the blocks `inner` within the blocks `outer`, unless the text cannot be cut where
it has to be. -/
def nestedSlices? (outer inner text : List Char) : Option (List Span) :=
  (blockSlices? outer text (byteLength text) true 0).bind fun ws =>
    (ws.mapM fun w => blockSlices? inner text w.stop false w.start).map List.flatten

/-! ## Its slices -/

theorem findSlice?_eq (h : slice? place stop text = some s) : findSlice? tag? text place stop =
    some ((find? tag? s).map fun (t, rest) => ⟨position stop t, position stop rest⟩) := by
  obtain ⟨u, v, rfl, rfl, rfl⟩ := slice?_eq_some_iff.1 h
  have hfront : slice? 0 (byteLength u + byteLength s) (u ++ (s ++ v)) = some (u ++ s) :=
    slice?_eq_some_iff.2 ⟨[], v, by simp, rfl, by simp⟩
  have hbehind : sliceFrom? (byteLength u) (u ++ s) = some s :=
    sliceFrom?_eq_some_iff.2 ⟨u, rfl, rfl⟩
  rw [findSlice?, hfront, Option.bind_some, hbehind, Option.map_some]

/-- The end of a slice is a slice. -/
theorem slice?_of_suffix (h : slice? place stop text = some s) (ht : t <:+ s) :
    slice? (position stop t) stop text = some t := by
  obtain ⟨u, v, rfl, rfl, rfl⟩ := slice?_eq_some_iff.1 h
  obtain ⟨a, rfl⟩ := ht
  refine slice?_eq_some_iff.2 ⟨u ++ a, v, by simp, ?_, ?_⟩
  all_goals simp only [position, byteLength_append]; omega

theorem blocksFrom_nil : blocksFrom name stop mayBeOpen fuel [] = [] := by
  cases fuel <;> rfl

/-- **All slices exist, and the blocks are those that are found in the part itself.** -/
theorem blockSlices?_eq (h : slice? place stop text = some s) (hfuel : s.length < fuel) :
    blockSlices? name text stop mayBeOpen place = some (blocksFrom name stop mayBeOpen fuel s) := by
  induction fuel generalizing place s with
  | zero => exact absurd hfuel (Nat.not_lt_zero _)
  | succ fuel ih =>
    obtain ⟨u, v, -, -, hs⟩ := slice?_eq_some_iff.1 h
    rw [blockSlices?]
    by_cases hlt : place < stop
    · rw [if_pos hlt, findSlice?_eq h, blocksFrom]
      cases hopen : find? (openTag? name) s with
      | none => rfl
      | some found =>
        obtain ⟨opening, inside⟩ := found
        obtain ⟨hopening, hinside⟩ := suffix_of_find? (fun _ _ => suffix_of_openTag?) hopen
        have hslice := slice?_of_suffix h (hinside.trans hopening)
        dsimp only [Option.map_some]
        rw [findSlice?_eq hslice]
        cases hclose : find? (closeTag? name) inside with
        | none => rfl
        | some found =>
          obtain ⟨closing, rest⟩ := found
          obtain ⟨hclosing, hrest⟩ := suffix_of_find? (fun _ _ => suffix_of_closeTag?) hclose
          have hshort : rest.length < fuel := by
            obtain ⟨c, s', rfl, hs'⟩ := exists_cons_of_find? (fun _ _ => suffix_of_openTag?) hopen
            have hle := ((hrest.trans hclosing).trans hs').length_le
            have hle' := hopening.length_le
            rw [List.length_cons] at hle'
            omega
          have hrest : rest <:+ s := hrest.trans (hclosing.trans (hinside.trans hopening))
          dsimp only [Option.map_some]
          rw [ih (slice?_of_suffix h hrest) hshort]
          rfl
    · have hnil : s = [] := by
        cases s with
        | nil => rfl
        | cons c s =>
          have hpos := c.utf8Size_pos
          rw [byteLength_cons] at hs
          omega
      rw [if_neg hlt, hnil, blocksFrom_nil]

theorem boundary_of_mem_blocksFrom (h : slice? place stop text = some s)
    (hr : r ∈ blocksFrom name stop mayBeOpen fuel s) :
    Boundary r.start text ∧ Boundary r.stop text := by
  induction fuel generalizing place s with
  | zero => cases hr
  | succ fuel ih =>
    have hboundary {t : List Char} (ht : t <:+ s) :
        Boundary (position stop t) text ∧ Boundary stop text :=
      (isSome_slice?_iff.1 (Option.isSome_iff_exists.2 ⟨t, slice?_of_suffix h ht⟩)).2
    rw [blocksFrom] at hr
    split at hr
    · cases hr
    · next opening inside hopen =>
      obtain ⟨hopening, hinside⟩ := suffix_of_find? (fun _ _ => suffix_of_openTag?) hopen
      have hinside : inside <:+ s := hinside.trans hopening
      dsimp only at hr
      split at hr
      · next closing rest hclose =>
        obtain ⟨hclosing, hrest⟩ := suffix_of_find? (fun _ _ => suffix_of_closeTag?) hclose
        have hclosing : closing <:+ s := hclosing.trans hinside
        obtain rfl | hr := List.mem_cons.1 hr
        · exact ⟨(hboundary hinside).1, (hboundary hclosing).1⟩
        · exact ih (slice?_of_suffix h (hrest.trans hclosing)) hr
      · split at hr
        · cases List.mem_singleton.1 hr
          exact hboundary hinside
        · cases hr

theorem slice?_whole (text : List Char) : slice? 0 (byteLength text) text = some text :=
  slice?_eq_some_iff.2 ⟨[], [], by simp, rfl, Nat.zero_add _⟩

/-- A block within a slice is a slice. -/
theorem isSome_slice?_of_mem_blocks (hwithin : (slice? w.start w.stop text).isSome)
    (hr : r ∈ blocks name text w mayBeOpen) : (slice? r.start r.stop text).isSome := by
  have hordered := (within_of_mem_blocks (isSome_slice?_iff.1 hwithin).1 hr).ordered
  obtain ⟨s, hs⟩ := Option.isSome_iff_exists.1 hwithin
  rw [blocks, sliceBytes_of_slice? hs] at hr
  exact isSome_slice?_iff.2 ⟨hordered, boundary_of_mem_blocksFrom hs hr⟩

theorem isSome_slice?_of_mem_nestedBlocks {outer inner : List Char}
    (hr : r ∈ nestedBlocks outer inner text) : (slice? r.start r.stop text).isSome := by
  obtain ⟨w, hw, hr⟩ := List.mem_flatMap.1 hr
  have hwhole : (slice? 0 (byteLength text) text).isSome := by rw [slice?_whole]; rfl
  exact isSome_slice?_of_mem_blocks (isSome_slice?_of_mem_blocks hwhole hw) hr

theorem blockSlices?_eq_blocks (hwithin : (slice? w.start w.stop text).isSome) :
    blockSlices? name text w.stop mayBeOpen w.start = some (blocks name text w mayBeOpen) := by
  obtain ⟨s, hs⟩ := Option.isSome_iff_exists.1 hwithin
  rw [blocks, sliceBytes_of_slice? hs]
  exact blockSlices?_eq hs (Nat.lt_succ_self _)

theorem mapM_eq_some {α β : Type} {f : α → Option β} {g : α → β} {l : List α}
    (h : ∀ a ∈ l, f a = some (g a)) : l.mapM f = some (l.map g) := by
  induction l with
  | nil => rfl
  | cons a l ih =>
    obtain ⟨ha, hl⟩ := List.forall_mem_cons.1 h
    rw [List.mapM_cons, ha, ih hl]
    rfl

/-- **All slices exist, and the blocks are those to be left out.** -/
theorem nestedSlices?_eq (outer inner text : List Char) :
    nestedSlices? outer inner text = some (nestedBlocks outer inner text) := by
  let whole : Span := ⟨0, byteLength text⟩
  have hwhole : (slice? whole.start whole.stop text).isSome :=
    Option.isSome_iff_exists.2 ⟨text, slice?_whole text⟩
  have houter : blockSlices? outer text (byteLength text) true 0 =
      some (blocks outer text whole true) := blockSlices?_eq_blocks hwhole
  have hinner (w : Span) (hw : w ∈ blocks outer text whole true) :
      blockSlices? inner text w.stop false w.start = some (blocks inner text w false) :=
    blockSlices?_eq_blocks (isSome_slice?_of_mem_blocks hwhole hw)
  rw [nestedSlices?, houter, Option.bind_some, mapM_eq_some hinner, Option.map_some,
    nestedBlocks, List.flatMap]

end Tag

end StatVars
