import StatVars.Json.Basic

/-!
# Values without repeated names

In a regular value no object has two fields of one name. What `Json.mergeRepeated` makes of a value
is regular, and a regular value is left as it is. Merging nests nothing deeper.
-/

namespace StatVars

namespace Table

variable {κ α : Type} [DecidableEq κ] {t u entries : Table κ α} {k : κ}

theorem get?_eq_none_iff : get? t k = none ↔ k ∉ keys t := by
  induction t with
  | nil => simp [keys]
  | cons e t ih =>
    rw [get?_cons, keys, List.map_cons, List.mem_cons, not_or]
    split
    · next hk => simp [hk]
    · next hk => exact ih.trans (and_iff_right (Ne.symm hk)).symm

theorem insert_of_not_mem (a : α) (h : k ∉ keys t) : insert t k a = t ++ [(k, a)] :=
  insert_of_get?_eq_none (get?_eq_none_iff.2 h) a

theorem keys_insert_of_mem (a : α) (h : k ∈ keys t) : keys (insert t k a) = keys t := by
  induction t with
  | nil => cases h
  | cons e t ih =>
    rw [insert]
    split
    · rfl
    · next hne =>
      have hrest : k ∈ keys t := (List.mem_cons.1 h).resolve_left (Ne.symm hne)
      exact congrArg (e.1 :: ·) (ih hrest)

theorem keys_insert (t : Table κ α) (k : κ) (a : α) :
    keys (insert t k a) = if k ∈ keys t then keys t else keys t ++ [k] := by
  split
  · next hk => exact keys_insert_of_mem a hk
  · next hk =>
    rw [insert_of_not_mem a hk, keys, List.map_append]
    rfl

theorem nodup_keys_insert (h : (keys t).Nodup) (k : κ) (a : α) :
    (keys (insert t k a)).Nodup := by
  rw [keys_insert]
  split
  · exact h
  · next hk =>
    refine List.nodup_append.2 ⟨h, by simp, fun j hj i hi hne => ?_⟩
    rw [List.mem_singleton.1 hi] at hne
    exact hk (hne ▸ hj)

theorem nodup_keys_insertAll (h : (keys t).Nodup) (entries : List (κ × α)) :
    (keys (insertAll t entries)).Nodup := by
  induction entries generalizing t with
  | nil => exact h
  | cons e entries ih => exact ih (nodup_keys_insert h e.1 e.2)

/-- **No key is repeated in a table that entries build.** -/
theorem nodup_keys_ofEntries (entries : List (κ × α)) : (keys (ofEntries entries)).Nodup :=
  nodup_keys_insertAll (t := []) List.nodup_nil entries

theorem mem_insertAll {e : κ × α} (h : e ∈ insertAll t entries) : e ∈ t ∨ e ∈ entries := by
  induction entries generalizing t with
  | nil => exact .inl h
  | cons e' entries ih =>
    rcases ih h with h | h
    · rcases mem_insert h with h | rfl
      · exact .inl h
      · exact .inr (.head _)
    · exact .inr (.tail _ h)

theorem mem_ofEntries {e : κ × α} (h : e ∈ ofEntries entries) : e ∈ entries :=
  (mem_insertAll h).resolve_left nofun

theorem insertAll_of_nodup (h : (keys (t ++ entries)).Nodup) :
    insertAll t entries = t ++ entries := by
  induction entries generalizing t with
  | nil => exact (List.append_nil t).symm
  | cons e entries ih =>
    have hsplit : t ++ e :: entries = t ++ [e] ++ entries := by simp
    have hnew : e.1 ∉ keys t := by
      intro hmem
      rw [keys, List.map_append, List.nodup_append] at h
      exact h.2.2 e.1 hmem e.1 (.head _) rfl
    rw [hsplit] at h ⊢
    rw [← ih h, ← insert_of_not_mem e.2 hnew]
    rfl

/-- Entries whose keys differ are a table. -/
theorem ofEntries_of_nodup (h : (keys entries).Nodup) : ofEntries entries = entries :=
  insertAll_of_nodup (t := []) h

theorem insert_map {β : Type} (g : α → β) (t : Table κ α) (k : κ) (a : α) :
    insert (t.map (Prod.map id g)) k (g a) = (insert t k a).map (Prod.map id g) := by
  induction t with
  | nil => rfl
  | cons e t ih =>
    rw [List.map_cons, insert, Prod.map, insert, ih]
    dsimp only [id]
    split <;> rfl

theorem insertAll_map {β : Type} (g : α → β) (t : Table κ α) (entries : List (κ × α)) :
    insertAll (t.map (Prod.map id g)) (entries.map (Prod.map id g)) =
      (insertAll t entries).map (Prod.map id g) := by
  induction entries generalizing t with
  | nil => rfl
  | cons e entries ih =>
    rw [List.map_cons]
    show insertAll (insert _ e.1 (g e.2)) _ = _
    rw [insert_map, ih]
    rfl

/-- Entries build the same table whether their values are replaced before or after. -/
theorem ofEntries_map {β : Type} (g : α → β) (entries : List (κ × α)) :
    ofEntries (entries.map (Prod.map id g)) = (ofEntries entries).map (Prod.map id g) :=
  insertAll_map g [] entries

theorem get?_append (t u : Table κ α) (k : κ) : get? (t ++ u) k = (get? t k).or (get? u k) := by
  induction t with
  | nil => rfl
  | cons e t ih =>
    rw [List.cons_append, get?_cons, get?_cons, ih]
    split <;> rfl

theorem get?_of_mem (hkeys : (keys t).Nodup) {e : κ × α} (he : e ∈ t) :
    get? t e.1 = some e.2 := by
  induction t with
  | nil => cases he
  | cons e' t ih =>
    obtain ⟨hnew, hkeys⟩ := List.nodup_cons.1 hkeys
    rw [get?_cons]
    obtain rfl | he := List.mem_cons.1 he
    · exact if_pos rfl
    · have hk : e'.1 ≠ e.1 := fun hk => hnew (List.mem_map.2 ⟨e, he, hk.symm⟩)
      rw [if_neg hk]
      exact ih hkeys he

end Table

namespace Json

variable {P : Number → Prop} {v : Json} {d : Nat}

/-! ## Depth -/

theorem depthItems_le {items : List Json} : depthItems items ≤ d ↔ ∀ v ∈ items, v.depth ≤ d := by
  induction items with
  | nil => simp [depthItems]
  | cons v items ih => rw [depthItems, Nat.max_le, ih, List.forall_mem_cons]

theorem depthFields_le {fields : List (String × Json)} :
    depthFields fields ≤ d ↔ ∀ f ∈ fields, f.2.depth ≤ d := by
  induction fields with
  | nil => simp [depthFields]
  | cons f fields ih => rw [depthFields, Nat.max_le, ih, List.forall_mem_cons]

mutual

theorem depth_mergeRepeated_le (v : Json) : v.mergeRepeated.depth ≤ v.depth := by
  cases v with
  | arr items => exact Nat.succ_le_succ (depthItems_mergeItems_le items)
  | obj fields =>
    refine Nat.succ_le_succ (depthFields_le.2 fun f hf => ?_)
    exact depthFields_le.1 (depthFields_mergeFields_le fields) f (Table.mem_ofEntries hf)
  | _ => exact Nat.le_refl _

theorem depthItems_mergeItems_le (items : List Json) :
    depthItems (mergeItems items) ≤ depthItems items := by
  match items with
  | [] => exact Nat.le_refl _
  | v :: items =>
    have hfirst := depth_mergeRepeated_le v
    have hrest := depthItems_mergeItems_le items
    rw [mergeItems, depthItems, depthItems]
    omega

theorem depthFields_mergeFields_le (fields : List (String × Json)) :
    depthFields (mergeFields fields) ≤ depthFields fields := by
  match fields with
  | [] => exact Nat.le_refl _
  | (k, v) :: fields =>
    have hfirst := depth_mergeRepeated_le v
    have hrest := depthFields_mergeFields_le fields
    rw [mergeFields, depthFields, depthFields]
    omega

end

/-! ## Regular values -/

/-- No object in the value repeats a name, and the numbers in it are of the kind. -/
inductive Regular (P : Number → Prop) : Json → Prop
  | scalar {v : Json} (hv : v.isScalar) (hnum : ∀ n, v = .num n → P n) : Regular P v
  | arr {items : List Json} (h : ∀ v ∈ items, Regular P v) : Regular P (.arr items)
  | obj {fields : List (String × Json)} (hkeys : (Table.keys fields).Nodup)
    (h : ∀ f ∈ fields, Regular P f.2) : Regular P (.obj fields)

theorem Regular.mono {Q : Number → Prop} (h : v.Regular P) (hPQ : ∀ n, P n → Q n) :
    v.Regular Q := by
  induction h with
  | scalar hv hnum => exact .scalar hv fun n hn => hPQ n (hnum n hn)
  | arr _ ih => exact .arr ih
  | obj hkeys _ ih => exact .obj hkeys ih

theorem Regular.num {n : Number} (h : (Json.num n).Regular P) : P n := by
  cases h with
  | scalar _ hnum => exact hnum n rfl

theorem Regular.items {items : List Json} (h : (Json.arr items).Regular P) :
    ∀ v ∈ items, v.Regular P := by
  cases h with
  | scalar hv => cases hv
  | arr h => exact h

theorem Regular.fields {fields : List (String × Json)} (h : (Json.obj fields).Regular P) :
    (Table.keys fields).Nodup ∧ ∀ f ∈ fields, f.2.Regular P := by
  cases h with
  | scalar hv => cases hv
  | obj hkeys h => exact ⟨hkeys, h⟩

/-- The fields of an object are merged. -/
theorem Regular.ofEntries {fields : List (String × Json)} (h : ∀ f ∈ fields, f.2.Regular P) :
    (Json.obj (Table.ofEntries fields)).Regular P :=
  .obj (Table.nodup_keys_ofEntries fields) fun f hf => h f (Table.mem_ofEntries hf)

mutual

theorem regular_mergeRepeated (v : Json) : v.mergeRepeated.Regular fun _ => True := by
  cases v with
  | arr items => exact .arr (regular_mergeItems items)
  | obj fields => exact .ofEntries (regular_mergeFields fields)
  | _ => exact .scalar rfl fun _ _ => trivial

theorem regular_mergeItems (items : List Json) :
    ∀ v ∈ mergeItems items, v.Regular fun _ => True := by
  match items with
  | [] => nofun
  | v :: items =>
    exact List.forall_mem_cons.2 ⟨regular_mergeRepeated v, regular_mergeItems items⟩

theorem regular_mergeFields (fields : List (String × Json)) :
    ∀ f ∈ mergeFields fields, f.2.Regular fun _ => True := by
  match fields with
  | [] => nofun
  | (k, v) :: fields =>
    exact List.forall_mem_cons.2 ⟨regular_mergeRepeated v, regular_mergeFields fields⟩

end

theorem regular_of_mergeRepeated (h : v.mergeRepeated = v) : v.Regular fun _ => True :=
  h ▸ regular_mergeRepeated v

/-- **There is nothing to merge in a regular value.** -/
theorem Regular.mergeRepeated (h : v.Regular P) : v.mergeRepeated = v := by
  induction h with
  | @scalar v hv =>
    cases v with
    | arr | obj => cases hv
    | _ => rfl
  | @arr items h ih =>
    refine congrArg Json.arr ?_
    clear h
    induction items with
    | nil => rfl
    | cons v items ihitems =>
      rw [List.forall_mem_cons] at ih
      rw [mergeItems, ih.1, ihitems ih.2]
  | @obj fields hkeys h ih =>
    have hmerge : mergeFields fields = fields := by
      clear hkeys h
      induction fields with
      | nil => rfl
      | cons f fields ihfields =>
        rw [List.forall_mem_cons] at ih
        rw [mergeFields, ih.1, ihfields ih.2]
    rw [Json.mergeRepeated, hmerge, Table.ofEntries_of_nodup hkeys]

end Json

end StatVars
