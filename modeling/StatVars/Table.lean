/-!
# Tables in order of insertion

A table is a list of entries, each with a key of its own. A new key goes to the end, writing to a
key that is there leaves it in its place, and removing a key moves nothing else. Looking up a key
finds the first entry that has it.
-/

namespace StatVars

/-- Entries in order, each a key and what it holds. -/
abbrev Table (κ α : Type) := List (κ × α)

namespace Table

variable {κ α : Type} [DecidableEq κ]

def get? : Table κ α → κ → Option α
  | [], _ => none
  | (k', a) :: t, k => if k' = k then some a else get? t k

/-- Whether there is an entry with the key. -/
def contains (t : Table κ α) (k : κ) : Bool :=
  (get? t k).isSome

/-- The table in which `k` holds `a`. -/
def insert : Table κ α → κ → α → Table κ α
  | [], k, a => [(k, a)]
  | (k', a') :: t, k, a => if k' = k then (k', a) :: t else (k', a') :: insert t k a

def keep (p : κ → Bool) (t : Table κ α) : Table κ α :=
  t.filter fun e => p e.1

def erase (t : Table κ α) (k : κ) : Table κ α :=
  keep (· ≠ k) t

/-- The table with what `k` holds replaced by what `f` makes of it, if there is an entry of `k` and
`f` makes anything of it. -/
def modify? (f : α → Option α) : Table κ α → κ → Option (Table κ α)
  | [], _ => none
  | (k', a) :: t, k =>
    if k' = k then (f a).map fun b => (k', b) :: t
    else (modify? f t k).map fun t => (k', a) :: t

def keys (t : Table κ α) : List κ :=
  t.map (·.1)

/-- The table after the entries are written to it one after the other. -/
def insertAll (t : Table κ α) (entries : List (κ × α)) : Table κ α :=
  entries.foldl (fun t e => insert t e.1 e.2) t

/-- The table that the entries build: a repeated key has its first place and its last value. -/
def ofEntries (entries : List (κ × α)) : Table κ α :=
  insertAll [] entries

@[simp] theorem get?_nil (k : κ) : get? ([] : Table κ α) k = none := rfl

theorem get?_cons (k' : κ) (a : α) (t : Table κ α) (k : κ) :
    get? ((k', a) :: t) k = if k' = k then some a else get? t k := rfl

theorem get?_insert (t : Table κ α) (k : κ) (a : α) (j : κ) :
    get? (insert t k a) j = if k = j then some a else get? t j := by
  induction t with
  | nil => rfl
  | cons e t ih => grind [insert, get?]

theorem get?_keep (p : κ → Bool) (t : Table κ α) (k : κ) :
    get? (keep p t) k = if p k then get? t k else none := by
  induction t with
  | nil => simp [keep]
  | cons e t ih => grind [keep, get?]

theorem get?_erase (t : Table κ α) (k j : κ) :
    get? (erase t k) j = if k = j then none else get? t j := by
  rw [erase, get?_keep]
  grind

theorem get?_modify? {f : α → Option α} {t t' : Table κ α} {k : κ} (h : modify? f t k = some t')
    (j : κ) : get? t' j = if k = j then (get? t j).bind f else get? t j := by
  induction t generalizing t' with
  | nil => simp [modify?] at h
  | cons e t ih =>
    simp only [modify?] at h
    split at h <;> obtain ⟨b, hb, rfl⟩ := Option.map_eq_some_iff.1 h <;> grind [get?]

@[simp] theorem get?_insert_self (t : Table κ α) (k : κ) (a : α) :
    get? (insert t k a) k = some a := by
  rw [get?_insert, if_pos rfl]

@[simp] theorem insert_insert (t : Table κ α) (k : κ) (a b : α) :
    insert (insert t k a) k b = insert t k b := by
  induction t with
  | nil => simp [insert]
  | cons e t ih => grind [insert]

theorem insert_of_get? {t : Table κ α} {k : κ} {a : α} (h : get? t k = some a) :
    insert t k a = t := by
  induction t with
  | nil => cases h
  | cons e t ih => grind [insert, get?]

theorem insert_of_get?_eq_none {t : Table κ α} {k : κ} (h : get? t k = none) (a : α) :
    insert t k a = t ++ [(k, a)] := by
  induction t with
  | nil => rfl
  | cons e t ih =>
    rw [get?_cons] at h
    split at h
    · cases h
    · next hk => rw [insert, if_neg hk, ih h, List.cons_append]

theorem modify?_of_get? {f : α → Option α} {t : Table κ α} {k : κ} {a : α}
    (h : get? t k = some a) : modify? f t k = (f a).map (insert t k) := by
  induction t with
  | nil => cases h
  | cons e t ih =>
    rw [get?_cons] at h
    simp only [modify?, insert]
    split at h
    · next hk => cases h; simp only [if_pos hk]
    · next hk =>
      simp only [if_neg hk, ih h, Option.map_map]
      rfl

theorem modify?_of_get?_eq_none {f : α → Option α} {t : Table κ α} {k : κ}
    (h : get? t k = none) : modify? f t k = none := by
  induction t with
  | nil => rfl
  | cons e t ih =>
    rw [get?_cons] at h
    split at h
    · cases h
    · next hk => rw [modify?, if_neg hk, ih h, Option.map_none]

@[simp] theorem contains_insert (t : Table κ α) (k : κ) (a : α) (j : κ) :
    contains (insert t k a) j = (decide (k = j) || contains t j) := by
  rw [contains, get?_insert]
  split <;> simp [*, contains]

@[simp] theorem contains_erase (t : Table κ α) (k j : κ) :
    contains (erase t k) j = (decide (k ≠ j) && contains t j) := by
  rw [contains, get?_erase]
  split <;> simp [*, contains]

theorem contains_of_get? {t : Table κ α} {k : κ} {a : α} (h : get? t k = some a) :
    contains t k := by
  rw [contains, h]
  rfl

/-- A value that is put in the place of another brings no new key. -/
theorem contains_insert_of_get? {t : Table κ α} {k : κ} {a : α} (h : get? t k = some a) (b : α)
    (j : κ) : contains (insert t k b) j = contains t j := by
  rw [contains_insert]
  by_cases hk : k = j
  · subst hk
    simp [contains_of_get? h]
  · simp [hk]

theorem mem_of_get? {t : Table κ α} {k : κ} {a : α} (h : get? t k = some a) : (k, a) ∈ t := by
  induction t with
  | nil => cases h
  | cons e t ih =>
    rw [get?_cons] at h
    split at h
    · next hk => cases h; subst hk; exact .head _
    · exact .tail _ (ih h)

theorem mem_insert {t : Table κ α} {k : κ} {a : α} {e : κ × α} (h : e ∈ insert t k a) :
    e ∈ t ∨ e = (k, a) := by
  induction t with
  | nil => exact .inr (List.mem_singleton.1 h)
  | cons e' t ih => grind [insert]

end Table

end StatVars
