import StatVars.Json.Record
import StatVars.Proofs.JsonText

/-!
# Records that are read back

An object whose names differ and are all those of fields of a record is read as the list of its
fields, with their numbers as they are read from their texts, if it is nested no deeper than the
reader goes. Main statement: `Json.readRecord?_write`.
-/

namespace StatVars.Json

open Text

variable {names : List String} {fields : List (String × Json)}

theorem readsWithin_readMember {name : String} (hname : name ∈ names) (length : Nat) :
    ReadsWithin (maxDepth - 1) (readMember names length name) := by
  rw [readMember, if_pos hname]
  exact readsWithin_readValue _

theorem filter_names (f : Number → Number) (hnames : ∀ e ∈ fields, e.1 ∈ names) :
    ((mapFields f fields).filter fun e => e.1 ∈ names) = mapFields f fields := by
  refine List.filter_eq_self.2 fun e he => decide_eq_true ?_
  rw [mapFields_eq_map] at he
  obtain ⟨g, hg, rfl⟩ := List.mem_map.1 he
  exact hnames g hg

theorem mapM_asStr? (texts : List String) : (texts.map str).mapM asStr? = some texts := by
  induction texts with
  | nil => rfl
  | cons text texts ih => simp [List.mapM_cons, ih, asStr?]

/-- **A record is read back just if it is nested no deeper than the reader goes.** -/
theorem readRecord?_write (hnames : ∀ f ∈ fields, f.1 ∈ names)
    (hkeys : (Table.keys fields).Nodup) :
    readRecord? names (obj fields).write =
      if (obj fields).depth ≤ maxDepth then some (mapFields Number.reread fields) else none := by
  cases fields with
  | nil => rfl
  | cons f fields =>
    obtain ⟨t, htext⟩ := exists_writeFields_cons f fields
    have hfuel : fields.length < (writeFields (f :: fields) ++ ['\x7d']).length := by
      have hlength := length_le_writeFields (f :: fields)
      simp only [List.length_append, List.length_cons] at hlength ⊢
      omega
    have hread := readFields_writeFields
      (readMember names (writeFields (f :: fields) ++ ['\x7d']).length) f fields
      (fun g hg => readsWithin_readMember (hnames g hg) _) [] hfuel
    have hdepth : (obj (f :: fields)).depth ≤ maxDepth ↔
        depthFields (f :: fields) ≤ maxDepth - 1 := by
      simp only [depth, maxDepth]
      omega
    have hskip : skipSpace (writeFields (f :: fields) ++ ['\x7d']) =
        writeFields (f :: fields) ++ ['\x7d'] := by
      rw [htext]
      exact skipSpace_of_stops (stops_cons rfl)
    have hwrite : (obj (f :: fields)).write =
        '\x7b' :: (writeFields (f :: fields) ++ ['\x7d']) := rfl
    rw [hwrite, readRecord?, skipSpace_cons (c := '\x7b') rfl]
    simp only [hskip]
    split
    · next heq =>
      rw [htext] at heq
      cases heq
    · rw [hread]
      by_cases hd : depthFields (f :: fields) ≤ maxDepth - 1
      · have hdiffer : namesDiffer (mapFields Number.reread (f :: fields)) :=
          decide_eq_true (keys_mapFields _ (f :: fields) ▸ hkeys)
        simp only [if_pos hd, if_pos (hdepth.2 hd), Option.bind_eq_bind, Option.bind_some,
          filter_names _ hnames, hdiffer]
        rfl
      · rw [if_neg hd, if_neg (mt hdepth.1 hd)]
        rfl

end StatVars.Json
