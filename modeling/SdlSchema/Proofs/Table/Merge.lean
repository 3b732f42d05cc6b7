import SdlSchema.Proofs.Table

/-!
# The merge of two tables

A table is determined by its keys and what it holds under them
(`eq_of_keys_of_get?`).  So inserting pairs one after another is the same as
merging with the table of the pairs (`insertAll_eq_merge`).
-/

namespace SdlSchema.Table

variable {α : Type}

/-- The keys of the first table and then those that only the second one has.  Under a key of both
tables stands the value of the second one. -/
def merge (t u : Table α) : Table α where
  entries := t.entries.map (fun e => (e.1, (u.get? e.1).getD e.2)) ++
    u.entries.filter fun e => e.1 ∉ t.keys
  nodup := by
    rw [List.map_append, List.map_map]
    refine List.nodup_append.2 ⟨t.nodup, ?_, ?_⟩
    · exact u.nodup.sublist (List.filter_sublist.map Prod.fst)
    · rintro k hk _ hk' rfl
      obtain ⟨e, he, rfl⟩ := List.mem_map.1 hk'
      exact absurd hk (of_decide_eq_true (List.mem_filter.1 he).2)

theorem keys_merge (t u : Table α) :
    (t.merge u).keys = t.keys ++ u.keys.filter fun k => k ∉ t.keys := by
  rw [keys, merge, List.map_append, List.map_map, keys, keys, List.filter_map]
  rfl

theorem mem_entries_merge {t u : Table α} {k : String} {v : α} :
    (k, v) ∈ (t.merge u).entries ↔
      (∃ w, t.get? k = some w ∧ (u.get? k).getD w = v) ∨ u.get? k = some v ∧ k ∉ t.keys := by
  simp only [merge, List.mem_append, List.mem_map, List.mem_filter, mem_entries_iff,
    decide_eq_true_eq]
  refine or_congr ⟨?_, ?_⟩ Iff.rfl
  · rintro ⟨⟨k, w⟩, he, heq⟩
    cases heq
    exact ⟨w, mem_entries_iff.1 he, rfl⟩
  · rintro ⟨w, hw, rfl⟩
    exact ⟨(k, w), mem_entries_iff.2 hw, rfl⟩

theorem get?_merge (t u : Table α) (k : String) :
    (t.merge u).get? k = (u.get? k).or (t.get? k) := by
  ext v
  rw [← mem_entries_iff, mem_entries_merge, mem_keys_iff]
  cases t.get? k <;> cases u.get? k <;> simp

theorem eq_of_keys_of_get? {t u : Table α} (hkeys : t.keys = u.keys)
    (hget : ∀ k, t.get? k = u.get? k) : t = u := by
  have hentries (t : Table α) :
      t.entries.map some = t.keys.map fun k => (t.get? k).map fun v => (k, v) := by
    rw [keys, List.map_map]
    refine List.map_congr_left fun e he => ?_
    rw [Function.comp_apply, mem_entries_iff.1 he]
    rfl
  refine ext ((List.map_inj_right fun _ _ => Option.some.inj).1 ?_)
  rw [hentries t, hentries u, hkeys]
  simp only [hget]

theorem merge_empty (t : Table α) : t.merge empty = t := by
  refine eq_of_keys_of_get? ?_ fun k => ?_
  · rw [keys_merge]
    exact List.append_nil t.keys
  · rw [get?_merge]
    rfl

theorem merge_insert (t u : Table α) (k : String) (v : α) :
    t.merge (u.insert k v) = (t.merge u).insert k v := by
  refine eq_of_keys_of_get? ?_ fun k' => ?_
  · rw [keys_merge, keys_insert, keys_insert, keys_merge]
    by_cases hu : k ∈ u.keys <;> by_cases ht : k ∈ t.keys <;> simp [hu, ht]
  · rw [get?_merge, get?_insert, get?_insert, get?_merge]
    split <;> rfl

theorem merge_insertAll (t u : Table α) (ps : List (String × α)) :
    t.merge (u.insertAll ps) = (t.merge u).insertAll ps := by
  induction ps generalizing u with
  | nil => rfl
  | cons p ps ih => rw [insertAll_cons, insertAll_cons, ih, merge_insert]

/-- Inserting pairs is merging with the table of the pairs. -/
theorem insertAll_eq_merge (t : Table α) (ps : List (String × α)) :
    t.insertAll ps = t.merge (ofList ps) := by
  rw [ofList_eq, merge_insertAll, merge_empty]

theorem ofList_append (ps qs : List (String × α)) :
    ofList (ps ++ qs) = (ofList ps).merge (ofList qs) := by
  rw [← insertAll_eq_merge, ofList_eq, ofList_eq, insertAll, insertAll, insertAll,
    List.foldl_append]

end SdlSchema.Table
