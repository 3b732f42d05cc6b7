import SdlSchema.Table

/-!
# Tables as finite maps

What a table says of its keys and values after any sequence of insertions.
`keys_insertAll`: the keys stand in the order in which they first came.
`get?_insertAll`: the value under a key is the one that came last.  A map over
the values (`Table.map`) goes through the insertions.
-/

namespace SdlSchema.Table

variable {α β : Type}

/-! ## Lists without repetitions -/

theorem eraseDups_of_nodup {l : List String} (h : l.Nodup) : l.eraseDups = l := by
  induction l with
  | nil => rfl
  | cons k l ih =>
    obtain ⟨hk, hl⟩ := List.nodup_cons.1 h
    have hfilter : l.filter (fun b => !b == k) = l := by
      refine List.filter_eq_self.2 fun b hb => ?_
      have hne : b ≠ k := fun e => hk (e ▸ hb)
      simp [hne]
    rw [List.eraseDups_cons, hfilter, ih hl]

/-- A key that is there already adds nothing. -/
theorem eraseDups_append_cons {l r : List String} {k : String} (h : k ∈ l) :
    (l ++ k :: r).eraseDups = (l ++ r).eraseDups := by
  have hremove : (k :: r).removeAll l = r.removeAll l := by simp [List.removeAll, h]
  rw [List.eraseDups_append, List.eraseDups_append, hremove]

/-! ## Entries -/

theorem mem_entries_iff {t : Table α} {k : String} {v : α} :
    (k, v) ∈ t.entries ↔ t.get? k = some v := by
  obtain ⟨es, hes⟩ := t
  simp only [get?, lookup]
  induction es with
  | nil => simp
  | cons e es ih =>
    obtain ⟨hk, hes⟩ := List.nodup_cons.1 hes
    by_cases h : e.1 = k
    · have hv : ∀ v', (k, v') ∉ es := fun v' hv' => hk (h ▸ List.mem_map_of_mem hv')
      subst h
      simp only [List.mem_cons, hv v, or_false, List.find?_cons, decide_true, Option.map_some,
        Option.some.injEq]
      exact ⟨fun he => (congrArg Prod.snd he).symm, fun he => he ▸ rfl⟩
    · have hne : (k, v) ≠ e := fun he => h (he ▸ rfl)
      simp only [List.mem_cons, hne, false_or, List.find?_cons, h, decide_false]
      exact ih hes

theorem mem_keys_iff {t : Table α} {k : String} : k ∈ t.keys ↔ ∃ v, t.get? k = some v := by
  simp only [keys, List.mem_map, ← mem_entries_iff]
  constructor
  · rintro ⟨⟨k, v⟩, he, rfl⟩
    exact ⟨v, he⟩
  · rintro ⟨v, he⟩
    exact ⟨(k, v), he, rfl⟩

/-! ## Sequences of insertions -/

/-- Inserts the pairs from left to right. -/
def insertAll (t : Table α) (ps : List (String × α)) : Table α :=
  ps.foldl (fun t p => t.insert p.1 p.2) t

@[simp] theorem insertAll_nil (t : Table α) : t.insertAll [] = t := rfl

@[simp] theorem insertAll_cons (t : Table α) (p : String × α) (ps : List (String × α)) :
    t.insertAll (p :: ps) = (t.insert p.1 p.2).insertAll ps := rfl

theorem ofList_eq (ps : List (String × α)) : ofList ps = empty.insertAll ps := rfl

/-- The keys stand in the order in which they first came. -/
theorem keys_insertAll (t : Table α) (ps : List (String × α)) :
    (t.insertAll ps).keys = (t.keys ++ ps.map Prod.fst).eraseDups := by
  induction ps generalizing t with
  | nil =>
    have hkeys : t.keys.eraseDups = t.keys := eraseDups_of_nodup t.nodup
    rw [insertAll_nil, List.map_nil, List.append_nil, hkeys]
  | cons p ps ih =>
    rw [insertAll_cons, ih, keys_insert, List.map_cons]
    split
    · next h => rw [eraseDups_append_cons h]
    · rw [List.append_assoc, List.singleton_append]

/-- The value under a key is the one that came last. -/
theorem get?_insertAll (t : Table α) (ps : List (String × α)) (k : String) :
    (t.insertAll ps).get? k =
      ((ps.reverse.find? fun p => p.1 = k).map Prod.snd).or (t.get? k) := by
  induction ps generalizing t with
  | nil => simp
  | cons p ps ih =>
    rw [insertAll_cons, ih, get?_insert, List.reverse_cons, List.find?_append]
    cases ps.reverse.find? fun p => p.1 = k with
    | some q => rfl
    | none =>
      by_cases h : p.1 = k <;> simp [h]

theorem keys_ofList (ps : List (String × α)) : (ofList ps).keys = (ps.map Prod.fst).eraseDups :=
  keys_insertAll empty ps

theorem get?_ofList (ps : List (String × α)) (k : String) :
    (ofList ps).get? k = (ps.reverse.find? fun p => p.1 = k).map Prod.snd := by
  rw [ofList_eq, get?_insertAll]
  exact Option.or_none

/-! ## Maps over the values -/

/-- The same keys with the images of their values. -/
def map (f : α → β) (t : Table α) : Table β where
  entries := t.entries.map fun e => (e.1, f e.2)
  nodup := by
    rw [List.map_map]
    exact t.nodup

theorem put_map (f : α → β) (k : String) (v : α) (es : List (String × α)) :
    put k (f v) (es.map fun e => (e.1, f e.2)) = (put k v es).map fun e => (e.1, f e.2) := by
  induction es with
  | nil => rfl
  | cons e es ih =>
    simp only [List.map_cons, put]
    split
    · rfl
    · rw [ih, List.map_cons]

theorem map_insert (f : α → β) (t : Table α) (k : String) (v : α) :
    (t.insert k v).map f = (t.map f).insert k (f v) :=
  ext (put_map f k v t.entries).symm

theorem map_insertAll (f : α → β) (t : Table α) (ps : List (String × α)) :
    (t.insertAll ps).map f = (t.map f).insertAll (ps.map fun p => (p.1, f p.2)) := by
  induction ps generalizing t with
  | nil => rfl
  | cons p ps ih => rw [insertAll_cons, ih, map_insert, List.map_cons, insertAll_cons]

theorem map_ofList (f : α → β) (ps : List (String × α)) :
    (ofList ps).map f = ofList (ps.map fun p => (p.1, f p.2)) :=
  map_insertAll f empty ps

end SdlSchema.Table
