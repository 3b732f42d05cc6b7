/-!
# Tables in insertion order

A table maps strings to values and remembers the order in which its keys first
came.  Inserting under a key that is already there replaces the value and
leaves the key where it stands, so the order is that of first occurrences and
the values are those of the last ones.
-/

namespace SdlSchema

/-- Finitely many entries under pairwise distinct keys, in a fixed order. -/
structure Table (α : Type) where
  entries : List (String × α)
  nodup : (entries.map Prod.fst).Nodup

namespace Table

variable {α β : Type}

/-! ## Entry lists -/

/-- Puts a value under a key: in place if the key is there, else at the end. -/
def put (k : String) (v : α) : List (String × α) → List (String × α)
  | [] => [(k, v)]
  | e :: es => if e.1 = k then (k, v) :: es else e :: put k v es

theorem keys_put (k : String) (v : α) (es : List (String × α)) :
    (put k v es).map Prod.fst =
      if k ∈ es.map Prod.fst then es.map Prod.fst else es.map Prod.fst ++ [k] := by
  induction es with
  | nil => simp [put]
  | cons e es ih =>
    by_cases h : e.1 = k
    · simp [put, h]
    · simp only [put, h, if_false, List.map_cons, ih, List.mem_cons, Ne.symm h, false_or]
      split <;> simp

theorem nodup_put (k : String) (v : α) {es : List (String × α)}
    (h : (es.map Prod.fst).Nodup) : ((put k v es).map Prod.fst).Nodup := by
  rw [keys_put]
  split
  · exact h
  · next hk => exact List.nodup_append.2 ⟨h, by simp, by
      intro a ha b hb hab
      simp only [List.mem_singleton] at hb
      exact hk (hb ▸ hab ▸ ha)⟩

/-- The value of the entry under a key. -/
def lookup (k : String) (es : List (String × α)) : Option α :=
  (es.find? fun e => e.1 = k).map Prod.snd

theorem lookup_put (k k' : String) (v : α) (es : List (String × α)) :
    lookup k' (put k v es) = if k = k' then some v else lookup k' es := by
  induction es with
  | nil => by_cases h : k = k' <;> simp [put, lookup, h]
  | cons e es ih =>
    by_cases he : e.1 = k
    · by_cases h : k = k' <;> simp [put, lookup, he, h]
    · by_cases h : e.1 = k'
      · subst h
        simp [put, lookup, he, Ne.symm he]
      · simp only [lookup] at ih
        simp [put, lookup, he, h, ih]

/-! ## Tables -/

def empty : Table α := ⟨[], List.nodup_nil⟩

instance : Inhabited (Table α) := ⟨empty⟩

/-- Puts a value under a key, which keeps its place if it has one and else comes last. -/
def insert (t : Table α) (k : String) (v : α) : Table α :=
  ⟨put k v t.entries, nodup_put k v t.nodup⟩

/-- The table that results from inserting the pairs from left to right. -/
def ofList (pairs : List (String × α)) : Table α :=
  pairs.foldl (fun t p => t.insert p.1 p.2) empty

/-- The keys in the order in which they first came. -/
def keys (t : Table α) : List String := t.entries.map Prod.fst

def size (t : Table α) : Nat := t.entries.length

/-- The value under a key. -/
def get? (t : Table α) (k : String) : Option α := lookup k t.entries

@[ext] theorem ext {s t : Table α} (h : s.entries = t.entries) : s = t := by
  cases s; cases t; cases h; rfl

@[simp] theorem entries_empty : (empty : Table α).entries = [] := rfl

theorem keys_insert (t : Table α) (k : String) (v : α) :
    (t.insert k v).keys = if k ∈ t.keys then t.keys else t.keys ++ [k] :=
  keys_put k v t.entries

theorem get?_insert (t : Table α) (k k' : String) (v : α) :
    (t.insert k v).get? k' = if k = k' then some v else t.get? k' :=
  lookup_put k k' v t.entries

end Table

end SdlSchema
