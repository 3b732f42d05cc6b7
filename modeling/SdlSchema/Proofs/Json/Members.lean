import Mathlib.Data.List.Induction
import SdlSchema.Json.Value

/-!
# Sorted members

Sorting the members of an object keeps, for each key, the value that came last
(`CanonicalJson.get?_sortMembers`).  Sorted members are determined by the value
under each key (`Json.eq_of_get?`), so two lists that have the same last value
under every key are sorted to the same object (`CanonicalJson.object_congr`).
-/

namespace SdlSchema

namespace Json

/-- The value of the last member with the given key. -/
def last? {α : Type} (key : String) (fields : List (String × α)) : Option α :=
  (fields.reverse.find? fun f => f.1 = key).map Prod.snd

section

variable {α β : Type} {key : String} {fields fields' : List (String × α)} {v : α}

theorem mem_of_find? (h : (fields.find? fun f => f.1 = key).map Prod.snd = some v) :
    (key, v) ∈ fields := by
  obtain ⟨⟨k, v'⟩, hfind, rfl⟩ := Option.map_eq_some_iff.1 h
  obtain rfl : k = key := by simpa using List.find?_some hfind
  exact List.mem_of_find?_eq_some hfind

theorem last?_append :
    last? key (fields ++ fields') = (last? key fields').or (last? key fields) := by
  rw [last?, last?, last?, List.reverse_append, List.find?_append, Option.map_or]

theorem last?_cons (f : String × α) (fields : List (String × α)) :
    last? key (f :: fields) = (last? key fields).or (if f.1 = key then some f.2 else none) := by
  rw [← List.singleton_append, last?_append]
  by_cases h : f.1 = key <;> simp [last?, h]

theorem last?_map (g : α → β) :
    last? key (fields.map fun f => (f.1, g f.2)) = (last? key fields).map g := by
  rw [last?, last?, ← List.map_reverse, List.find?_map, Option.map_map, Option.map_map]
  rfl

theorem isSome_last?_iff : (last? key fields).isSome ↔ key ∈ fields.map Prod.fst := by
  rw [last?, Option.isSome_map, List.find?_isSome]
  simp

/-- A member is the last one of its key if no later one has that key. -/
theorem last?_of_not_mem (before : List (String × α)) (h : key ∉ fields.map Prod.fst) :
    last? key (before ++ (key, v) :: fields) = some v := by
  have hnone : last? key fields = none := by
    rw [← Option.not_isSome_iff_eq_none, isSome_last?_iff]
    exact h
  rw [last?_append, last?_cons, hnone, if_pos rfl]
  rfl

/-- If no key repeats, each member is the last one of its key. -/
theorem last?_eq_some_iff_of_nodup (h : (fields.map Prod.fst).Nodup) :
    last? key fields = some v ↔ (key, v) ∈ fields := by
  constructor
  · exact fun hlast => List.mem_reverse.1 (mem_of_find? hlast)
  · intro hmem
    obtain ⟨before, after, rfl⟩ := List.append_of_mem hmem
    rw [List.map_append, List.map_cons, List.nodup_append, List.nodup_cons] at h
    exact last?_of_not_mem before h.2.1.1

theorem last?_congr_perm (hperm : fields.Perm fields') (h : (fields.map Prod.fst).Nodup) :
    last? key fields = last? key fields' := by
  refine Option.ext fun v => ?_
  rw [last?_eq_some_iff_of_nodup h,
    last?_eq_some_iff_of_nodup ((hperm.map Prod.fst).nodup_iff.1 h), hperm.mem_iff]

end

/-! ## Members by key -/

theorem get?_object_cons (key : String) (m : String × Json) (ms : List (String × Json)) :
    get? key (object (m :: ms)) = if m.1 = key then some m.2 else get? key (object ms) := by
  unfold get?
  by_cases h : m.1 = key <;> simp [h]

theorem get?_object_self (m : String × Json) (ms : List (String × Json)) :
    get? m.1 (object (m :: ms)) = some m.2 := by
  rw [get?_object_cons, if_pos rfl]

theorem get?_putSorted (key k : String) (value : Json) (ms : List (String × Json)) :
    get? k (object (putSorted key value ms)) =
      if key = k then some value else get? k (object ms) := by
  induction ms with
  | nil => rw [putSorted, get?_object_cons]
  | cons m ms ih =>
    unfold putSorted
    split
    · rw [get?_object_cons]
    · split
      · next hkey =>
        subst hkey
        rw [get?_object_cons, get?_object_cons]
        split <;> rfl
      · next hkey =>
        rw [get?_object_cons, get?_object_cons, ih]
        by_cases hk : m.1 = k
        · subst hk
          rw [if_pos rfl, if_pos rfl, if_neg (Ne.symm hkey)]
        · rw [if_neg hk, if_neg hk]

theorem mem_keys_iff_get? {key : String} {ms : List (String × Json)} :
    key ∈ ms.map Prod.fst ↔ ∃ v, get? key (object ms) = some v := by
  induction ms with
  | nil => simp [get?]
  | cons m ms ih =>
    rw [List.map_cons, List.mem_cons, get?_object_cons, ih]
    by_cases h : m.1 = key
    · simp [h]
    · simp [h, Ne.symm h]

theorem mem_of_get? {key : String} {ms : List (String × Json)} {v : Json}
    (h : get? key (object ms) = some v) : (key, v) ∈ ms := mem_of_find? h

theorem get?_of_lt_keys {key : String} {ms : List (String × Json)}
    (h : ∀ k ∈ ms.map Prod.fst, key < k) : get? key (object ms) = none := by
  by_contra hne
  obtain ⟨v, hv⟩ := Option.ne_none_iff_exists'.1 hne
  exact String.lt_irrefl key (h key (mem_keys_iff_get?.2 ⟨v, hv⟩))

/-- The first of sorted keys is no greater than any key with a value. -/
theorem first_key_le {key : String} {m : String × Json} {ms : List (String × Json)} {v : Json}
    (h : ((m :: ms).map Prod.fst).Pairwise (· < ·)) (hv : get? key (object (m :: ms)) = some v) :
    m.1 ≤ key := by
  rw [List.map_cons, List.pairwise_cons] at h
  rcases List.mem_cons.1 (mem_keys_iff_get?.2 ⟨v, hv⟩) with rfl | hkey
  · exact String.le_refl m.1
  · exact String.not_lt.1 fun hlt => String.lt_irrefl key (String.lt_trans hlt (h.1 key hkey))

/-- Sorted members are determined by the values under the keys. -/
theorem eq_of_get? {ms ns : List (String × Json)} (hms : (ms.map Prod.fst).Pairwise (· < ·))
    (hns : (ns.map Prod.fst).Pairwise (· < ·))
    (h : ∀ key, get? key (object ms) = get? key (object ns)) : ms = ns := by
  induction ms generalizing ns with
  | nil =>
    cases ns with
    | nil => rfl
    | cons n ns => cases (h n.1).trans (get?_object_self n ns)
  | cons m ms ih =>
    cases ns with
    | nil => cases (get?_object_self m ms).symm.trans (h m.1)
    | cons n ns =>
      -- Each of the first keys has a value in the other list, so neither is smaller.
      have hkey : m.1 = n.1 := String.le_antisymm
        (first_key_le hms ((h n.1).trans (get?_object_self n ns)))
        (first_key_le hns ((h m.1).symm.trans (get?_object_self m ms)))
      have hvalue : m.2 = n.2 := by
        have hm := h m.1
        rw [get?_object_self, hkey, get?_object_self] at hm
        exact Option.some.inj hm
      rw [List.map_cons, List.pairwise_cons] at hms hns
      have hrest : ms = ns := by
        refine ih hms.2 hns.2 fun key => ?_
        by_cases hk : m.1 = key
        · rw [get?_of_lt_keys (hk ▸ hms.1), get?_of_lt_keys (hk ▸ hkey ▸ hns.1)]
        · have hrest := h key
          rwa [get?_object_cons, get?_object_cons, if_neg hk, if_neg (hkey ▸ hk)] at hrest
      rw [Prod.ext hkey hvalue, hrest]

end Json

namespace CanonicalJson

/-- The value under a key is the one that came last. -/
theorem get?_sortMembers (key : String) (fields : List (String × CanonicalJson)) :
    Json.get? key (.object (sortMembers fields)) = (Json.last? key fields).map json := by
  induction fields using List.reverseRecOn with
  | nil => rfl
  | append_singleton fields f ih =>
    rw [sortMembers, List.foldl_append]
    change Json.get? key (.object (Json.putSorted f.1 f.2.json (sortMembers fields))) = _
    rw [Json.get?_putSorted, ih, Json.last?_append, Json.last?_cons]
    by_cases h : f.1 = key <;> simp [h, Json.last?]

theorem mem_keys_sortMembers {key : String} {fields : List (String × CanonicalJson)} :
    key ∈ (sortMembers fields).map Prod.fst ↔ key ∈ fields.map Prod.fst := by
  rw [Json.mem_keys_iff_get?, get?_sortMembers, ← Option.isSome_iff_exists, Option.isSome_map,
    Json.isSome_last?_iff]

/-- Only the last value of each key counts. -/
theorem object_congr {fields fields' : List (String × CanonicalJson)}
    (h : ∀ key, Json.last? key fields = Json.last? key fields') :
    object fields = object fields' := by
  have hmembers : sortMembers fields = sortMembers fields' := by
    refine Json.eq_of_get? (canonical_sortMembers fields).1 (canonical_sortMembers fields').1 ?_
    intro key
    rw [get?_sortMembers, get?_sortMembers, h]
  unfold object
  simp only [hmembers]

end CanonicalJson

end SdlSchema
