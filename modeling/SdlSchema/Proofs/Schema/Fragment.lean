import SdlSchema.Schema.Fragment
import SdlSchema.Table
import SdlSchema.Proofs.Json.Grammar

/-!
# A fragment is determined by its members

The first member tells a reference from the other fragments, and `items` tells
a list from a primitive type.  A list that holds its element under a `type`
keyword is not one that holds it directly: there the keyword has an object, in
a fragment it has a string.
-/

namespace SdlSchema.Schema

open Function (Injective)

/-! ## Members -/

/-- Lists that are split at the only entry under a key agree piece by piece. -/
theorem append_entry_inj {α : Type} {key : String} {v v' : α} {as as' bs bs' : List (String × α)}
    (has : key ∉ as.map Prod.fst) (has' : key ∉ as'.map Prod.fst)
    (h : as ++ (key, v) :: bs = as' ++ (key, v') :: bs') : as = as' ∧ v = v' ∧ bs = bs' := by
  induction as generalizing as' with
  | nil =>
    cases as' with
    | nil => simpa using h
    | cons a' as' =>
      have hkey : (key, v) = a' := (List.cons.inj h).1
      exact absurd (List.mem_cons.2 (Or.inl (congrArg Prod.fst hkey))) has'
  | cons a as ih =>
    cases as' with
    | nil =>
      have hkey : a = (key, v') := (List.cons.inj h).1
      exact absurd (List.mem_cons.2 (Or.inl (congrArg Prod.fst hkey).symm)) has
    | cons a' as' =>
      obtain ⟨rfl, htail⟩ := List.cons.inj h
      rw [List.map_cons, List.mem_cons, not_or] at has has'
      obtain ⟨rfl, hv, hbs⟩ := ih has.2 has'.2 htail
      exact ⟨rfl, hv, hbs⟩

theorem entries_map_injective {α : Type} {f : α → Json} (hf : Injective f) :
    Injective fun t : Table α => t.entries.map fun e => (e.1, f e.2) := by
  intro t t' h
  refine Table.ext (List.map_injective_iff.2 ?_ h)
  intro e e' he
  obtain ⟨hk, hv⟩ := Prod.mk.inj he
  exact Prod.ext hk (hf hv)

theorem distinct_entries {α : Type} {f : α → Json} (hf : ∀ v, (f v).Distinct) (t : Table α) :
    (Json.object (t.entries.map fun e => (e.1, f e.2))).Distinct := by
  rw [Json.distinct_object, List.map_map]
  refine ⟨t.nodup, fun m hm => ?_⟩
  obtain ⟨e, _, rfl⟩ := List.mem_map.1 hm
  exact hf e.2

theorem array_map_injective {α : Type} {f : α → Json} (hf : Injective f) :
    Injective fun vs : List α => Json.array (vs.map f) := fun _ _ h =>
  List.map_injective_iff.2 hf (Json.array.inj h)

theorem distinct_map {α : Type} {f : α → Json} (hf : ∀ v, (f v).Distinct) (vs : List α) :
    (Json.array (vs.map f)).Distinct := by
  rw [Json.distinct_array]
  intro j hj
  obtain ⟨v, _, rfl⟩ := List.mem_map.1 hj
  exact hf v

/-- A member that is left out where there is no value. -/
def optionalMember {α : Type} (key : String) (f : α → Json) : Option α → List (String × Json)
  | none => []
  | some v => [(key, f v)]

theorem optionalMember_injective {α : Type} (key : String) {f : α → Json} (hf : Injective f) :
    Injective (optionalMember key f) := by
  intro v? v?' h
  cases v? with
  | none =>
    cases v?' with
    | none => rfl
    | some v' => cases h
  | some v =>
    cases v?' with
    | none => cases h
    | some v' =>
      have hvalue : f v = f v' := (Prod.mk.inj (List.cons.inj h).1).2
      rw [hf hvalue]

theorem keys_optionalMember {α : Type} (key : String) (f : α → Json) (v? : Option α) :
    ((optionalMember key f v?).map Prod.fst).Sublist [key] := by
  cases v? with
  | none => exact List.nil_sublist _
  | some v => exact List.Sublist.refl _

theorem distinct_optionalMember {α : Type} (key : String) {f : α → Json}
    (hf : ∀ v, (f v).Distinct) (v? : Option α) :
    ∀ m ∈ optionalMember key f v?, m.2.Distinct := by
  cases v? with
  | none => simp [optionalMember]
  | some v => simp [optionalMember, hf v]

theorem string_injective : Injective Json.string := fun _ _ h => Json.string.inj h

theorem bool_injective : Injective Json.bool := fun _ _ h => Json.bool.inj h

theorem json_injective : Injective CanonicalJson.json := by
  rintro ⟨j, hj⟩ ⟨j', hj'⟩ rfl
  rfl

theorem distinct_json (v : CanonicalJson) : v.json.Distinct := v.canonical.distinct

/-! ## Fragments -/

theorem Primitive.name_injective : Injective name := by
  intro p p' h
  have hname := ofName?_name p
  rw [h, ofName?_name] at hname
  exact (Option.some.inj hname).symm

namespace Fragment

theorem requiredMember_eq (r : Option Bool) :
    requiredMember r = optionalMember "required" Json.bool r := by
  cases r <;> rfl

theorem requiredMember_injective : Injective requiredMember := by
  intro r r' h
  rw [requiredMember_eq, requiredMember_eq] at h
  exact optionalMember_injective "required" bool_injective h

/-- Only a marker can follow the keyword of a primitive type. -/
theorem requiredMember_ne_items (r : Option Bool) (j : Json) (ms : List (String × Json)) :
    requiredMember r ≠ ("items", j) :: ms := by
  cases r <;> simp [requiredMember]

/-- A `type` keyword in `items` cannot be that of the element itself, which is a string. -/
theorem wrap_inj {items items' : Items} {f f' : Fragment}
    (h : items.wrap (.object f.members) = items'.wrap (.object f'.members)) :
    items = items' ∧ f.members = f'.members := by
  have hnested (g g' : Fragment) : [("type", Json.object g.members)] ≠ g'.members := by
    cases g' <;> simp [members]
  cases items with
  | nested =>
    cases items' with
    | nested => simpa [Items.wrap] using h
    | direct => exact absurd (Json.object.inj h) (hnested f f')
  | direct =>
    cases items' with
    | nested => exact absurd (Json.object.inj h).symm (hnested f' f)
    | direct => simpa [Items.wrap] using h

theorem members_injective : Injective members := by
  intro f
  induction f with
  | primitive type r =>
    intro f' h
    cases f' with
    | primitive type' r' =>
      simp only [members, List.cons.injEq, Prod.mk.injEq, true_and, Json.string.injEq] at h
      rw [Primitive.name_injective h.1, requiredMember_injective h.2]
    | reference target' r' => simp [members] at h
    | array items' element' r' => exact absurd (List.cons.inj h).2 (requiredMember_ne_items _ _ _)
  | reference target r =>
    intro f' h
    cases f' with
    | primitive type' r' => simp [members] at h
    | reference target' r' =>
      simp only [members, List.cons.injEq, Prod.mk.injEq, true_and, Json.string.injEq] at h
      rw [h.1, requiredMember_injective h.2]
    | array items' element' r' => simp [members] at h
  | array items element r ih =>
    intro f' h
    cases f' with
    | primitive type' r' =>
      exact absurd (List.cons.inj h).2.symm (requiredMember_ne_items _ _ _)
    | reference target' r' => simp [members] at h
    | array items' element' r' =>
      simp only [members, List.cons.injEq, Prod.mk.injEq, true_and] at h
      obtain ⟨hitems, helement⟩ := wrap_inj h.1
      rw [hitems, ih helement, requiredMember_injective h.2]

theorem toJson_injective : Injective toJson := fun _ _ h => members_injective (Json.object.inj h)

theorem keys_requiredMember (r : Option Bool) :
    ((requiredMember r).map Prod.fst).Sublist ["required"] := by
  rw [requiredMember_eq]
  exact keys_optionalMember "required" Json.bool r

theorem keys_members (f : Fragment) :
    (f.members.map Prod.fst).Sublist ["type", "$ref", "items", "required"] := by
  cases f with
  | primitive type r => exact (((keys_requiredMember r).cons _).cons _).cons_cons _
  | reference target r => exact (((keys_requiredMember r).cons _).cons_cons _).cons _
  | array items element r => exact (((keys_requiredMember r).cons_cons _).cons _).cons_cons _

theorem distinct_requiredMember (r : Option Bool) :
    ∀ m ∈ requiredMember r, m.2.Distinct := by
  rw [requiredMember_eq]
  exact distinct_optionalMember "required" Json.distinct_bool r

theorem distinct_toJson (f : Fragment) : f.toJson.Distinct := by
  refine Json.distinct_object.2 ⟨f.keys_members.nodup (by decide), ?_⟩
  induction f with
  | primitive type r => simpa [members] using distinct_requiredMember r
  | reference target r => simpa [members] using distinct_requiredMember r
  | array items element r ih =>
    have helement : (Json.object element.members).Distinct :=
      Json.distinct_object.2 ⟨element.keys_members.nodup (by decide), ih⟩
    have hitems : (items.wrap (.object element.members)).Distinct := by
      cases items with
      | nested => simpa [Items.wrap, Json.distinct_object] using helement
      | direct => exact helement
    simpa [members, hitems] using distinct_requiredMember r

end Fragment

end SdlSchema.Schema
