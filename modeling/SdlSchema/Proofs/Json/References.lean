import SdlSchema.Convert.Value
import SdlSchema.Proofs.Sdl.Names

/-!
# References in a JSON value

`Refers` finds the strings that stand under the key `$ref` in some object of a
value, however deep.  A value that comes from a GraphQL constant has none
(`not_refers_toJson`), since a dollar sign is no part of a name.
-/

namespace SdlSchema

namespace Json

/-- The string stands under the key `$ref` somewhere in the value. -/
inductive Refers (target : String) : Json → Prop
  | here {ms : List (String × Json)} (member : ("$ref", string target) ∈ ms) :
      Refers target (object ms)
  | member {ms : List (String × Json)} {m : String × Json} (member : m ∈ ms)
      (nested : Refers target m.2) : Refers target (object ms)
  | element {es : List Json} {e : Json} (element : e ∈ es) (nested : Refers target e) :
      Refers target (array es)

variable {target : String}

@[simp] theorem not_refers_null : ¬ Refers target null := nofun

@[simp] theorem not_refers_bool (b : Bool) : ¬ Refers target (bool b) := nofun

@[simp] theorem not_refers_number (n : Number) : ¬ Refers target (number n) := nofun

@[simp] theorem not_refers_string (s : String) : ¬ Refers target (string s) := nofun

@[simp] theorem refers_array {es : List Json} :
    Refers target (array es) ↔ ∃ e ∈ es, Refers target e := by
  constructor
  · rintro (_ | _ | ⟨he, h⟩)
    exact ⟨_, he, h⟩
  · rintro ⟨e, he, h⟩
    exact .element he h

@[simp] theorem refers_object {ms : List (String × Json)} :
    Refers target (object ms) ↔ ∃ m ∈ ms, m = ("$ref", string target) ∨ Refers target m.2 := by
  constructor
  · rintro (h | ⟨hm, h⟩ | _)
    · exact ⟨_, h, Or.inl rfl⟩
    · exact ⟨_, hm, Or.inr h⟩
  · rintro ⟨m, hm, rfl | h⟩
    · exact .here hm
    · exact .member hm h

theorem refers_array_map {α : Type} {as : List α} {f : α → Json} :
    Refers target (array (as.map f)) ↔ ∃ a ∈ as, Refers target (f a) := by
  rw [refers_array]
  constructor
  · rintro ⟨e, he, h⟩
    obtain ⟨a, ha, rfl⟩ := List.mem_map.1 he
    exact ⟨a, ha, h⟩
  · rintro ⟨a, ha, h⟩
    exact ⟨f a, List.mem_map_of_mem ha, h⟩

/-- An object of objects refers to what these refer to, whatever its keys are. -/
theorem refers_object_map {α : Type} {es : List (String × α)} {f : α → Json}
    (hf : ∀ a, ∃ ms, f a = object ms) :
    Refers target (object (es.map fun e => (e.1, f e.2))) ↔ ∃ e ∈ es, Refers target (f e.2) := by
  rw [refers_object]
  constructor
  · rintro ⟨m, hm, h⟩
    obtain ⟨e, he, rfl⟩ := List.mem_map.1 hm
    rcases h with h | h
    · obtain ⟨ms, hms⟩ := hf e.2
      rw [hms] at h
      cases congrArg Prod.snd h
    · exact ⟨e, he, h⟩
  · rintro ⟨e, he, h⟩
    exact ⟨_, List.mem_map_of_mem he, Or.inr h⟩

theorem mem_putSorted {key : String} {value : Json} {ms : List (String × Json)}
    {m : String × Json} (h : m ∈ putSorted key value ms) : m = (key, value) ∨ m ∈ ms := by
  induction ms with
  | nil => exact Or.inl (List.mem_singleton.1 h)
  | cons m' ms ih =>
    unfold putSorted at h
    split at h
    · exact List.mem_cons.1 h
    · split at h
      · rcases List.mem_cons.1 h with h | h
        · exact Or.inl h
        · exact Or.inr (List.mem_cons_of_mem m' h)
      · rcases List.mem_cons.1 h with rfl | h
        · exact Or.inr List.mem_cons_self
        · exact (ih h).imp_right (List.mem_cons_of_mem m')

end Json

/-! ## Constants -/

namespace CanonicalJson

theorem mem_sortMembers {fields : List (String × CanonicalJson)} {m : String × Json}
    (h : m ∈ sortMembers fields) : ∃ f ∈ fields, m = (f.1, f.2.json) := by
  suffices hfold : ∀ ms : List (String × Json),
      m ∈ fields.foldl (fun ms f => Json.putSorted f.1 f.2.json ms) ms →
        m ∈ ms ∨ ∃ f ∈ fields, m = (f.1, f.2.json) from (hfold [] h).resolve_left List.not_mem_nil
  clear h
  induction fields with
  | nil => exact fun ms h => Or.inl h
  | cons f fields ih =>
    intro ms h
    rcases ih _ h with h | ⟨f', hf', rfl⟩
    · rcases Json.mem_putSorted h with rfl | h
      · exact Or.inr ⟨f, List.mem_cons_self, rfl⟩
      · exact Or.inl h
    · exact Or.inr ⟨f', List.mem_cons_of_mem f hf', rfl⟩

end CanonicalJson

namespace Sdl

theorem IsName.ne_ref {s : String} (h : IsName s) : s ≠ "$ref" := by
  rintro rfl
  exact absurd h (by decide)

namespace Const

theorem not_refers_number (target : String) (n : Decimal.Numeral) :
    ¬ Json.Refers target n.toJson.json := by
  unfold Decimal.Numeral.toJson
  split
  · exact Json.not_refers_number _
  · split
    · exact Json.not_refers_number _
    · exact Json.not_refers_string _

mutual

/-- No string stands under `$ref` in the value of a constant. -/
theorem not_refers_toJson (target : String) :
    ∀ c : Const, (∀ n ∈ c.names, IsName n) → ¬ Json.Refers target c.toJson.json
  | .null, _ => Json.not_refers_null
  | .boolean b, _ => Json.not_refers_bool b
  | .number n, _ => not_refers_number target n
  | .string s, _ => Json.not_refers_string s
  | .enum n, _ => Json.not_refers_string n
  | .variable n, _ => Json.not_refers_string ("$" ++ n)
  | .list es, h => by
    intro href
    obtain ⟨j, hj, href⟩ := Json.refers_array.1 href
    obtain ⟨v, hv, rfl⟩ := List.mem_map.1 hj
    exact not_refers_elementsToJson target es h v hv href
  | .object fs, h => by
    intro href
    obtain ⟨m, hm, href⟩ := Json.refers_object.1 href
    obtain ⟨f, hf, rfl⟩ := CanonicalJson.mem_sortMembers hm
    obtain ⟨hkey, hvalue⟩ := not_refers_fieldsToJson target fs h f hf
    rcases href with href | href
    · exact hkey.ne_ref (congrArg Prod.fst href)
    · exact hvalue href

theorem not_refers_elementsToJson (target : String) :
    ∀ es : List Const, (∀ n ∈ namesOfElements es, IsName n) →
      ∀ v ∈ elementsToJson es, ¬ Json.Refers target v.json
  | [], _ => nofun
  | e :: es, h => by
    intro v hv
    rcases List.mem_cons.1 hv with rfl | hv
    · exact not_refers_toJson target e fun n hn => h n (List.mem_append_left _ hn)
    · exact not_refers_elementsToJson target es (fun n hn => h n (List.mem_append_right _ hn)) v hv

theorem not_refers_fieldsToJson (target : String) :
    ∀ fs : List (String × Const), (∀ n ∈ namesOfFields fs, IsName n) →
      ∀ f ∈ fieldsToJson fs, IsName f.1 ∧ ¬ Json.Refers target f.2.json
  | [], _ => nofun
  | (k, v) :: fs, h => by
    intro f hf
    rcases List.mem_cons.1 hf with rfl | hf
    · refine ⟨h k List.mem_cons_self, not_refers_toJson target v fun n hn => h n ?_⟩
      exact List.mem_cons_of_mem k (List.mem_append_left _ hn)
    · refine not_refers_fieldsToJson target fs (fun n hn => h n ?_) f hf
      exact List.mem_cons_of_mem k (List.mem_append_right _ hn)

end

end Const

end Sdl

end SdlSchema
