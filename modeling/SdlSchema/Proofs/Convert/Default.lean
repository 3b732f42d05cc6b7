import Mathlib.Logic.Relation
import SdlSchema.Convert.Property
import SdlSchema.Json.Text
import SdlSchema.Proofs.Json.Members

/-!
# Default values

A list becomes an array of its elements in order.  The fields of an object are
sorted, and of those with one name the last one counts.  So a default can be
written in several ways, which `Const.Rewrite` relates step by step and at any
depth; none of them shows in the text of an argument (`toJson_structure`).
Two fields of one name must not change places, since the later one counts.
-/

namespace SdlSchema.Sdl

namespace Const

theorem elementsToJson_eq_map (es : List Const) : elementsToJson es = es.map toJson := by
  induction es with
  | nil => rfl
  | cons e es ih => rw [elementsToJson, ih, List.map_cons]

theorem fieldsToJson_eq_map (fs : List (String × Const)) :
    fieldsToJson fs = fs.map fun f => (f.1, f.2.toJson) := by
  induction fs with
  | nil => rfl
  | cons f fs ih => rw [fieldsToJson, ih, List.map_cons]

theorem json_toJson_list (es : List Const) :
    (list es).toJson.json = .array (es.map fun e => e.toJson.json) := by
  change Json.array ((elementsToJson es).map CanonicalJson.json) = _
  rw [elementsToJson_eq_map, List.map_map]
  rfl

/-! ## The members of an object -/

/-- The members hold the fields sorted by name, of those with one name only the last. -/
structure MembersOf (fs : List (String × Const)) (ms : List (String × Json)) : Prop where
  sorted : (ms.map Prod.fst).Pairwise (· < ·)
  mem_keys_iff : ∀ k, k ∈ ms.map Prod.fst ↔ k ∈ fs.map Prod.fst
  last_mem : ∀ before k v after, fs = before ++ (k, v) :: after → k ∉ after.map Prod.fst →
    (k, v.toJson.json) ∈ ms

theorem membersOf_sortMembers (fs : List (String × Const)) :
    MembersOf fs (CanonicalJson.sortMembers (fieldsToJson fs)) where
  sorted := (CanonicalJson.canonical_sortMembers _).1
  mem_keys_iff k := by
    rw [CanonicalJson.mem_keys_sortMembers, fieldsToJson_eq_map, List.map_map]
    rfl
  last_mem := by
    rintro before k v after rfl hafter
    refine Json.mem_of_get? ?_
    rw [CanonicalJson.get?_sortMembers, fieldsToJson_eq_map, Json.last?_map,
      Json.last?_of_not_mem before hafter]
    rfl

/-! ## Other ways to write a constant -/

/-- One step between ways to write a constant, at any depth: fields next to each other that have
different names are permuted, or a field is left out before another one of its name. -/
inductive Rewrite : Const → Const → Prop
  | permute {before fs gs after : List (String × Const)} (hperm : fs.Perm gs)
      (hdistinct : (fs.map Prod.fst).Nodup) :
      Rewrite (object (before ++ (fs ++ after))) (object (before ++ (gs ++ after)))
  | drop {before after : List (String × Const)} {k : String} {v : Const}
      (hlater : k ∈ after.map Prod.fst) :
      Rewrite (object (before ++ (k, v) :: after)) (object (before ++ after))
  | element {before after : List Const} {c c' : Const} (h : Rewrite c c') :
      Rewrite (list (before ++ c :: after)) (list (before ++ c' :: after))
  | field {before after : List (String × Const)} {k : String} {c c' : Const} (h : Rewrite c c') :
      Rewrite (object (before ++ (k, c) :: after)) (object (before ++ (k, c') :: after))

theorem toJson_object_congr {fs fs' : List (String × Const)}
    (h : ∀ key, Json.last? key fs = Json.last? key fs') :
    (object fs).toJson = (object fs').toJson := by
  rw [toJson, toJson, fieldsToJson_eq_map, fieldsToJson_eq_map]
  refine CanonicalJson.object_congr fun key => ?_
  rw [Json.last?_map, Json.last?_map, h]

theorem Rewrite.toJson_eq {c c' : Const} (h : Rewrite c c') : c.toJson = c'.toJson := by
  induction h with
  | permute hperm hdistinct =>
    refine toJson_object_congr fun key => ?_
    rw [Json.last?_append, Json.last?_append, Json.last?_append, Json.last?_append,
      Json.last?_congr_perm hperm hdistinct]
  | @drop before after k v hlater =>
    refine toJson_object_congr fun key => ?_
    rw [Json.last?_append, Json.last?_append, Json.last?_cons]
    by_cases hk : k = key
    · obtain ⟨v', hv'⟩ := Option.isSome_iff_exists.1 (Json.isSome_last?_iff.2 (hk ▸ hlater))
      rw [hv']
      rfl
    · rw [if_neg hk, Option.or_none]
  | element _ ih =>
    rw [toJson, toJson, elementsToJson_eq_map, elementsToJson_eq_map, List.map_append,
      List.map_append, List.map_cons, List.map_cons, ih]
  | field _ ih =>
    rw [toJson, toJson, fieldsToJson_eq_map, fieldsToJson_eq_map, List.map_append,
      List.map_append, List.map_cons, List.map_cons, ih]

theorem toJson_eq_of_rewrites {c c' : Const} (h : Relation.ReflTransGen Rewrite c c') :
    c.toJson = c'.toJson := by
  induction h with
  | refl => rfl
  | tail _ hstep ih => rw [ih, hstep.toJson_eq]

/-- Lists keep their elements in order, objects keep the last field of each name, sorted, and enum
values and variables become strings; so rewriting a default does not change the text of its
argument. -/
theorem toJson_structure :
    (∀ es, (list es).toJson.json = .array (es.map fun e => e.toJson.json)) ∧
      (∀ fs, ∃ ms, (object fs).toJson.json = .object ms ∧ MembersOf fs ms) ∧
      (∀ n, (enum n).toJson.json = .string n) ∧
      (∀ n, (Const.variable n).toJson.json = .string ("$" ++ n)) ∧
      ∀ c c', Relation.ReflTransGen Rewrite c c' → ∀ name type mode style,
        ((InputValue.mk name type (some c)).toArgument mode).toJson.text style =
          ((InputValue.mk name type (some c')).toArgument mode).toJson.text style := by
  refine ⟨json_toJson_list, fun fs => ⟨_, rfl, membersOf_sortMembers fs⟩, fun _ => rfl,
    fun _ => rfl, ?_⟩
  intro c c' h name type mode style
  rw [InputValue.toArgument, InputValue.toArgument, Option.map_some, Option.map_some,
    toJson_eq_of_rewrites h]

/-- The first `b` is left out, the fields inside the list change places, and so do the others. -/
theorem toJson_structure_of_repeated_field :
    let inner : Const := .object [("y", .enum "E"), ("x", .null)]
    let inner' : Const := .object [("x", .null), ("y", .enum "E")]
    let c : Const := .object [("b", .null), ("b", .boolean true), ("a", .list [inner])]
    let c' : Const := .object [("a", .list [inner']), ("b", .boolean true)]
    Relation.ReflTransGen Rewrite c c' ∧
      ((InputValue.mk "v" (.named "T" false) (some c)).toArgument .relaxed).toJson.text .pretty =
        ((InputValue.mk "v" (.named "T" false) (some c')).toArgument .relaxed).toJson.text
          .pretty := by
  intro inner inner' c c'
  have hdrop : Rewrite c (object [("b", .boolean true), ("a", .list [inner])]) :=
    @Rewrite.drop [] _ "b" .null (by decide)
  have hinner : Rewrite inner inner' := @Rewrite.permute [] _ _ [] (.swap _ _ []) (by decide)
  have hfield : Rewrite (object [("b", .boolean true), ("a", .list [inner])])
      (object [("b", .boolean true), ("a", .list [inner'])]) :=
    @Rewrite.field [_] [] "a" _ _ (@Rewrite.element [] [] _ _ hinner)
  have hswap : Rewrite (object [("b", .boolean true), ("a", .list [inner'])]) c' :=
    @Rewrite.permute [] _ _ [] (.swap _ _ []) (by decide)
  have hsteps : Relation.ReflTransGen Rewrite c c' :=
    ((Relation.ReflTransGen.single hdrop).tail hfield).tail hswap
  obtain ⟨-, -, -, -, htext⟩ := toJson_structure
  exact ⟨hsteps, htext c c' hsteps "v" (.named "T" false) .relaxed .pretty⟩

end Const

end SdlSchema.Sdl
