import SdlSchema.Proofs.Convert.Decoding

/-!
# Objects whose fields repeat names

Whether a field is required is said twice: in the list of an object, which has
one entry for each field that excludes null, and in relaxed mode also by the
marker of the property, which is that of the last field of a name.  The two
disagree about a name exactly if its last field allows null and an earlier one
does not (`object_of_repeated_fields`).
-/

namespace SdlSchema

/-! ## Entries -/

namespace Schema

def PropertySchema.fragment : PropertySchema → Fragment
  | inline f => f
  | composed a => a.reference

namespace PropertyEntry

/-- The title of an entry, which a composition holds inside. -/
def title : PropertyEntry → String
  | field p => p.title
  | allOf a => a.title

/-- The fragment of an entry, or the reference in its composition. -/
def fragment : PropertyEntry → Fragment
  | field p => p.schema.fragment
  | allOf a => a.reference

end PropertyEntry

end Schema

namespace Sdl

open Schema (Fragment)

def Field.entry (mode : Mode) (f : Field) : Schema.PropertyEntry := .ofProperty (f.toProperty mode)

/-- The object holds the last field of a name, before which the given fields stand. -/
structure HoldsLast (mode : Mode) (o : Schema.ObjectDefinition) (before : List Field) (f : Field) :
    Prop where
  entry : o.properties.get? f.name = some (f.entry mode)
  title : (f.entry mode).title = f.name
  marked_iff : mode = .relaxed →
    ((f.entry mode).fragment.required? = some true ↔ f.type.isNonNull = true)
  disagree_iff : mode = .relaxed →
    (¬ (f.name ∈ o.required ↔ (f.entry mode).fragment.required? = some true) ↔
      f.type.isNonNull = false ∧ ∃ g ∈ before, g.name = f.name ∧ g.type.isNonNull = true)
  unmarked : mode = .strict → ∀ g ∈ (f.entry mode).fragment.levels, g.required? = none

namespace Field

theorem fragment_entry (mode : Mode) (f : Field) :
    (f.entry mode).fragment = f.type.toFragment mode := by
  unfold entry toProperty schema
  dsimp only
  split <;> rfl

theorem title_entry (mode : Mode) (f : Field) : (f.entry mode).title = f.name := by
  unfold entry toProperty schema
  dsimp only
  split <;> rfl

end Field

theorem TypeRef.unmarked_strict (t : TypeRef) :
    ∀ g ∈ (t.toFragment .strict).levels, g.required? = none := by
  induction t with
  | named n nonNull =>
    have hlevels : ((named n nonNull).toFragment .strict).levels = [Mode.strict.named n] := by
      unfold toFragment Mode.named
      cases builtIn? n <;> rfl
    have hnamed : (Mode.strict.named n).required? = none := by
      unfold Mode.named
      cases builtIn? n <;> rfl
    simp [hlevels, hnamed]
  | list t nonNull ih =>
    have hlevels : ((list t nonNull).toFragment .strict).levels =
        (list t nonNull).toFragment .strict :: (t.toFragment .strict).levels := rfl
    rw [hlevels]
    exact List.forall_mem_cons.2 ⟨rfl, ih⟩

/-! ## The last field of a name -/

theorem lastField?_eq_some_iff {name : String} {fields : List Field} {f : Field} :
    lastField? name fields = some f ↔ ∃ before after,
      fields = before ++ f :: after ∧ f.name = name ∧ ∀ g ∈ after, g.name ≠ name := by
  unfold lastField?
  rw [List.find?_eq_some_iff_append]
  constructor
  · rintro ⟨hname, as, bs, heq, has⟩
    refine ⟨bs.reverse, as.reverse, ?_, by simpa using hname, by simpa using has⟩
    rw [← List.reverse_reverse fields, heq]
    simp
  · rintro ⟨before, after, rfl, hname, hafter⟩
    exact ⟨by simpa using hname, after.reverse, before.reverse, by simp, by simpa using hafter⟩

theorem exists_lastField? {name : String} {fields : List Field}
    (h : name ∈ fields.map Field.name) : ∃ f, lastField? name fields = some f := by
  obtain ⟨f, hf, rfl⟩ := List.mem_map.1 h
  refine Option.isSome_iff_exists.1 (List.find?_isSome.2 ⟨f, List.mem_reverse.2 hf, ?_⟩)
  simp

/-! ## Objects -/

section

variable {mode : Mode} {title : String} {fields before after : List Field} {isInput : Bool}
  {f : Field}

theorem keys_objectSchema : (objectSchema mode title fields isInput).properties.keys =
    (fields.map Field.name).eraseDups := by
  unfold objectSchema
  rw [Table.keys_ofList, List.map_map]
  rfl

theorem get?_objectSchema (h : lastField? f.name fields = some f) :
    (objectSchema mode title fields isInput).properties.get? f.name = some (f.entry mode) :=
  Table.mem_entries_iff.1 (mem_properties.2 ⟨f, h, rfl⟩)

theorem mem_required_iff {name : String} :
    name ∈ (objectSchema mode title fields isInput).required ↔
      ∃ g ∈ fields, g.name = name ∧ g.type.isNonNull = true := by
  simp only [objectSchema, List.mem_map, List.mem_filter]
  constructor
  · rintro ⟨g, ⟨hg, hnonNull⟩, hname⟩
    exact ⟨g, hg, hname, hnonNull⟩
  · rintro ⟨g, hg, hname, hnonNull⟩
    exact ⟨g, ⟨hg, hnonNull⟩, hname⟩

theorem mem_required_last_iff (h : ∀ g ∈ after, g.name ≠ f.name) :
    f.name ∈ (objectSchema mode title (before ++ f :: after) isInput).required ↔
      f.type.isNonNull = true ∨ ∃ g ∈ before, g.name = f.name ∧ g.type.isNonNull = true := by
  rw [mem_required_iff]
  constructor
  · rintro ⟨g, hg, hname, hnonNull⟩
    rcases List.mem_append.1 hg with hg | hg
    · exact Or.inr ⟨g, hg, hname, hnonNull⟩
    rcases List.mem_cons.1 hg with rfl | hg
    · exact Or.inl hnonNull
    · exact absurd hname (h g hg)
  · rintro (hnonNull | ⟨g, hg, hname, hnonNull⟩)
    · exact ⟨f, by simp, rfl, hnonNull⟩
    · exact ⟨g, List.mem_append_left _ hg, hname, hnonNull⟩

theorem holdsLast_objectSchema (h : ∀ g ∈ after, g.name ≠ f.name) :
    HoldsLast mode (objectSchema mode title (before ++ f :: after) isInput) before f where
  entry := get?_objectSchema (lastField?_eq_some_iff.2 ⟨before, after, rfl, rfl, h⟩)
  title := f.title_entry mode
  marked_iff := by
    rintro rfl
    rw [f.fragment_entry]
    exact (TypeRef.marks_toFragment f.type).1
  disagree_iff := by
    rintro rfl
    rw [f.fragment_entry, (TypeRef.marks_toFragment f.type).1, mem_required_last_iff h]
    cases f.type.isNonNull <;> simp
  unmarked := by
    rintro rfl
    rw [f.fragment_entry]
    exact f.type.unmarked_strict

end

theorem Definition.toSchema_eq_object {mode : Mode} {d : Definition} {o : Schema.ObjectDefinition}
    (h : d.toSchema mode = .ok (.object o)) :
    ∃ title isInput, o = objectSchema mode title d.fields isInput := by
  cases d <;> cases h <;> exact ⟨_, _, rfl⟩

/-- The keys of an object are the names of its fields in the order of first occurrence, and each has
the entry of the last field of its name.  All fields that exclude null are required, in order and
with repetitions; in relaxed mode this and the marker of an entry disagree about a name exactly if
its last field allows null and an earlier one does not. -/
theorem object_of_repeated_fields {mode : Mode} {d : Definition} {o : Schema.ObjectDefinition}
    (h : d.toSchema mode = .ok (.object o)) :
    o.properties.keys = (d.fields.map Field.name).eraseDups ∧
      o.required = (d.fields.filter fun f => f.type.isNonNull).map Field.name ∧
      (∀ name ∈ o.required, name ∈ o.properties.keys) ∧
      ∀ name ∈ o.properties.keys, ∃ before f after, d.fields = before ++ f :: after ∧
        f.name = name ∧ (∀ g ∈ after, g.name ≠ name) ∧ HoldsLast mode o before f := by
  obtain ⟨title, isInput, rfl⟩ := Definition.toSchema_eq_object h
  have hkeys : ∀ {name : String},
      name ∈ (objectSchema mode title d.fields isInput).properties.keys ↔
        name ∈ d.fields.map Field.name := by
    intro name
    rw [keys_objectSchema, List.mem_eraseDups]
  refine ⟨keys_objectSchema, rfl, ?_, ?_⟩
  · intro name hname
    obtain ⟨g, hg, hgname, -⟩ := mem_required_iff.1 hname
    exact hkeys.2 (hgname ▸ List.mem_map_of_mem hg)
  · intro name hname
    obtain ⟨f, hf⟩ := exists_lastField? (hkeys.1 hname)
    obtain ⟨before, after, hfields, rfl, hafter⟩ := lastField?_eq_some_iff.1 hf
    refine ⟨before, f, after, hfields, rfl, hafter, ?_⟩
    rw [hfields]
    exact holdsLast_objectSchema hafter

/-- The first `a` excludes null and the last one allows it, so that the two ways disagree about
it; about `b` they agree. -/
theorem object_of_repeated_fields_of_disagreement :
    let d : Definition := .input "T"
      [⟨"a", .named "Int" true, none⟩, ⟨"b", .named "T" true, none⟩, ⟨"a", .named "ID" false, none⟩]
    ∃ o, d.toSchema .relaxed = .ok (.object o) ∧ o.properties.keys = ["a", "b"] ∧
      o.required = ["a", "b"] ∧
      ∀ name ∈ o.properties.keys, ∃ before f after, d.fields = before ++ f :: after ∧
        f.name = name ∧ (∀ g ∈ after, g.name ≠ name) ∧ HoldsLast .relaxed o before f := by
  intro d
  have hobject : d.toSchema .relaxed = .ok (.object _) := rfl
  obtain ⟨hkeys, hrequired, -, hlast⟩ := object_of_repeated_fields hobject
  exact ⟨_, rfl, hkeys, hrequired, hlast⟩

end Sdl

end SdlSchema
