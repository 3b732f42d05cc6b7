import SdlSchema.Proofs.Convert.References
import SdlSchema.Proofs.Json.Unambiguous
import SdlSchema.Proofs.Schema.Fragment

/-!
# What the fragment of a type keeps

A relaxed fragment says of each level of a type whether it excludes null, and
can be read back (`decode?_toFragment`); lost is only that ID is not String.  A
strict fragment says nothing of null.  So two types have one fragment, and one
text, exactly if they agree in what the mode keeps (`toFragment_eq_iff`).
-/

namespace SdlSchema

open Schema (Fragment Primitive)

/-! ## What is kept -/

namespace Sdl.TypeRef

/-- The type with String in the place of ID. -/
def idAsString : TypeRef → TypeRef
  | named n nonNull => named (if n = "ID" then "String" else n) nonNull
  | list t nonNull => list t.idAsString nonNull

def nullable : TypeRef → TypeRef
  | named n _ => named n false
  | list t _ => list t.nullable false

/-- What a mode keeps of a type. -/
def kept : Mode → TypeRef → TypeRef
  | .relaxed, t => t.idAsString
  | .strict, t => t.idAsString.nullable

/-- The type and those inside it, from the outermost to the bare name. -/
def levels : TypeRef → List TypeRef
  | named n nonNull => [named n nonNull]
  | list t nonNull => list t nonNull :: t.levels

end Sdl.TypeRef

/-! ## Reading fragments -/

namespace Schema

def Primitive.typeName? : Primitive → Option String
  | integer => some "Int"
  | number => some "Float"
  | string => some "String"
  | boolean => some "Boolean"
  | array => none
  | object => none

def pointerName? (target : String) : Option String :=
  (target.toList.dropPrefix? "#/definitions/".toList).map String.ofList

namespace Fragment

def required? : Fragment → Option Bool
  | primitive _ required? => required?
  | reference _ required? => required?
  | array _ _ required? => required?

def levels : Fragment → List Fragment
  | primitive type required? => [primitive type required?]
  | reference target required? => [reference target required?]
  | array items element required? => array items element required? :: element.levels

/-- The type for which a fragment stands.  A level excludes null if it is marked as required. -/
def decode? : Fragment → Option Sdl.TypeRef
  | primitive type required? =>
    type.typeName?.map fun n => .named n (required? = some true)
  | reference target required? =>
    (pointerName? target).map fun n => .named n (required? = some true)
  | array _ element required? =>
    element.decode?.map fun t => .list t (required? = some true)

end Fragment

theorem pointerName?_pointer (name : String) : pointerName? (pointer name) = some name := by
  have hprefix : (pointer name).toList.dropPrefix? "#/definitions/".toList = some name.toList := by
    rw [List.dropPrefix?_eq_some_iff]
    exact ⟨_, String.toList_append, BEq.rfl⟩
  rw [pointerName?, hprefix, Option.map_some, String.ofList_toList]

end Schema

namespace Sdl.TypeRef

/-! ## Names -/

theorem typeName?_of_builtIn? {name : String} {p : Primitive} (h : builtIn? name = some p) :
    p.typeName? = some (if name = "ID" then "String" else name) := by
  unfold builtIn? at h
  split at h <;> cases h <;> rfl

theorem builtIn?_idAsString (name : String) :
    builtIn? (if name = "ID" then "String" else name) = builtIn? name := by
  split
  · next h => rw [h]; rfl
  · rfl

theorem ne_id_of_builtIn?_eq_none {name : String} (h : builtIn? name = none) : name ≠ "ID" := by
  rintro rfl
  cases h

theorem named_idAsString (mode : Mode) (name : String) :
    mode.named (if name = "ID" then "String" else name) = mode.named name := by
  cases h : builtIn? name with
  | some p => cases mode <;> simp only [Mode.named, builtIn?_idAsString, h]
  | none => rw [if_neg (ne_id_of_builtIn?_eq_none h)]

/-! ## Types -/

theorem toFragment_kept (mode : Mode) (t : TypeRef) :
    (t.kept mode).toFragment mode = t.toFragment mode := by
  induction t with
  | named n nonNull =>
    cases mode with
    | relaxed => exact congrArg (Mode.relaxed.markNonNull nonNull) (named_idAsString .relaxed n)
    | strict => exact named_idAsString .strict n
  | list t nonNull ih =>
    cases mode with
    | relaxed =>
      exact congrArg (fun f => Mode.relaxed.markNonNull nonNull (.arrayOf .nested f)) ih
    | strict => exact congrArg (Fragment.arrayOf .direct) ih

theorem decode?_toFragment (mode : Mode) (t : TypeRef) :
    (t.toFragment mode).decode? = some (t.kept mode) := by
  induction t with
  | named n nonNull =>
    cases h : builtIn? n with
    | some p =>
      have hp := typeName?_of_builtIn? h
      cases mode <;> cases nonNull <;>
        simp [toFragment, Mode.named, Mode.markNonNull, h, hp, kept, idAsString, nullable,
          Fragment.ofPrimitive, Fragment.withRequired, Fragment.decode?]
    | none =>
      have hid := ne_id_of_builtIn?_eq_none h
      cases mode <;> cases nonNull <;>
        simp [toFragment, Mode.named, Mode.markNonNull, h, hid, kept, idAsString, nullable,
          Fragment.ofDefinition, Fragment.withRequired, Fragment.decode?,
          Schema.pointerName?_pointer]
  | list t nonNull ih =>
    cases mode <;> cases nonNull <;>
      simp [toFragment, Mode.items, Mode.markNonNull, ih, kept, idAsString, nullable,
        Fragment.arrayOf, Fragment.withRequired, Fragment.decode?]

theorem toFragment_inj_iff {mode : Mode} {t u : TypeRef} :
    t.toFragment mode = u.toFragment mode ↔ t.kept mode = u.kept mode := by
  constructor
  · intro h
    have hread := congrArg Fragment.decode? h
    rw [decode?_toFragment, decode?_toFragment] at hread
    exact Option.some.inj hread
  · intro h
    rw [← toFragment_kept, h, toFragment_kept]

/-! ## Markers -/

/-- The marker of a level is that of the type there: it says whether null is excluded, and it is
missing only where null is allowed and the type is no built-in name. -/
def Marks (t : TypeRef) (f : Fragment) : Prop :=
  (f.required? = some true ↔ t.isNonNull = true) ∧
    (f.required? = some false ↔ ∃ name ∈ builtInNames, t = named name false)

theorem marks_named (name : String) (nonNull : Bool) :
    Marks (named name nonNull) ((named name nonNull).toFragment .relaxed) := by
  have hbuiltIn : builtIn? name = none ↔ name ∉ builtInNames := builtIn?_eq_none_iff
  cases h : builtIn? name with
  | some p =>
    have hmem : name ∈ builtInNames := by simpa [h] using hbuiltIn
    cases nonNull <;>
      simp [Marks, toFragment, Mode.named, Mode.markNonNull, h, hmem, isNonNull,
        Fragment.ofPrimitive, Fragment.withRequired, Fragment.required?]
  | none =>
    have hmem : name ∉ builtInNames := hbuiltIn.1 h
    cases nonNull <;>
      simp [Marks, toFragment, Mode.named, Mode.markNonNull, h, hmem, isNonNull,
        Fragment.ofDefinition, Fragment.withRequired, Fragment.required?]

theorem marks_list (t : TypeRef) (nonNull : Bool) :
    Marks (list t nonNull) ((list t nonNull).toFragment .relaxed) := by
  cases nonNull <;>
    simp [Marks, toFragment, Mode.markNonNull, isNonNull, Fragment.arrayOf, Fragment.withRequired,
      Fragment.required?]

theorem marks_toFragment (t : TypeRef) : Marks t (t.toFragment .relaxed) := by
  cases t with
  | named n nonNull => exact marks_named n nonNull
  | list t nonNull => exact marks_list t nonNull

theorem marks_levels (t : TypeRef) :
    List.Forall₂ Marks t.levels (t.toFragment .relaxed).levels := by
  induction t with
  | named n nonNull =>
    have hlevels : ((named n nonNull).toFragment .relaxed).levels =
        [(named n nonNull).toFragment .relaxed] := by
      unfold toFragment Mode.named
      cases builtIn? n <;> cases nonNull <;> rfl
    rw [hlevels]
    exact .cons (marks_toFragment _) .nil
  | list t nonNull ih =>
    have hlevels : ((list t nonNull).toFragment .relaxed).levels =
        (list t nonNull).toFragment .relaxed :: (t.toFragment .relaxed).levels := by
      cases nonNull <;> rfl
    rw [hlevels]
    exact .cons (marks_toFragment _) ih

/-! ## What is forgotten -/

/-- Two types have one fragment, or fragments of one text, exactly if they agree in what the mode
keeps: all but the difference of ID and String, and in strict mode also of what excludes null.  A
relaxed fragment is marked level by level and can be read back. -/
theorem toFragment_eq_iff (t u : TypeRef) :
    (∀ mode : Mode,
      (t.toFragment mode = u.toFragment mode ↔ t.kept mode = u.kept mode) ∧
        ∀ style : Style, ((t.toFragment mode).toJson.text style =
          (u.toFragment mode).toJson.text style ↔ t.kept mode = u.kept mode)) ∧
      (t.toFragment .relaxed).decode? = some t.idAsString ∧
      List.Forall₂ Marks t.levels (t.toFragment .relaxed).levels := by
  refine ⟨fun mode => ⟨toFragment_inj_iff, fun style => ?_⟩, decode?_toFragment .relaxed t,
    marks_levels t⟩
  have htext : Function.Injective fun f : Fragment => f.toJson.text style :=
    (Json.text_injective style).comp Fragment.toJson_injective
  exact htext.eq_iff.trans toFragment_inj_iff

end Sdl.TypeRef

end SdlSchema
