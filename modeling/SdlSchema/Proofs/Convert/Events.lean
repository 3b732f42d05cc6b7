import SdlSchema.Proofs.Convert.Document

/-!
# What a conversion reports

A conversion reports every definition that it converts, and with it whether the
definition takes the place of an earlier one of its name (`events_collect`).  If
it succeeds the definitions that it has reported are those that are in the
schema and those that were replaced (`size_collect`).
-/

namespace SdlSchema

namespace Event

def isMapped : Event → Bool
  | mapped _ => true
  | _ => false

def isReplaced : Event → Bool
  | replaced _ => true
  | _ => false

end Event

namespace Sdl

variable {mode : Mode} {t t' : Table Schema.Definition} {d : Definition} {ds : List Definition}

/-! ## Names -/

/-- The names of the definitions before the first one without a counterpart, directives aside. -/
def convertedNames (ds : List Definition) : List String :=
  ((nonDirectives ds).takeWhile Definition.isType).filterMap Definition.typeName?

/-- The report on definitions of some names, when there were others before. -/
def accounts (earlier : List String) : List String → List Event
  | [] => []
  | name :: names =>
    if name ∈ earlier then .mapped name :: .replaced name :: accounts earlier names
    else .mapped name :: accounts (earlier ++ [name]) names

theorem convertedNames_cons_directive (hd : d.isDirective = true) :
    convertedNames (d :: ds) = convertedNames ds := by
  simp [convertedNames, nonDirectives, hd]

theorem convertedNames_cons_type {name : String} (hd : d.isDirective = false)
    (hname : d.typeName? = some name) :
    convertedNames (d :: ds) = name :: convertedNames ds := by
  simp [convertedNames, nonDirectives, hd, Definition.isType, hname]

theorem convertedNames_cons_other (hd : d.isDirective = false) (hname : d.typeName? = none) :
    convertedNames (d :: ds) = [] := by
  simp [convertedNames, nonDirectives, hd, Definition.isType, hname]

/-! ## Steps of a conversion -/

theorem collect_cons_directive (hd : d.isDirective = true) :
    collect mode t (d :: ds) = collect mode t ds := by
  rw [collect, if_pos hd]

theorem collect_cons_ok {s : Schema.Definition} (hd : d.isDirective = false)
    (hs : d.toSchema mode = .ok s) :
    collect mode t (d :: ds) =
      ⟨.mapped s.title ::
          (replacement t s.title ++ (collect mode (t.insert s.title s) ds).events),
        (collect mode (t.insert s.title s) ds).result⟩ := by
  rw [collect, if_neg (by simp [hd]), hs]

theorem collect_cons_error {e : Error} (hd : d.isDirective = false)
    (he : d.toSchema mode = .error e) : collect mode t (d :: ds) = ⟨[], .error e⟩ := by
  rw [collect, if_neg (by simp [hd]), he]

/-! ## Tables of definitions -/

/-- Every definition stands under its title. -/
def ByTitle (t : Table Schema.Definition) : Prop := ∀ k s, t.get? k = some s → s.title = k

theorem ByTitle.empty : ByTitle .empty := by
  intro k s h
  cases h

theorem ByTitle.insert (ht : ByTitle t) (s : Schema.Definition) : ByTitle (t.insert s.title s) := by
  intro k u hu
  rw [Table.get?_insert] at hu
  split at hu
  · next hk =>
    cases hu
    exact hk
  · exact ht k u hu

theorem replacement_eq (ht : ByTitle t) (k : String) :
    replacement t k = if k ∈ t.keys then [.replaced k] else [] := by
  unfold replacement
  cases hk : t.get? k with
  | none =>
    have hmem : k ∉ t.keys := by simp [Table.mem_keys_iff, hk]
    rw [if_neg hmem]
  | some s =>
    have hmem : k ∈ t.keys := Table.mem_keys_iff.2 ⟨s, hk⟩
    rw [if_pos hmem, ← ht k s hk]

theorem size_insert (t : Table Schema.Definition) (k : String) (s : Schema.Definition) :
    (t.insert k s).size = if k ∈ t.keys then t.size else t.size + 1 := by
  have hsize (t : Table Schema.Definition) : t.size = t.keys.length := by
    rw [Table.size, Table.keys, List.length_map]
  rw [hsize, hsize, Table.keys_insert]
  split
  · rfl
  · exact List.length_append

/-! ## Reports -/

/-- The report tells the names of the definitions, and which of them were there before. -/
theorem events_collect (mode : Mode) (ht : ByTitle t) (ds : List Definition) :
    (collect mode t ds).events = accounts t.keys (convertedNames ds) := by
  induction ds generalizing t with
  | nil => rfl
  | cons d ds ih =>
    cases hd : d.isDirective with
    | true => rw [collect_cons_directive hd, convertedNames_cons_directive hd, ih ht]
    | false =>
      cases hname : d.typeName? with
      | none =>
        have herror : d.toSchema mode = .error (.unknownKind d.kind) :=
          Definition.toSchema_of_not_isType (by simp [Definition.isType, hname])
        rw [collect_cons_error hd herror, convertedNames_cons_other hd hname]
        rfl
      | some name =>
        obtain ⟨s, hs, rfl⟩ := Definition.toSchema_of_typeName? mode hname
        rw [collect_cons_ok hd hs, convertedNames_cons_type hd hname, accounts,
          replacement_eq ht, ih (ht.insert s), Table.keys_insert]
        split <;> rfl

/-- Every definition that was reported is in the table or was replaced there. -/
theorem size_collect (ht : ByTitle t) (h : (collect mode t ds).result = .ok t') :
    t.size + (collect mode t ds).events.countP Event.isMapped =
      t'.size + (collect mode t ds).events.countP Event.isReplaced := by
  induction ds generalizing t with
  | nil =>
    cases h
    rfl
  | cons d ds ih =>
    cases hd : d.isDirective with
    | true =>
      rw [collect_cons_directive hd] at h ⊢
      exact ih ht h
    | false =>
      cases hs : d.toSchema mode with
      | error e =>
        rw [collect_cons_error hd hs] at h
        cases h
      | ok s =>
        rw [collect_cons_ok hd hs] at h ⊢
        -- A new title makes the table longer, and one that is there is reported once more.
        have hrest := ih (ht.insert s) h
        rw [size_insert] at hrest
        simp only [replacement_eq ht, List.countP_cons, List.countP_append]
        split at hrest
        · next hk =>
          simp [hk, Event.isMapped, Event.isReplaced]
          omega
        · next hk =>
          simp [hk, Event.isMapped, Event.isReplaced]
          omega

theorem events_convertReported (mode : Mode) (ds : List Definition) :
    (convertReported mode ds).events =
      .converting ds.length mode :: accounts [] (convertedNames ds) := by
  rw [convertReported, events_collect mode ByTitle.empty ds]
  rfl

/-- Of the definitions that a successful conversion reports, those that it does not replace are in
the schema. -/
theorem countP_accounts {doc : Schema.Document} (h : convert mode ds = .ok doc) :
    (accounts [] (convertedNames ds)).countP Event.isMapped =
      doc.definitions.size + (accounts [] (convertedNames ds)).countP Event.isReplaced := by
  have hevents : (collect mode .empty ds).events = accounts [] (convertedNames ds) :=
    events_collect mode ByTitle.empty ds
  cases hresult : (collect mode .empty ds).result with
  | error e =>
    rw [convert, convertReported, hresult] at h
    cases h
  | ok t =>
    rw [convert, convertReported, hresult] at h
    cases h
    have hsize := size_collect ByTitle.empty hresult
    rw [hevents] at hsize
    simpa [Table.size] using hsize

end Sdl

end SdlSchema
