import SdlSchema.Proofs.Convert.Document
import SdlSchema.Proofs.Sdl.Append.Document
import SdlSchema.Proofs.Table.Merge

/-!
# Two sources one behind the other

The schema of two sources, each of which has one, is the merge of their
schemas (`convertSource_append`): a definition of the second source takes the
place of a definition of the first one with the same name.
-/

namespace SdlSchema

namespace Sdl

theorem convert_eq_ok_iff {mode : Mode} {ds : List Definition} {doc : Schema.Document} :
    convert mode ds = .ok doc ↔ ∃ ss,
      (nonDirectives ds).mapM (Definition.toSchema mode) = .ok ss ∧
        doc = ⟨mode.schemaUri, Table.ofList (titled ss)⟩ := by
  rw [convert_eq]
  cases (nonDirectives ds).mapM (Definition.toSchema mode) with
  | error e => simp [Except.map]
  | ok ss => simp [Except.map, eq_comm]

/-- The schemas of two documents are merged when their definitions are put together. -/
theorem convert_append {mode : Mode} {ds es : List Definition} {d e : Schema.Document}
    (hd : convert mode ds = .ok d) (he : convert mode es = .ok e) :
    convert mode (ds ++ es) = .ok ⟨mode.schemaUri, d.definitions.merge e.definitions⟩ := by
  obtain ⟨ss, hss, rfl⟩ := convert_eq_ok_iff.1 hd
  obtain ⟨us, hus, rfl⟩ := convert_eq_ok_iff.1 he
  refine convert_eq_ok_iff.2 ⟨ss ++ us, ?_, ?_⟩
  · rw [nonDirectives, List.filter_append, List.mapM_append]
    simp only [nonDirectives] at hss hus
    rw [hss, hus]
    rfl
  · have htitled : titled (ss ++ us) = titled ss ++ titled us := List.map_append
    rw [htitled, Table.ofList_append]

/-- A document with a schema holds no operation. -/
theorem not_operation_of_convert {mode : Mode} {ds : List Definition} {doc : Schema.Document}
    (h : convert mode ds = .ok doc) : ds.head? ≠ some .operation := by
  rintro hds
  obtain ⟨es, rfl⟩ := List.head?_eq_some_iff.1 hds
  cases h

end Sdl

theorem convertSource_eq_ok_iff {mode : Mode} {source : String} {doc : Schema.Document} :
    convertSource mode source = .ok doc ↔
      ∃ ds, Sdl.ofText? source = some ds ∧ Sdl.convert mode ds = .ok doc := by
  unfold convertSource convertSourceReported
  cases Sdl.ofText? source with
  | none => simp
  | some ds => simp [Sdl.convert]

/-- Of two sources that have schemas, the first one with the second one on the lines behind it has
the merge of the two as its schema. -/
theorem convertSource_append {mode : Mode} {s t : String} {d e : Schema.Document}
    (hs : convertSource mode s = .ok d) (ht : convertSource mode t = .ok e) :
    convertSource mode (s ++ "\n" ++ t) = .ok ⟨d.schema, d.definitions.merge e.definitions⟩ := by
  obtain ⟨ds, hds, hd⟩ := convertSource_eq_ok_iff.1 hs
  obtain ⟨es, hes, he⟩ := convertSource_eq_ok_iff.1 ht
  have hschema : d.schema = mode.schemaUri := by
    obtain ⟨ss, -, rfl⟩ := Sdl.convert_eq_ok_iff.1 hd
    rfl
  refine convertSource_eq_ok_iff.2 ⟨ds ++ es, ?_, ?_⟩
  · have htext : (s ++ "\n" ++ t).toList = s.toList ++ '\n' :: t.toList := by simp
    rw [Sdl.ofText?, htext]
    exact Sdl.ofChars?_append hds hes (Sdl.not_operation_of_convert he)
  · rw [hschema]
    exact Sdl.convert_append hd he

theorem convertSource_append_of_shared_name : ∃ d e,
    convertSource .strict "scalar A" = .ok d ∧ convertSource .strict "union A = B" = .ok e ∧
      convertSource .strict ("scalar A" ++ "\n" ++ "union A = B") =
        .ok ⟨d.schema, d.definitions.merge e.definitions⟩ ∧
      (d.definitions.merge e.definitions).entries = [("A", .union "A" [.ofDefinition "B"])] := by
  have hs : Sdl.ofText? "scalar A" = some [.scalar "A"] := by
    have hlexemes : Sdl.Lexeme.ofChars? "scalar A".toList =
        some [⟨.name "scalar", false⟩, ⟨.name "A", false⟩] := by cbv
    rw [Sdl.ofText?, Sdl.ofChars?, hlexemes]
    exact Sdl.ofLexemes?_of_run (by cbv)
  have ht : Sdl.ofText? "union A = B" = some [.union "A" ["B"]] := by
    have hlexemes : Sdl.Lexeme.ofChars? "union A = B".toList =
        some [⟨.name "union", false⟩, ⟨.name "A", false⟩, ⟨.punct .equals, false⟩,
          ⟨.name "B", false⟩] := by cbv
    rw [Sdl.ofText?, Sdl.ofChars?, hlexemes]
    exact Sdl.ofLexemes?_of_run (by cbv)
  have hd : convertSource .strict "scalar A" =
      .ok ⟨Mode.strict.schemaUri, Table.ofList [("A", .scalar "A" false)]⟩ :=
    convertSource_eq_ok_iff.2 ⟨_, hs, rfl⟩
  have he : convertSource .strict "union A = B" =
      .ok ⟨Mode.strict.schemaUri, Table.ofList [("A", .union "A" [.ofDefinition "B"])]⟩ :=
    convertSource_eq_ok_iff.2 ⟨_, ht, rfl⟩
  exact ⟨_, _, hd, he, convertSource_append hd he, rfl⟩

end SdlSchema
