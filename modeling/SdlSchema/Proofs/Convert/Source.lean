import SdlSchema.Proofs.Convert.Append
import SdlSchema.Proofs.Sdl.Expressible
import SdlSchema.Proofs.Sdl.ReadBack.Document

/-!
# Source texts and definitions

Converting a text gives what converting the definitions gives that the text
spells (`convertSource_of_written`), however it spells them.  There is such a
text for all definitions within the limits of the grammar (`exists_source`), so
nothing is out of reach of source texts.
-/

namespace SdlSchema

open Sdl (Definition Token Written Spells)

theorem convertSource_of_ofText? (mode : Mode) {source : String} {ds : List Definition}
    (h : Sdl.ofText? source = some ds) : convertSource mode source = Sdl.convert mode ds := by
  rw [convertSource, convertSourceReported, h]
  rfl

/-- The schema of a text is that of the definitions whose tokens it spells. -/
theorem convertSource_of_written (mode : Mode) {ds : List Definition} {ts : List Token}
    {source : String} (hne : ds ≠ []) (hds : ∀ d ∈ ds, d.IsWritable) (hts : Written ds ts)
    (hsource : Spells ts source.toList) : convertSource mode source = Sdl.convert mode ds :=
  convertSource_of_ofText? mode (hts.ofChars? hne hds hsource)

theorem convertSource_of_written_of_escape :
    convertSource .strict "directive @d(a:S=\"\\u0041\")on FIELD#end\n,scalar B" =
      Sdl.convert .strict [.directive ⟨"d", [⟨"a", .named "S" false, some (.string "A")⟩], false,
        [.field]⟩, .scalar "B"] := by
  have hblank : Sdl.Ignored " ".toList := .blank rfl .nil
  have hgap : Sdl.Ignored "#end\n,".toList :=
    @Sdl.Ignored.comment "end".toList _ _ (by simp [Sdl.StringLiteral.isLineEnd]) rfl (.comma .nil)
  have hescape : Sdl.StringLiteral.CharSpelling 'A' "\\u0041".toList :=
    @Sdl.StringLiteral.CharSpelling.unit 'A' "0041".toList _ (.mk rfl) rfl
  have hstring : Token.Spelling (.string "A") "\"\\u0041\"".toList :=
    @Token.Spelling.string "A" _ (.cons hescape .nil)
  have hends : ∀ c, ¬ (Token.string "A").RunsInto c := fun _ h => absurd h.1 (by decide)
  have hscalar : Spells [.name "scalar", .name "B"] "#end\n,scalar B".toList :=
    .cons hgap (.name (by decide)) (.cons hblank (.name (by decide)) (.nil .nil) (by rintro _ ⟨⟩))
      (by rintro _ ⟨⟩ ⟨⟩)
  have hlocations : Spells [.punct .parenR, .name "on", .name "FIELD", .name "scalar", .name "B"]
      ")on FIELD#end\n,scalar B".toList :=
    .cons .nil (.punct .parenR) (.cons .nil (.name (by decide))
      (.cons hblank (.name (by decide)) hscalar (by rintro _ ⟨⟩ ⟨⟩)) (by rintro _ ⟨⟩ ⟨⟩))
      fun _ _ => id
  have hdefault : Spells [.punct .colon, .name "S", .punct .equals, .string "A", .punct .parenR,
      .name "on", .name "FIELD", .name "scalar", .name "B"]
      ":S=\"\\u0041\")on FIELD#end\n,scalar B".toList :=
    .cons .nil (.punct .colon) (.cons .nil (.name (by decide)) (.cons .nil (.punct .equals)
      (.cons .nil hstring hlocations fun c _ => hends c) fun _ _ => id) (by rintro _ ⟨⟩ ⟨⟩))
      fun _ _ => id
  have hsource : Spells [.name "directive", .punct .atSign, .name "d", .punct .parenL, .name "a",
      .punct .colon, .name "S", .punct .equals, .string "A", .punct .parenR, .name "on",
      .name "FIELD", .name "scalar", .name "B"]
      "directive @d(a:S=\"\\u0041\")on FIELD#end\n,scalar B".toList :=
    .cons .nil (.name (by decide)) (.cons hblank (.punct .atSign) (.cons .nil (.name (by decide))
      (.cons .nil (.punct .parenL) (.cons .nil (.name (by decide)) hdefault (by rintro _ ⟨⟩ ⟨⟩))
        fun _ _ => id) (by rintro _ ⟨⟩ ⟨⟩)) fun _ _ => id) (by rintro _ ⟨⟩ ⟨⟩)
  refine convertSource_of_written .strict (List.cons_ne_nil _ _) ?_
    (.cons false (.cons false .nil)) hsource
  simp [Definition.IsWritable, Sdl.InputValue.IsWritable, Sdl.TypeRef.depth,
    Sdl.Const.IsConstant, Sdl.Const.depth]

/-- Definitions within the limits of the grammar have a text with the same schema. -/
theorem exists_source {ds : List Definition} (hne : ds ≠ []) (hds : ∀ d ∈ ds, d.IsWritable)
    (hnames : ∀ d ∈ ds, ∀ n ∈ d.names, Sdl.IsName n) :
    ∃ source, ∀ mode, convertSource mode source = Sdl.convert mode ds := by
  obtain ⟨ts, s, hts, hs⟩ := Sdl.exists_spells_of_written hnames
  refine ⟨String.ofList s, fun mode => convertSource_of_ofText? mode ?_⟩
  rw [Sdl.ofText?, String.toList_ofList]
  exact hts.ofChars? hne hds hs

end SdlSchema
