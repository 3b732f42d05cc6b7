import SdlSchema.Proofs.Cli.CompactFlag
import SdlSchema.Proofs.Cli.Log
import SdlSchema.Proofs.Json.Layout

/-!
# Pretty and compact output

Nothing in a run depends on the layout but the text that it writes.  Two runs
that are told different layouts therefore end alike, with the same log and the
same files, and the schema that they write is the same but for blanks between
literals (`sameButBlanks_runWith`).
-/

namespace SdlSchema.Cli

open Json (Respaced Relaid)
open FileTree (written)

variable {stdin : ByteArray} {a a' : Arguments} {c c' : Config} {env : Environment} {t : FileTree}
  {args args' : List String}

/-- The files are the same but for blanks in what was written over the same content. -/
structure SameFiles (t t' : FileTree) : Prop where
  home : t'.home = t.home
  node : ∀ l, t'.node? l = t.node? l ∨ ∃ old text text', Respaced text text' ∧
    t.node? l = some (written text.toUTF8 old) ∧ t'.node? l = some (written text'.toUTF8 old)

theorem SameFiles.refl (t : FileTree) : SameFiles t t := ⟨rfl, fun _ => Or.inl rfl⟩

/-- The runs do the same but for blanks in the schema. -/
structure SameButBlanks (r r' : Outcome × FileTree) : Prop where
  exit : r'.1.exit = r.1.exit
  stdout : Respaced r.1.stdout r'.1.stdout
  sink : r'.1.sink = r.1.sink
  logged : r'.1.logged = r.1.logged
  files : SameFiles r.2 r'.2

theorem SameButBlanks.refl (r : Outcome × FileTree) : SameButBlanks r r :=
  ⟨rfl, Respaced.refl _, rfl, rfl, SameFiles.refl _⟩

theorem respaced_render (output output' : Output) (d : Schema.Document) :
    Respaced (render output d) (render output' d) :=
  Json.respaced_text _ _ d.toJson "\n"

/-- Texts of different lengths find the same place, or none. -/
theorem sameFiles_writeFile? {text text' : String} (h : Respaced text text') (path : String) :
    (t.writeFile? path text.toUTF8 = none ∧ t.writeFile? path text'.toUTF8 = none) ∨
      ∃ u u', t.writeFile? path text.toUTF8 = some u ∧ t.writeFile? path text'.toUTF8 = some u' ∧
        SameFiles u u' := by
  rw [FileTree.writeFile?_eq, FileTree.writeFile?_eq]
  cases hl : t.writable? path with
  | none => exact Or.inl ⟨rfl, rfl⟩
  | some l =>
    obtain ⟨-, -, hdir⟩ := FileTree.writable?_eq_some_iff.1 hl
    have hroot : l ≠ [] := FileTree.ne_nil_of_not_isDirectory hdir
    refine Or.inr ⟨_, _, rfl, rfl, rfl, fun l' => ?_⟩
    by_cases hne : l' = l
    · subst hne
      exact Or.inr ⟨t.node? l', text, text', h, FileTree.node?_put_self hroot,
        FileTree.node?_put_self hroot⟩
    · exact Or.inl (by rw [FileTree.node?_put_of_ne hne, FileTree.node?_put_of_ne hne])

theorem document_congr (hschema : a'.schema? = a.schema?) (mode : Mode) (source? : Option String) :
    document a' mode source? = document a mode source? := by
  cases source? with
  | none => rw [document, document, hschema]
  | some s => rfl

theorem sameButBlanks_ending (hschema : a'.schema? = a.schema?) (hmode : c'.mode = c.mode)
    (hpath : c'.output.path? = c.output.path?) (source? : Option String) (t : FileTree)
    (sink : LogSink) (logged : List Event) :
    let e := ending a c source? t
    let e' := ending a' c' source? t
    SameButBlanks (⟨e.1.1, e.1.2, sink, logged⟩, e.2) (⟨e'.1.1, e'.1.2, sink, logged⟩, e'.2) := by
  unfold ending
  rw [document_congr hschema, hmode, hpath]
  cases (document a c.mode source?).2 with
  | error f => exact SameButBlanks.refl _
  | ok d =>
    have hrender := respaced_render c.output c'.output d
    cases c.output.path? with
    | none => exact ⟨rfl, hrender, rfl, rfl, SameFiles.refl t⟩
    | some path =>
      dsimp only
      obtain ⟨h, h'⟩ | ⟨u, u', h, h', hfiles⟩ := sameFiles_writeFile? hrender path
      · rw [h, h']
        exact SameButBlanks.refl _
      · rw [h, h']
        exact ⟨rfl, Respaced.refl "", rfl, rfl, hfiles⟩

/-- Runs that are told the same but for the layout do the same but for blanks. -/
theorem sameButBlanks_runWith (hschema : a'.schema? = a.schema?) (hmode : c'.mode = c.mode)
    (hlogging : c'.logging = c.logging) (hpath : c'.output.path? = c.output.path?) :
    SameButBlanks ((runWith (FileTree.host stdin) a c env).run t)
      ((runWith (FileTree.host stdin) a' c' env).run t) := by
  have hafter : afterLog c' t = afterLog c t := by rw [afterLog, hlogging, afterLog]
  have hsink : sinkIn c' t = sinkIn c t := by rw [sinkIn, hlogging, sinkIn]
  have hlogged (source? : Option String) : logOf a' c' env source? = logOf a c env source? := by
    rw [logOf, document_congr hschema, hmode, hlogging, logOf]
  rw [runWith_ending, runWith_ending, hafter, hsink, sourceIn?_congr hschema, hlogged]
  exact sameButBlanks_ending hschema hmode hpath _ _ _ _

/-! ## The flag -/

/-- The flag only turns the pretty layout off. -/
theorem configIn?_withCompact (a : Arguments) (settings : Setting) (t : FileTree) :
    configIn? a.withCompact settings t =
      (configIn? a settings t).map fun c => { c with output := ⟨c.output.path?, false⟩ } := by
  have hoverride : Config.override a.withCompact =
      (fun c => { c with output := ⟨c.output.path?, false⟩ }) ∘ Config.override a := by
    funext c
    have hpretty : (c.output.pretty && !a.withCompact.compact) = false := Bool.and_false _
    rw [Config.override, hpretty]
    rfl
  unfold configIn? config?
  rw [hoverride, ← Option.map_map]
  rfl

theorem sameButBlanks_run (hargs : Arguments.read args = .ok a)
    (hargs' : Arguments.read args' = .ok a.withCompact) :
    SameButBlanks ((run (FileTree.host stdin) args env).run t)
      ((run (FileTree.host stdin) args' env).run t) := by
  cases henv : env.settings? with
  | none =>
    rw [run_abort hargs henv, run_abort hargs' henv]
    exact SameButBlanks.refl _
  | some settings =>
    rw [run_host hargs henv, run_host hargs' henv, configIn?_withCompact]
    cases configIn? a settings t with
    | none => exact SameButBlanks.refl _
    | some c => exact sameButBlanks_runWith rfl rfl rfl rfl

/-- Both styles are the same text but for the blanks of the layout: so it is with the text of each
record of a schema.  The flag for compact output, which can be put in front of any command line that
does not have it, changes nothing in a run but such blanks. -/
theorem pretty_and_compact :
    ((∀ d : Schema.Document, Relaid d.toJson) ∧ (∀ d : Schema.Definition, Relaid d.toJson) ∧
      (∀ p : Schema.Property, Relaid p.toJson) ∧ (∀ e : Schema.PropertyEntry, Relaid e.toJson) ∧
      ∀ f : Schema.Fragment, Relaid f.toJson) ∧
    (∀ args a, Arguments.read args = .ok a → a.compact = false →
      Arguments.read ("--compact" :: args) = .ok { a with compact := true }) ∧
    ∀ stdin args args' a env t, Arguments.read args = .ok a →
      Arguments.read args' = .ok { a with compact := true } →
        SameButBlanks ((run (FileTree.host stdin) args env).run t)
          ((run (FileTree.host stdin) args' env).run t) := by
  refine ⟨⟨?_, ?_, ?_, ?_, ?_⟩, ?_, ?_⟩
  · exact fun d => Json.relaid d.toJson
  · exact fun d => Json.relaid d.toJson
  · exact fun p => Json.relaid p.toJson
  · exact fun e => Json.relaid e.toJson
  · exact fun f => Json.relaid f.toJson
  · exact fun _ _ => Arguments.read_compact_cons
  · exact fun _ _ _ _ _ _ => sameButBlanks_run

/-- The flag may also stand behind other options. -/
theorem pretty_and_compact_of_last_flag :
    let args := ["-so", "out.json"]
    let args' := ["-so", "out.json", "--compact"]
    let t : FileTree := ⟨[(["out.json"], .file "old".toUTF8)], []⟩
    SameButBlanks ((run (FileTree.host "scalar A".toUTF8) args []).run t)
      ((run (FileTree.host "scalar A".toUTF8) args' []).run t) := by
  intro args args' t
  obtain ⟨-, -, hruns⟩ := pretty_and_compact
  exact hruns _ args args' { strict := true, output? := some "out.json" } [] t rfl rfl

end SdlSchema.Cli
