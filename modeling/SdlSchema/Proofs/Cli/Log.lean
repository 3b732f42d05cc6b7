import SdlSchema.Proofs.Cli.Run
import SdlSchema.Proofs.Cli.Way
import SdlSchema.Proofs.Convert.Append
import SdlSchema.Proofs.Convert.Events

/-!
# What a run logs

There is one report about a source (`report`).  A run logs what is in it from
the configured level on, and how it ends does not depend on what it logs
(`run_log`).  Where it logs to can matter: directories are made for a log but
not for the schema, which may so be written only since there is a log beside it
(`run_log_of_made_directory`).  A log for which no directory has to be made that
is in the way of the schema makes no difference.
-/

namespace SdlSchema.Cli

open FileTree (Frame)
open Sdl (accounts convertedNames)

/-! ## Reports -/

/-- Everything that there is to log about a source. -/
def report (mode : Mode) (source : String) : List Event :=
  .started mode ::
    match Sdl.ofText? source with
    | none => []
    | some ds =>
      .converting ds.length mode :: accounts [] (convertedNames ds) ++
        match Sdl.convert mode ds with
        | .error _ => []
        | .ok d => [.finished d.definitions.size]

variable {stdin : ByteArray} {a a' : Arguments} {c c' : Config} {env : Environment} {t : FileTree}
  {args : List String} {s : Setting} {source : String}

theorem started_cons_document (a : Arguments) (mode : Mode) (source : String) :
    .started mode :: (document a mode (some source)).1 = report mode source := by
  cases hds : Sdl.ofText? source with
  | none => simp [report, document, convertSourceReported, hds]
  | some ds =>
    have hreported : convertSourceReported mode source = Sdl.convertReported mode ds := by
      rw [convertSourceReported, hds]
    have hevents := Sdl.events_convertReported mode ds
    simp only [report, document, hreported, hds, Sdl.convert]
    cases (Sdl.convertReported mode ds).result <;> simp [hevents]

/-- On success the report accounts for the definitions of the schema. -/
theorem countP_report {mode : Mode} {d : Schema.Document} (h : convertSource mode source = .ok d) :
    (report mode source).countP Event.isMapped =
      d.definitions.size + (report mode source).countP Event.isReplaced := by
  obtain ⟨ds, hds, hd⟩ := convertSource_eq_ok_iff.1 h
  have hcount := Sdl.countP_accounts hd
  have hreport : report mode source = .started mode :: .converting ds.length mode ::
      (accounts [] (convertedNames ds) ++ [.finished d.definitions.size]) := by
    simp [report, hds, hd]
  rw [hreport]
  simpa [Event.isMapped, Event.isReplaced] using hcount

/-- Without the variable the level of the configuration decides. -/
theorem admits_ofVariable (level : Level) (e : Event) :
    (LogFilter.ofVariable level none).admits e = decide (level.rank ≤ e.level.rank) := by
  rfl

theorem logOf_eq (a : Arguments) (hrust : env.get? "RUST_LOG" = none) :
    logOf a c env (some source) =
      (report c.mode source).filter fun e => c.logging.level.rank ≤ e.level.rank := by
  unfold logOf logFilter
  rw [hrust, started_cons_document]
  exact List.filter_congr fun e _ => admits_ofVariable c.logging.level e

/-! ## Two runs -/

theorem ending_congr (hschema : a'.schema? = a.schema?) (hmode : c'.mode = c.mode)
    (houtput : c'.output = c.output) (source? : Option String) (t : FileTree) :
    ending a' c' source? t = ending a c source? t := by
  unfold ending
  simp only [document_snd, hschema, hmode, houtput]

theorem sourceIn?_congr (hschema : a'.schema? = a.schema?) (t : FileTree) :
    sourceIn? stdin a' t = sourceIn? stdin a t := by
  unfold sourceIn?
  rw [hschema]

/-- In trees in which the schema, if there is one, has the same place a run ends alike. -/
theorem ending_agree {changed : Location → Prop} {u u' : FileTree}
    (hplace : ∀ d path, convertSource c.mode source = .ok d → c.output.path? = some path →
      u'.writable? path = u.writable? path)
    (hfile : ∀ l, ¬ changed l → u'.file? l = u.file? l) :
    (ending a c (some source) u').1 = (ending a c (some source) u).1 ∧
      ∀ l, ¬ changed l →
        (ending a c (some source) u').2.file? l = (ending a c (some source) u).2.file? l := by
  unfold ending
  rw [document_snd]
  dsimp only
  cases hd : convertSource c.mode source with
  | error e => exact ⟨rfl, hfile⟩
  | ok d =>
    cases hpath : c.output.path? with
    | none => exact ⟨rfl, hfile⟩
    | some path =>
      dsimp only
      obtain ⟨h, h'⟩ | ⟨v, v', h, h', hv⟩ :=
        FileTree.writeFile?_agree (hplace d path hd hpath) hfile (render c.output d).toUTF8
      · rw [h, h']
        exact ⟨rfl, hfile⟩
      · rw [h, h']
        exact ⟨rfl, hv⟩

theorem frame_ending (a : Arguments) (c : Config) (source? : Option String) (t : FileTree) :
    Frame (fun _ => True) t (ending a c source? t).2 := by
  unfold ending
  cases (document a c.mode source?).2 with
  | error f => exact Frame.refl _ t
  | ok d =>
    cases c.output.path? with
    | none => exact Frame.refl _ t
    | some path =>
      dsimp only
      cases hwrite : t.writeFile? path (render c.output d).toUTF8 with
      | none => exact Frame.refl _ t
      | some t' =>
        obtain ⟨l, -, -, hframe⟩ := FileTree.writeFile?_spec hwrite
        exact hframe.mono fun _ _ => trivial

/-- The log file is not the source. -/
def Apart (a : Arguments) (c : Config) (t : FileTree) : Prop :=
  ∀ directory path, c.logging.path? = some directory → a.schema? = some path →
    t.locate? path ≠ some (t.place (logPath directory))

/-- The path of the schema neither goes through nor leads to a directory that is missing for the
log.  Such a directory is made for the log, and only for the log. -/
def OutOfWay (c : Config) (t : FileTree) : Prop :=
  ∀ directory path, c.logging.path? = some directory → c.output.path? = some path →
    ∀ l ∈ t.way path, l ∈ t.way directory → t.node? l ≠ none

theorem sourceIn?_afterLog (hapart : Apart a c t) (h : sourceIn? stdin a t = some source) :
    sourceIn? stdin a (afterLog c t) = some source := by
  unfold afterLog
  cases hlog : c.logging.path? with
  | none => exact h
  | some directory =>
    unfold sourceIn? at h ⊢
    cases hschema : a.schema? with
    | none =>
      rw [hschema] at h
      exact h
    | some path =>
      rw [hschema] at h
      obtain ⟨content, hcontent, hutf8⟩ := Option.bind_eq_some_iff.1 h
      dsimp only
      rw [FileTree.readFile?_openLog hcontent (hapart directory path hlog hschema)]
      exact hutf8

theorem writable?_afterLog (hway : OutOfWay c t) {path : String}
    (hpath : c.output.path? = some path) : (afterLog c t).writable? path = t.writable? path := by
  unfold afterLog
  cases hlog : c.logging.path? with
  | none => rfl
  | some directory => exact FileTree.writable?_openLog (hway directory path hlog hpath)

theorem isLog_of_frame {changed : Location → Prop} {o : Outcome} {t t' : FileTree} {l : Location}
    (h : Frame changed t t') (hl : IsLog o t l) : IsLog o t' l := by
  obtain ⟨directory, hsink, hl⟩ := hl
  exact ⟨directory, hsink, h.locate? hl⟩

/-- The runs end in the same way and leave the same files but for their logs. -/
structure Alike (r r' : Outcome × FileTree) : Prop where
  exit : r'.1.exit = r.1.exit
  stdout : r'.1.stdout = r.1.stdout
  file : ∀ l, ¬ IsLog r.1 r.2 l → ¬ IsLog r'.1 r'.2 l → r'.2.file? l = r.2.file? l

/-- Runs whose logs are neither the source nor, if there is a schema, in its way end alike. -/
theorem alike_runWith {env' : Environment} (hschema : a'.schema? = a.schema?)
    (hmode : c'.mode = c.mode) (houtput : c'.output = c.output)
    (hsource : sourceIn? stdin a t = some source) (hapart : Apart a c t) (hapart' : Apart a' c' t)
    (hways : ∀ d, convertSource c.mode source = .ok d → OutOfWay c t ∧ OutOfWay c' t) :
    Alike ((runWith (FileTree.host stdin) a c env).run t)
      ((runWith (FileTree.host stdin) a' c' env').run t) := by
  have hread : sourceIn? stdin a (afterLog c t) = some source := sourceIn?_afterLog hapart hsource
  have hread' : sourceIn? stdin a' (afterLog c' t) = some source := by
    refine sourceIn?_afterLog hapart' ?_
    rwa [sourceIn?_congr hschema]
  have hplace : ∀ d path, convertSource c.mode source = .ok d → c.output.path? = some path →
      (afterLog c' t).writable? path = (afterLog c t).writable? path := by
    intro d path hd hpath
    obtain ⟨hway, hway'⟩ := hways d hd
    rw [writable?_afterLog hway' (houtput ▸ hpath), writable?_afterLog hway hpath]
  rw [runWith_ending, runWith_ending, hread, hread', ending_congr hschema hmode houtput]
  generalize ho : Outcome.mk _ _ (sinkIn c t) _ = o
  generalize ho' : Outcome.mk _ _ (sinkIn c' t) _ = o'
  have hsink : o.sink = sinkIn c t := ho ▸ rfl
  have hsink' : o'.sink = sinkIn c' t := ho' ▸ rfl
  -- Outside of the two logs both trees still have the files of `t`.
  have hfile : ∀ l, ¬ (IsLog o (afterLog c t) l ∨ IsLog o' (afterLog c' t) l) →
      (afterLog c' t).file? l = (afterLog c t).file? l := by
    intro l hl
    obtain ⟨hlog, hlog'⟩ := not_or.1 hl
    exact ((frame_afterLog c' t hsink').file l hlog').trans
      ((frame_afterLog c t hsink).file l hlog).symm
  obtain ⟨hend, hfiles⟩ := ending_agree (a := a) hplace hfile
  refine ⟨?_, ?_, ?_⟩
  · rw [← ho, ← ho', hend]
  · rw [← ho, ← ho', hend]
  · intro l hl hl'
    -- A path to a log still leads there when the schema has been written.
    refine hfiles l (not_or.2 ⟨?_, ?_⟩)
    · exact fun h => hl (isLog_of_frame (frame_ending ..) h)
    · exact fun h => hl' (isLog_of_frame (frame_ending ..) h)

/-- Runs whose logs have the same destination end in the same way, whatever they log. -/
theorem runWith_same_destination {env' : Environment} (hschema : a'.schema? = a.schema?)
    (hmode : c'.mode = c.mode) (houtput : c'.output = c.output)
    (hlog : c'.logging.path? = c.logging.path?) :
    let r := (runWith (FileTree.host stdin) a c env).run t
    let r' := (runWith (FileTree.host stdin) a' c' env').run t
    r'.1.exit = r.1.exit ∧ r'.1.stdout = r.1.stdout ∧ r'.1.sink = r.1.sink ∧ r'.2 = r.2 := by
  have hafter : afterLog c' t = afterLog c t := by rw [afterLog, hlog, afterLog]
  have hsink : sinkIn c' t = sinkIn c t := by rw [sinkIn, hlog, sinkIn]
  rw [runWith_ending, runWith_ending, hafter, hsink, sourceIn?_congr hschema,
    ending_congr hschema hmode houtput]
  exact ⟨rfl, rfl, rfl, rfl⟩

/-! ## Runs -/

theorem run_of_configIn? (hargs : Arguments.read args = .ok a) (henv : env.settings? = some s)
    (hc : configIn? a s t = some c) :
    (run (FileTree.host stdin) args env).run t =
      (runWith (FileTree.host stdin) a c env).run t := by
  rw [run_host hargs henv, hc]

theorem delivered_of_success {d : Schema.Document} (hargs : Arguments.read args = .ok a)
    (henv : env.settings? = some s) (hc : configIn? a s t = some c)
    (hsource : sourceIn? stdin a (afterLog c t) = some source)
    (hd : convertSource c.mode source = .ok d)
    (hexit : ((run (FileTree.host stdin) args env).run t).1.exit = .success) :
    Delivered c d t ((run (FileTree.host stdin) args env).run t).1
      ((run (FileTree.host stdin) args env).run t).2 := by
  obtain ⟨c₂, d₂, ⟨⟨s₂, henv₂, hc₂⟩, source₂, hsource₂, hd₂⟩, hdelivered⟩ :=
    (run_ends hargs).delivered (congrArg Exit.code hexit)
  cases henv.symm.trans henv₂
  cases hc.symm.trans hc₂
  cases hsource.symm.trans hsource₂
  cases hd.symm.trans hd₂
  exact hdelivered

/-- The log of a run with a readable source is the report about it from the configured level on,
which at the lowest level is all of it.  If there is a schema the report accounts for all that is in
it.  Any other run on the same source that is told the same mode and output, be its log at another
level or ruled by the variable, ends in the same way; and so does one with its log somewhere else,
if for neither log a directory has to be made that is in the way of the schema. -/
theorem run_log (hargs : Arguments.read args = .ok a) (henv : env.settings? = some s)
    (hc : configIn? a s t = some c) (hrust : env.get? "RUST_LOG" = none)
    (hsource : sourceIn? stdin a t = some source) (hapart : Apart a c t) :
    let r := (run (FileTree.host stdin) args env).run t
    r.1.sink = sinkIn c t ∧
      r.1.logged =
        (report c.mode source).filter (fun e => c.logging.level.rank ≤ e.level.rank) ∧
      (c.logging.level = .trace → r.1.logged = report c.mode source) ∧
      (∀ d, convertSource c.mode source = .ok d →
        (report c.mode source).countP Event.isMapped =
            d.definitions.size + (report c.mode source).countP Event.isReplaced ∧
          (r.1.exit = .success → Delivered c d t r.1 r.2)) ∧
      ∀ args' env' a' s' c', Arguments.read args' = .ok a' → Environment.settings? env' = some s' →
        configIn? a' s' t = some c' → a'.schema? = a.schema? → c'.mode = c.mode →
        c'.output = c.output →
          let r' := (run (FileTree.host stdin) args' env').run t
          (c'.logging.path? = c.logging.path? → r'.1.exit = r.1.exit ∧
            r'.1.stdout = r.1.stdout ∧ r'.1.sink = r.1.sink ∧ r'.2 = r.2) ∧
          (Apart a' c' t →
            (∀ d, convertSource c.mode source = .ok d → OutOfWay c t ∧ OutOfWay c' t) →
              Alike r r') := by
  intro r
  have hr : r = (runWith (FileTree.host stdin) a c env).run t := run_of_configIn? hargs henv hc
  have hread : sourceIn? stdin a (afterLog c t) = some source := sourceIn?_afterLog hapart hsource
  have hlogged : r.1.logged =
      (report c.mode source).filter fun e => c.logging.level.rank ≤ e.level.rank := by
    rw [hr, runWith_ending, hread]
    exact logOf_eq a hrust
  refine ⟨?_, hlogged, ?_, ?_, ?_⟩
  · rw [hr, runWith_ending]
  · intro htrace
    rw [hlogged, htrace]
    exact List.filter_eq_self.2 fun e _ => decide_eq_true (Nat.zero_le e.level.rank)
  · intro d hd
    exact ⟨countP_report hd, delivered_of_success hargs henv hc hread hd⟩
  · intro args' env' a' s' c' hargs' henv' hc' hschema hmode houtput r'
    have hr' : r' = (runWith (FileTree.host stdin) a' c' env').run t :=
      run_of_configIn? hargs' henv' hc'
    rw [hr, hr']
    exact ⟨runWith_same_destination hschema hmode houtput,
      fun hapart' hways => alike_runWith hschema hmode houtput hsource hapart hapart' hways⟩

/-- The second run logs nothing of its own level, but what the variable asks for, and into a file
for which a directory is made. -/
theorem run_log_of_replaced :
    let text := "scalar A directive @d on OBJECT scalar A"
    let t : FileTree := ⟨[], []⟩
    let env' := [("GQL2JSONSCHEMA_LOGGING__PATH", "logs"), ("RUST_LOG", "graphql=trace")]
    let r := (run (FileTree.host text.toUTF8) ["-l", "trace", "-o", "a.json"] []).run t
    let r' := (run (FileTree.host text.toUTF8) ["-l", "error", "-o", "a.json"] env').run t
    r.1.sink = .stderr ∧
      r.1.logged = [.started .relaxed, .converting 3 .relaxed, .mapped "A", .mapped "A",
        .replaced "A", .finished 1] ∧
      Alike r r' := by
  intro text t env' r r'
  have hargs : Arguments.read ["-l", "trace", "-o", "a.json"] =
      .ok { level? := some .trace, output? := some "a.json" } := rfl
  have henv : Environment.settings? [] = some (.map []) := rfl
  have hargs' : Arguments.read ["-l", "error", "-o", "a.json"] =
      .ok { level? := some .error, output? := some "a.json" } := rfl
  have henv' : Environment.settings? env' =
      some (.map [("logging", .map [("path", .text "logs")])]) := by with_unfolding_all rfl
  have hutf8 : String.fromUTF8? text.toUTF8 = some text := by decide +kernel
  have hds : Sdl.ofText? "scalar A directive @d on OBJECT scalar A" =
      some [.scalar "A", .directive ⟨"d", [], false, [.object]⟩, .scalar "A"] := by
    with_unfolding_all rfl
  have hreport : report .relaxed text = [.started .relaxed, .converting 3 .relaxed, .mapped "A",
      .mapped "A", .replaced "A", .finished 1] := by
    rw [report, hds]
    decide +kernel
  let c : Config := ⟨.relaxed, ⟨.trace, none⟩, { path? := some "a.json" }⟩
  let c' : Config := ⟨.relaxed, ⟨.error, some "logs"⟩, { path? := some "a.json" }⟩
  obtain ⟨hsink, -, hlogged, -, hruns⟩ : _ ∧ _ ∧ _ ∧ _ ∧ _ :=
    run_log (t := t) (c := c) hargs henv rfl rfl hutf8 nofun
  obtain ⟨-, halike⟩ := hruns _ _ _ _ c' hargs' henv' rfl rfl rfl rfl
  have hway' : OutOfWay c' t := by
    rintro directory path ⟨⟩ ⟨⟩ l hl hl'
    have hschema : t.way "a.json" = [[], ["a.json"]] := by rfl
    have hlogs : t.way "logs" = [[], ["logs"]] := by rfl
    rw [hschema] at hl
    rw [hlogs] at hl'
    revert l
    decide
  exact ⟨hsink, (hlogged rfl).trans hreport, halike nofun fun d _ => ⟨nofun, hway'⟩⟩

/-- The same run with and without a log file.  The schema can be written since the directory is made
for the log, though the log is neither its source nor its place. -/
theorem run_log_of_made_directory :
    let a : Arguments := { output? := some "out/schema.json" }
    let c : Config := ⟨.relaxed, ⟨.info, none⟩, { path? := some "out/schema.json" }⟩
    let c' : Config := { c with logging := ⟨.info, some "out"⟩ }
    let args := ["-o", "out/schema.json"]
    let env' := [("GQL2JSONSCHEMA_LOGGING__PATH", "out")]
    let t : FileTree := ⟨[], []⟩
    let r := (run (FileTree.host "scalar A".toUTF8) args []).run t
    let r' := (run (FileTree.host "scalar A".toUTF8) args env').run t
    (Arguments.read args = .ok a ∧ sourceIn? "scalar A".toUTF8 a t = some "scalar A") ∧
      (∃ s, Environment.settings? [] = some s ∧ configIn? a s t = some c) ∧
      (∃ s, Environment.settings? env' = some s ∧ configIn? a s t = some c') ∧
      Environment.get? env' "RUST_LOG" = none ∧
      Apart a c t ∧ Apart a c' t ∧ t.place (logPath "out") ≠ t.place "out/schema.json" ∧
      r.1.sink = .stderr ∧ r.1.exit = .failure (.output "out/schema.json") ∧
      r'.1.sink = .file "out" ∧ r'.1.exit = .success ∧ ¬ Alike r r' := by
  intro a c c' args env' t r r'
  have hargs : Arguments.read args = .ok a := rfl
  have henv : Environment.settings? [] = some (.map []) := rfl
  have henv' : Environment.settings? env' =
      some (.map [("logging", .map [("path", .text "out")])]) := by with_unfolding_all rfl
  have hutf8 : String.fromUTF8? "scalar A".toUTF8 = some "scalar A" := by decide +kernel
  have hds : Sdl.ofText? "scalar A" = some [.scalar "A"] := by with_unfolding_all rfl
  obtain ⟨d, hd⟩ : ∃ d, convertSource .relaxed "scalar A" = .ok d :=
    ⟨_, convertSource_eq_ok_iff.2 ⟨_, hds, rfl⟩⟩
  have hr : r = (runWith (FileTree.host "scalar A".toUTF8) a c []).run t :=
    run_of_configIn? hargs henv rfl
  have hr' : r' = (runWith (FileTree.host "scalar A".toUTF8) a c' env').run t :=
    run_of_configIn? hargs henv' rfl
  have hexit : r.1.exit = .failure (.output "out/schema.json") := by
    exact exit_of_failsWith hargs (.output (c := c) ⟨⟨_, henv, rfl⟩, _, hutf8, hd⟩ rfl rfl)
  have hexit' : r'.1.exit = .success := by
    have hread : sourceIn? "scalar A".toUTF8 a (afterLog c' t) = some "scalar A" := hutf8
    obtain ⟨t', hwrite⟩ : ∃ t', (afterLog c' t).writeFile? "out/schema.json"
        (render c'.output d).toUTF8 = some t' := ⟨_, rfl⟩
    have hmode : c'.mode = .relaxed := rfl
    have hpath : c'.output.path? = some "out/schema.json" := rfl
    rw [hr', runWith_ending, hread]
    simp only [ending, document_snd, hmode, hd, hpath, hwrite]
  have hsink : r.1.sink = .stderr := by
    rw [hr, runWith_ending]
    rfl
  have hsink' : r'.1.sink = .file "out" := by
    rw [hr', runWith_ending]
    rfl
  have hapart : Apart a c t := by
    rintro directory path ⟨⟩
  have hapart' : Apart a c' t := by
    rintro directory path - ⟨⟩
  have hlog : t.place (logPath "out") = ["out", "gql2jsonschema.log"] := rfl
  have hschema : t.place "out/schema.json" = ["out", "schema.json"] := rfl
  refine ⟨⟨hargs, hutf8⟩, ⟨_, henv, rfl⟩, ⟨_, henv', rfl⟩, rfl, hapart, hapart', ?_, hsink, hexit,
    hsink', hexit', fun halike => ?_⟩
  · rw [hlog, hschema]
    decide
  · have hsame := halike.exit
    rw [hexit, hexit'] at hsame
    cases hsame

end SdlSchema.Cli
