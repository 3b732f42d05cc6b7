import SdlSchema.Cli.Run
import SdlSchema.Proofs.Cli.FileTree

/-!
# Runs do all or nothing

A run has four steps that can fail: reading the configuration, reading the
source, converting it and writing the schema.  It ends with the failure of the
first step that fails (`FailsWith`), having changed no file but its log; and if
none fails it has written the text of the schema to one place only
(`run_all_or_nothing`).
-/

namespace SdlSchema.Cli

open FileTree (Frame IsLogFile)

variable {stdin : ByteArray} {a : Arguments} {env : Environment} {t t' : FileTree}
  {args : List String}

/-! ## The steps -/

/-- The configuration of a run, if the environment and the configuration file agree to one. -/
def configIn? (a : Arguments) (settings : Setting) (t : FileTree) : Option Config :=
  config? a settings (a.config?.bind t.findFile?)

/-- The files after the log was opened, where the configuration asks for a log file. -/
def afterLog (c : Config) (t : FileTree) : FileTree :=
  match c.logging.path? with
  | none => t
  | some directory => (t.openLog directory).1

/-- The source text, which comes from standard input unless a file is named. -/
def sourceIn? (stdin : ByteArray) (a : Arguments) (t : FileTree) : Option String :=
  match a.schema? with
  | none => String.fromUTF8? stdin
  | some path => (t.readFile? path).bind String.fromUTF8?

/-- The steps up to the conversion go well: there are a configuration, a source text that is read
after the log was opened, and a schema of it. -/
structure Converts (stdin : ByteArray) (a : Arguments) (env : Environment) (t : FileTree)
    (c : Config) (d : Schema.Document) : Prop where
  config : ∃ settings, env.settings? = some settings ∧ configIn? a settings t = some c
  source : ∃ s, sourceIn? stdin a (afterLog c t) = some s ∧ convertSource c.mode s = .ok d

/-- The first step that fails does so with the given failure. -/
inductive FailsWith (stdin : ByteArray) (a : Arguments) (env : Environment) (t : FileTree) :
    Failure → Prop
  | config {settings : Setting} (henv : env.settings? = some settings)
      (h : configIn? a settings t = none) : FailsWith stdin a env t (.config a.config?)
  | source {settings : Setting} {c : Config} (henv : env.settings? = some settings)
      (hc : configIn? a settings t = some c) (h : sourceIn? stdin a (afterLog c t) = none) :
      FailsWith stdin a env t (.source a.schema?)
  | conversion {settings : Setting} {c : Config} {s : String} {e : Error}
      (henv : env.settings? = some settings) (hc : configIn? a settings t = some c)
      (hs : sourceIn? stdin a (afterLog c t) = some s) (h : convertSource c.mode s = .error e) :
      FailsWith stdin a env t (.conversion e)
  | output {c : Config} {d : Schema.Document} {path : String}
      (hd : Converts stdin a env t c d) (hpath : c.output.path? = some path)
      (h : (afterLog c t).writeFile? path (render c.output d).toUTF8 = none) :
      FailsWith stdin a env t (.output path)

/-- The location is that of the file in which the run logs. -/
def IsLog (o : Outcome) (t : FileTree) (l : Location) : Prop :=
  ∃ directory, o.sink = .file directory ∧ t.IsLogFile directory l

/-- The text of the schema is in one place, where the configuration says or else on standard output,
and no other file has changed but the log. -/
def Delivered (c : Config) (d : Schema.Document) (t : FileTree) (o : Outcome) (t' : FileTree) :
    Prop :=
  let text := d.text (if c.output.pretty then .pretty else .compact) ++ "\n"
  match c.output.path? with
  | none => o.stdout = text ∧ Frame (IsLog o t') t t'
  | some path => o.stdout = "" ∧ ∃ l, t'.locate? path = some l ∧
      (afterLog c t).Received t' l text.toUTF8 ∧ Frame (fun l' => l' = l ∨ IsLog o t' l') t t'

/-! ## Runs in a file tree -/

/-- Where the run logs. -/
def sinkIn (c : Config) (t : FileTree) : LogSink :=
  match c.logging.path? with
  | none => .stderr
  | some directory =>
    if (t.openLog directory).2 then .file directory else .fallback directory

theorem openLog_host (c : Config) (t : FileTree) :
    (openLog (FileTree.host stdin) c.logging).run t = (sinkIn c t, afterLog c t) := by
  unfold openLog sinkIn afterLog
  cases c.logging.path? with
  | none => rfl
  | some directory =>
    have hlog : ((FileTree.host stdin).openLog directory).run t =
        ((t.openLog directory).2, (t.openLog directory).1) := rfl
    simp only [StateT.run_bind, hlog]
    cases (t.openLog directory).2 <;> rfl

theorem frame_afterLog {o : Outcome} (c : Config) (t : FileTree) (h : o.sink = sinkIn c t) :
    Frame (IsLog o (afterLog c t)) t (afterLog c t) := by
  unfold afterLog sinkIn at *
  cases hpath : c.logging.path? with
  | none => exact Frame.refl _ t
  | some directory =>
    refine (t.frame_openLog directory).mono ?_
    rintro l ⟨hopened, hl⟩
    rw [hpath] at h
    simp only [hopened, if_true] at h
    exact ⟨directory, h, hl⟩

theorem readSource_host (a : Arguments) (t : FileTree) :
    (readSource (FileTree.host stdin) a).run t = (sourceIn? stdin a t, t) := by
  unfold readSource sourceIn?
  cases a.schema? <;> rfl

theorem readConfigFile_host (a : Arguments) (t : FileTree) :
    (readConfigFile (FileTree.host stdin) a).run t = (a.config?.bind t.findFile?, t) := by
  unfold readConfigFile
  cases a.config? <;> rfl

theorem deliver_host (output : Output) (text : String) (t : FileTree) :
    (deliver (FileTree.host stdin) output text).run t =
      match output.path? with
      | none => ((.success, text), t)
      | some path =>
        match t.writeFile? path text.toUTF8 with
        | some t' => ((.success, ""), t')
        | none => ((.failure (.output path), ""), t) := by
  unfold deliver
  cases output.path? with
  | none => rfl
  | some path =>
    have hwrite : ((FileTree.host stdin).writeFile path text.toUTF8).run t =
        (t.changed (t.writeFile? path text.toUTF8)).swap := rfl
    simp only [StateT.run_bind, hwrite]
    cases t.writeFile? path text.toUTF8 <;> rfl

theorem document_snd (a : Arguments) (mode : Mode) (source? : Option String) :
    (document a mode source?).2 =
      match source? with
      | none => .error (.source a.schema?)
      | some s => match convertSource mode s with
        | .error e => .error (.conversion e)
        | .ok d => .ok d := by
  cases source? with
  | none => rfl
  | some s =>
    simp only [document, convertSource]
    cases (convertSourceReported mode s).result <;> rfl

/-- What a run that was understood comes to. -/
inductive Ends (stdin : ByteArray) (a : Arguments) (env : Environment) (t : FileTree) :
    Outcome → FileTree → Prop
  | aborted {o : Outcome} {t' : FileTree} (henv : env.settings? = none) (hexit : o.exit = .abort)
      (hstdout : o.stdout = "") (htree : t' = t) : Ends stdin a env t o t'
  | failed {o : Outcome} {t' : FileTree} {f : Failure} (hf : FailsWith stdin a env t f)
      (hexit : o.exit = .failure f) (hstdout : o.stdout = "") (hframe : Frame (IsLog o t') t t') :
      Ends stdin a env t o t'
  | printed {o : Outcome} {t' : FileTree} {c : Config} {d : Schema.Document}
      (hd : Converts stdin a env t c d) (hpath : c.output.path? = none) (hexit : o.exit = .success)
      (hstdout : o.stdout = render c.output d) (hframe : Frame (IsLog o t') t t') :
      Ends stdin a env t o t'
  | written {o : Outcome} {t' : FileTree} {c : Config} {d : Schema.Document} {path : String}
      {l : Location} (hd : Converts stdin a env t c d) (hpath : c.output.path? = some path)
      (hexit : o.exit = .success) (hstdout : o.stdout = "") (hl : t'.locate? path = some l)
      (hreceived : (afterLog c t).Received t' l (render c.output d).toUTF8)
      (hframe : Frame (fun l' => l' = l ∨ IsLog o t' l') t t') : Ends stdin a env t o t'

/-- A file that is written keeps the log where it is. -/
theorem frame_written {o : Outcome} {c : Config} {l : Location} (h : o.sink = sinkIn c t)
    (hframe : Frame (· = l) (afterLog c t) t') : Frame (fun l' => l' = l ∨ IsLog o t' l') t t' := by
  refine Frame.trans ((frame_afterLog c t h).mono ?_) (hframe.mono fun l' => Or.inl)
  rintro l' ⟨directory, hsink, hl'⟩
  exact Or.inr ⟨directory, hsink, hframe.locate? hl'⟩

/-- How a run goes on from a source and an open log: its exit, what it prints, and the files. -/
def ending (a : Arguments) (c : Config) (source? : Option String) (t : FileTree) :
    (Exit × String) × FileTree :=
  match (document a c.mode source?).2 with
  | .error f => ((.failure f, ""), t)
  | .ok d =>
    match c.output.path? with
    | none => ((.success, render c.output d), t)
    | some path =>
      match t.writeFile? path (render c.output d).toUTF8 with
      | some t' => ((.success, ""), t')
      | none => ((.failure (.output path), ""), t)

/-- What a run logs about a source. -/
def logOf (a : Arguments) (c : Config) (env : Environment) (source? : Option String) : List Event :=
  (.started c.mode :: (document a c.mode source?).1).filter (logFilter c.logging env).admits

variable (stdin a env) in
theorem runWith_ending (c : Config) (t : FileTree) :
    (runWith (FileTree.host stdin) a c env).run t =
      (⟨(ending a c (sourceIn? stdin a (afterLog c t)) (afterLog c t)).1.1,
        (ending a c (sourceIn? stdin a (afterLog c t)) (afterLog c t)).1.2, sinkIn c t,
        logOf a c env (sourceIn? stdin a (afterLog c t))⟩,
        (ending a c (sourceIn? stdin a (afterLog c t)) (afterLog c t)).2) := by
  have hbind : ∀ {α β : Type} (x : α) (f : α → Id β), (bind (m := Id) x f) = f x :=
    fun _ _ => rfl
  unfold runWith ending
  simp only [StateT.run_bind, openLog_host, readSource_host, hbind]
  cases (document a c.mode (sourceIn? stdin a (afterLog c t))).2 with
  | error f => rfl
  | ok d =>
    simp only [StateT.run_bind, deliver_host, hbind]
    cases c.output.path? with
    | none => rfl
    | some path =>
      dsimp only
      cases (afterLog c t).writeFile? path (render c.output d).toUTF8 <;> rfl

theorem runWith_ends {settings : Setting} {c : Config} (henv : env.settings? = some settings)
    (hc : configIn? a settings t = some c) :
    Ends stdin a env t ((runWith (FileTree.host stdin) a c env).run t).1
      ((runWith (FileTree.host stdin) a c env).run t).2 := by
  rw [runWith_ending]
  unfold ending
  rw [document_snd]
  cases hs : sourceIn? stdin a (afterLog c t) with
  | none => exact .failed (.source henv hc hs) rfl rfl (frame_afterLog c t rfl)
  | some s =>
    dsimp only
    cases hd : convertSource c.mode s with
    | error e => exact .failed (.conversion henv hc hs hd) rfl rfl (frame_afterLog c t rfl)
    | ok d =>
      have hconverts : Converts stdin a env t c d := ⟨⟨settings, henv, hc⟩, s, hs, hd⟩
      dsimp only
      cases hpath : c.output.path? with
      | none => exact .printed hconverts hpath rfl rfl (frame_afterLog c t rfl)
      | some path =>
        dsimp only
        cases hwrite : (afterLog c t).writeFile? path (render c.output d).toUTF8 with
        | none => exact .failed (.output hconverts hpath hwrite) rfl rfl (frame_afterLog c t rfl)
        | some t' =>
          obtain ⟨l, hl, hreceived, hframe⟩ := FileTree.writeFile?_spec hwrite
          exact .written hconverts hpath rfl rfl hl hreceived (frame_written rfl hframe)

theorem run_usage (hargs : Arguments.read args = .error .usage) :
    (run (FileTree.host stdin) args env).run t = (⟨.refusal .usage, "", .stderr, []⟩, t) := by
  unfold run
  rw [hargs]
  rfl

theorem run_abort (hargs : Arguments.read args = .ok a) (henv : env.settings? = none) :
    (run (FileTree.host stdin) args env).run t = (⟨.abort, "", .stderr, []⟩, t) := by
  unfold run
  rw [hargs, henv]
  rfl

theorem run_host {settings : Setting} (hargs : Arguments.read args = .ok a)
    (henv : env.settings? = some settings) :
    (run (FileTree.host stdin) args env).run t =
      match configIn? a settings t with
      | none => (⟨.failure (.config a.config?), "", .stderr, []⟩, t)
      | some c => (runWith (FileTree.host stdin) a c env).run t := by
  unfold run configIn?
  rw [hargs, henv]
  simp only [StateT.run_bind, readConfigFile_host]
  change StateT.run (match config? a settings (a.config?.bind t.findFile?) with
    | none => _
    | some config => _) t = _
  cases config? a settings (a.config?.bind t.findFile?) <;> rfl

theorem run_ends (hargs : Arguments.read args = .ok a) :
    Ends stdin a env t ((run (FileTree.host stdin) args env).run t).1
      ((run (FileTree.host stdin) args env).run t).2 := by
  cases henv : env.settings? with
  | none =>
    rw [run_abort hargs henv]
    exact .aborted henv rfl rfl rfl
  | some settings =>
    rw [run_host hargs henv]
    cases hc : configIn? a settings t with
    | none => exact .failed (.config henv hc) rfl rfl (Frame.refl _ t)
    | some c => exact runWith_ends henv hc

/-- A run ends with the failure of the first step that fails. -/
theorem exit_of_failsWith {f : Failure} (hargs : Arguments.read args = .ok a)
    (hf : FailsWith stdin a env t f) :
    ((run (FileTree.host stdin) args env).run t).1.exit = .failure f := by
  cases hf with
  | config henv hc => rw [run_host hargs henv, hc]
  | @source settings c henv hc hs =>
    rw [run_host hargs henv, hc]
    simp only [runWith_ending, ending, document_snd, hs]
  | @conversion settings c s e henv hc hs hd =>
    rw [run_host hargs henv, hc]
    simp only [runWith_ending, ending, document_snd, hs, hd]
  | @output c d path hconverts hpath hwrite =>
    obtain ⟨⟨settings, henv, hc⟩, s, hs, hd⟩ := hconverts
    rw [run_host hargs henv, hc]
    simp only [runWith_ending, ending, document_snd, hs, hd, hpath, hwrite]

/-! ## All or nothing -/

section

variable {o : Outcome}

theorem Ends.nothing (h : Ends stdin a env t o t') (hcode : o.exit.code ≠ 0) :
    o.stdout = "" ∧ Frame (IsLog o t') t t' := by
  cases h with
  | aborted henv hexit hstdout htree =>
    rw [htree]
    exact ⟨hstdout, Frame.refl _ t⟩
  | failed hf hexit hstdout hframe => exact ⟨hstdout, hframe⟩
  | printed hd hpath hexit => exact absurd (congrArg Exit.code hexit) hcode
  | written hd hpath hexit => exact absurd (congrArg Exit.code hexit) hcode

theorem Ends.failsWith (h : Ends stdin a env t o t') (hcode : o.exit.code = 1) :
    ∃ f, FailsWith stdin a env t f ∧ o.exit = .failure f := by
  cases h with
  | failed hf hexit => exact ⟨_, hf, hexit⟩
  | aborted henv hexit => rw [hexit] at hcode; cases hcode
  | printed hd hpath hexit => rw [hexit] at hcode; cases hcode
  | written hd hpath hexit => rw [hexit] at hcode; cases hcode

theorem Ends.delivered (h : Ends stdin a env t o t') (hcode : o.exit.code = 0) :
    ∃ c d, Converts stdin a env t c d ∧ Delivered c d t o t' := by
  cases h with
  | aborted henv hexit => rw [hexit] at hcode; cases hcode
  | failed hf hexit => rw [hexit] at hcode; cases hcode
  | @printed c d hd hpath hexit hstdout hframe =>
    refine ⟨c, d, hd, ?_⟩
    rw [Delivered, hpath]
    exact ⟨hstdout, hframe⟩
  | @written c d path l hd hpath hexit hstdout hl hreceived hframe =>
    refine ⟨c, d, hd, ?_⟩
    rw [Delivered, hpath]
    exact ⟨hstdout, l, hl, hreceived, hframe⟩

theorem Ends.code_eq_zero (h : Ends stdin a env t o t') (henv : env.settings? ≠ none)
    (hnone : ∀ f, ¬ FailsWith stdin a env t f) : o.exit.code = 0 := by
  cases h with
  | aborted hno => exact absurd hno henv
  | failed hf => exact absurd hf (hnone _)
  | printed hd hpath hexit => exact congrArg Exit.code hexit
  | written hd hpath hexit => exact congrArg Exit.code hexit

end

/-- A run that does not succeed prints nothing and changes no file but its log; with exit code 1 it
reports the first step that failed.  A run that succeeds, which it does if no step fails, has
converted the source that was read and leaves the text of the schema in one place.  What it logs
does not show in the file tree. -/
theorem run_all_or_nothing (stdin : ByteArray) (args : List String) (env : Environment)
    (t : FileTree) (hhelp : Arguments.read args ≠ .error .help) :
    let o := ((run (FileTree.host stdin) args env).run t).1
    let t' := ((run (FileTree.host stdin) args env).run t).2
    (o.exit.code ≠ 0 → o.stdout = "" ∧ Frame (IsLog o t') t t') ∧
      (o.exit.code = 1 → ∃ a f,
        Arguments.read args = .ok a ∧ FailsWith stdin a env t f ∧ o.exit = .failure f) ∧
      (o.exit.code = 0 → ∃ a c d,
        Arguments.read args = .ok a ∧ Converts stdin a env t c d ∧ Delivered c d t o t') ∧
      ∀ a, Arguments.read args = .ok a → env.settings? ≠ none →
        (∀ f, FailsWith stdin a env t f → o.exit = .failure f) ∧
          ((∀ f, ¬ FailsWith stdin a env t f) → o.exit.code = 0) := by
  intro o t'
  cases hargs : Arguments.read args with
  | error r =>
    cases r with
    | help => exact absurd hargs hhelp
    | usage =>
      obtain ⟨ho, ht⟩ : o = ⟨.refusal .usage, "", .stderr, []⟩ ∧ t' = t :=
        Prod.mk.inj (run_usage hargs)
      rw [ho, ht]
      exact ⟨fun _ => ⟨rfl, Frame.refl _ t⟩, nofun, nofun, nofun⟩
  | ok a =>
    have hends : Ends stdin a env t o t' := run_ends hargs
    refine ⟨hends.nothing, fun hcode => ?_, fun hcode => ?_, ?_⟩
    · obtain ⟨f, hf, hexit⟩ := hends.failsWith hcode
      exact ⟨a, f, rfl, hf, hexit⟩
    · obtain ⟨c, d, hd, hdelivered⟩ := hends.delivered hcode
      exact ⟨a, c, d, rfl, hd, hdelivered⟩
    · rintro a' ha' henv
      cases ha'
      exact ⟨fun f hf => exit_of_failsWith hargs hf, hends.code_eq_zero henv⟩

/-- A run that does not find its source reports that and writes nothing. -/
theorem run_all_or_nothing_of_missing_source :
    let args := ["-so", "out.json", "schema.graphql"]
    let t : FileTree := ⟨[(["out.json"], .file "old".toUTF8)], []⟩
    let r := (run (FileTree.host .empty) args []).run t
    Arguments.read args ≠ .error .help ∧ r.1.exit = .failure (.source (some "schema.graphql")) ∧
      r.1.stdout = "" ∧ Frame (IsLog r.1 r.2) t r.2 := by
  intro args t r
  have hread : Arguments.read args =
      .ok { schema? := some "schema.graphql", output? := some "out.json", strict := true } := rfl
  have hhelp : Arguments.read args ≠ .error .help := by
    rw [hread]
    nofun
  obtain ⟨hnothing, -, -, hsteps⟩ := run_all_or_nothing .empty args [] t hhelp
  have hexit : r.1.exit = .failure (.source (some "schema.graphql")) :=
    (hsteps _ hread (by nofun)).1 _ (.source (c := _) rfl rfl rfl)
  exact ⟨hhelp, hexit, hnothing (by rw [hexit]; decide)⟩

end SdlSchema.Cli
