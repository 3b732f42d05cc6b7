import SdlSchema.Proofs.Cli.Run
import SdlSchema.Proofs.Cli.Setting

/-!
# Where the settings of a run come from

Each setting of a run has the value of its flag, or else the one that the
environment and the configuration file give under its path, or else its default
(`Layered`).  Nothing else has a part in it: not the flags of other settings,
not the variables that concern other paths, and not what the file has where the
environment has something already (`run_layers`).
-/

namespace SdlSchema.Cli

open Setting (at? blocks overlay)

/-! ## Values -/

/-- The value is that of the flag, or else what the setting means, or else the default. -/
def Takes {α : Type} (flag? : Option α) (given? : Option Setting) (decode : Setting → Option α)
    (dflt v : α) : Prop :=
  match flag?, given? with
  | some w, _ => v = w
  | none, some s => decode s = some v
  | none, none => v = dflt

section

variable {α : Type} {flag? : Option α} {given? : Option Setting} {decode : Setting → Option α}
  {dflt v v' : α}

theorem decode?_eq_some_iff :
    Setting.decode? decode dflt given? = some v ↔ Takes none given? decode dflt v := by
  cases given? with
  | none => simp [Setting.decode?, Takes, eq_comm]
  | some s => simp [Setting.decode?, Takes]

/-- A flag takes the place of what it is given over. -/
theorem Takes.getD (h : Takes none given? decode dflt v) :
    Takes flag? given? decode dflt (flag?.getD v) := by
  cases flag? with
  | none => exact h
  | some w => rfl

theorem Takes.unique (h : Takes flag? given? decode dflt v)
    (h' : Takes flag? given? decode dflt v') : v = v' := by
  cases flag? with
  | some w => exact h.trans h'.symm
  | none =>
    cases given? with
    | none => exact h.trans h'.symm
    | some s => exact Option.some.inj (h.symm.trans h')

end

/-! ## Configurations -/

namespace Arguments

/-- The mode of which a flag asks. -/
def mode? (a : Arguments) : Option Mode :=
  if a.strict then some .strict else if a.relaxed then some .relaxed else none

/-- The layout of which a flag asks. -/
def pretty? (a : Arguments) : Option Bool := if a.compact then some false else none

end Arguments

/-- Every setting has its value from its flag, from the settings under its path, or by default. -/
structure Layered (a : Arguments) (s : Setting) (c : Config) : Prop where
  mode : Takes a.mode? (s.at? ["mode"]) (Setting.asName? Mode.ofName?) .relaxed c.mode
  level : Takes a.level? (s.at? ["logging", "level"]) (Setting.asName? Level.ofName?) .info
    c.logging.level
  logPath : Takes none (s.at? ["logging", "path"]) Setting.asPath? none c.logging.path?
  outputPath : Takes (a.output?.map some) (s.at? ["output", "path"]) Setting.asPath? none
    c.output.path?
  pretty : Takes a.pretty? (s.at? ["output", "pretty"]) Setting.asBool? true c.output.pretty

namespace Layered

variable {a : Arguments} {s : Setting} {c c' : Config}

theorem unique (h : Layered a s c) (h' : Layered a s c') : c = c' := by
  obtain ⟨mode, ⟨level, logPath⟩, ⟨outputPath, pretty⟩⟩ := c
  obtain ⟨mode', ⟨level', logPath'⟩, ⟨outputPath', pretty'⟩⟩ := c'
  have hmode : mode = mode' := h.mode.unique h'.mode
  have hlevel : level = level' := h.level.unique h'.level
  have hlogPath : logPath = logPath' := h.logPath.unique h'.logPath
  have houtputPath : outputPath = outputPath' := h.outputPath.unique h'.outputPath
  have hpretty : pretty = pretty' := h.pretty.unique h'.pretty
  rw [hmode, hlevel, hlogPath, houtputPath, hpretty]

/-- The arguments add their flags. -/
theorem override (h : Layered {} s c) (a : Arguments) : Layered a s (Config.override a c) where
  mode := by
    have hmode : (Config.override a c).mode = a.mode?.getD c.mode := by
      unfold Config.override Arguments.mode?
      cases a.strict <;> cases a.relaxed <;> rfl
    rw [hmode]
    exact h.mode.getD
  level := h.level.getD
  logPath := h.logPath
  outputPath := by
    have hpath : (Config.override a c).output.path? = (a.output?.map some).getD c.output.path? := by
      unfold Config.override
      cases a.output? <;> rfl
    rw [hpath]
    exact h.outputPath.getD
  pretty := by
    have hpretty : (Config.override a c).output.pretty = a.pretty?.getD c.output.pretty := by
      unfold Config.override Arguments.pretty?
      cases a.compact <;> simp
    rw [hpretty]
    exact h.pretty.getD

end Layered

/-! ## Settings as configurations -/

/-- The sections that the settings have are mappings. -/
structure HasSections (s : Setting) : Prop where
  logging : ∀ v, s.at? ["logging"] = some v → ∃ es, v = .map es
  output : ∀ v, s.at? ["output"] = some v → ∃ es, v = .map es

theorem at?_singleton (k : String) (s : Setting) : s.at? [k] = s.get? k := by
  unfold Setting.at?
  cases s.get? k <;> rfl

theorem at?_pair (k k' : String) (s : Setting) :
    s.at? [k, k'] = (s.at? [k]).bind (Setting.get? k') := by
  rw [at?_singleton]
  change (s.get? k).bind (at? [k']) = _
  cases s.get? k with
  | none => rfl
  | some v => exact at?_singleton k' v

theorem logging_ofSetting?_eq_some_iff {es : List (String × Setting)} {l : Logging} :
    Logging.ofSetting? (.map es) = some l ↔
      Takes none (Setting.find? "level" es) (Setting.asName? Level.ofName?) .info l.level ∧
        Takes none (Setting.find? "path" es) Setting.asPath? none l.path? := by
  obtain ⟨level, path?⟩ := l
  rw [← decode?_eq_some_iff, ← decode?_eq_some_iff]
  simp [Logging.ofSetting?, Setting.fields?, Option.bind_eq_some_iff]

theorem output_ofSetting?_eq_some_iff {es : List (String × Setting)} {o : Output} :
    Output.ofSetting? (.map es) = some o ↔
      Takes none (Setting.find? "path" es) Setting.asPath? none o.path? ∧
        Takes none (Setting.find? "pretty" es) Setting.asBool? true o.pretty := by
  obtain ⟨path?, pretty⟩ := o
  rw [← decode?_eq_some_iff, ← decode?_eq_some_iff]
  simp [Output.ofSetting?, Setting.fields?, Option.bind_eq_some_iff]

theorem decode?_logging_eq_some_iff {given? : Option Setting} {l : Logging}
    (hmap : ∀ v, given? = some v → ∃ es, v = .map es) :
    Setting.decode? Logging.ofSetting? {} given? = some l ↔
      Takes none (given?.bind (Setting.get? "level")) (Setting.asName? Level.ofName?) .info
          l.level ∧
        Takes none (given?.bind (Setting.get? "path")) Setting.asPath? none l.path? := by
  cases given? with
  | none =>
    obtain ⟨level, path?⟩ := l
    simp [Setting.decode?, Takes, eq_comm]
  | some v =>
    obtain ⟨es, rfl⟩ := hmap v rfl
    exact logging_ofSetting?_eq_some_iff

theorem decode?_output_eq_some_iff {given? : Option Setting} {o : Output}
    (hmap : ∀ v, given? = some v → ∃ es, v = .map es) :
    Setting.decode? Output.ofSetting? {} given? = some o ↔
      Takes none (given?.bind (Setting.get? "path")) Setting.asPath? none o.path? ∧
        Takes none (given?.bind (Setting.get? "pretty")) Setting.asBool? true o.pretty := by
  cases given? with
  | none =>
    obtain ⟨path?, pretty⟩ := o
    simp [Setting.decode?, Takes, eq_comm]
  | some v =>
    obtain ⟨es, rfl⟩ := hmap v rfl
    exact output_ofSetting?_eq_some_iff

/-- Settings make a configuration if each of them, by itself, can be understood. -/
theorem config_ofSetting?_eq_some_iff {es : List (String × Setting)} {c : Config}
    (h : HasSections (.map es)) :
    Config.ofSetting? (.map es) = some c ↔ Layered {} (.map es) c := by
  obtain ⟨hlogging, houtput⟩ := h
  obtain ⟨mode, logging, output⟩ := c
  rw [at?_singleton] at hlogging houtput
  have hsections : Config.ofSetting? (.map es) = some ⟨mode, logging, output⟩ ↔
      Setting.decode? (Setting.asName? Mode.ofName?) .relaxed (Setting.get? "mode" (.map es)) =
          some mode ∧
        Setting.decode? Logging.ofSetting? {} (Setting.get? "logging" (.map es)) = some logging ∧
        Setting.decode? Output.ofSetting? {} (Setting.get? "output" (.map es)) = some output := by
    simp only [Config.ofSetting?, Setting.get?, Option.bind_eq_bind, Option.bind_eq_some_iff,
      Option.pure_def, Option.some.injEq, Config.mk.injEq]
    constructor
    · rintro ⟨_, hmode, _, hlogging, _, houtput, rfl, rfl, rfl⟩
      exact ⟨hmode, hlogging, houtput⟩
    · rintro ⟨hmode, hlogging, houtput⟩
      exact ⟨_, hmode, _, hlogging, _, houtput, rfl, rfl, rfl⟩
  rw [hsections, decode?_eq_some_iff, decode?_logging_eq_some_iff hlogging,
    decode?_output_eq_some_iff houtput]
  constructor
  · rintro ⟨hmode, ⟨hlevel, hlogPath⟩, houtputPath, hpretty⟩
    refine ⟨?_, ?_, ?_, ?_, ?_⟩
    · rw [at?_singleton]
      exact hmode
    all_goals rw [at?_pair, at?_singleton]; assumption
  · rintro ⟨hmode, hlevel, hlogPath, houtputPath, hpretty⟩
    rw [at?_singleton] at hmode
    rw [at?_pair, at?_singleton] at hlevel hlogPath houtputPath hpretty
    exact ⟨hmode, ⟨hlevel, hlogPath⟩, houtputPath, hpretty⟩

/-! ## Runs -/

section

variable {stdin : ByteArray} {args : List String} {env : Environment} {t : FileTree}
  {a : Arguments} {s : Setting} {fs : List (String × Setting)}

theorem configIn?_eq (hfile : fileSettings? (a.config?.bind t.findFile?) = some (.map fs)) :
    configIn? a s t =
      (Config.ofSetting? (s.merge (.map fs))).map (Config.override a) := by
  unfold configIn? config? settings?
  rw [hfile]
  rfl

/-- Of a command line, the settings of its environment and those of its configuration file: what
the environment has under a path counts before what the file has there, and depends only on the
variables that concern the path.  Without a configuration file the file gives nothing.  If the two
together make no configuration, the run fails with that, whatever the flags are; else, if the
sections are mappings, the run has for each setting the value of its flag, or else the given one, or
else the default. -/
theorem run_layers (hargs : Arguments.read args = .ok a) (henv : env.settings? = some s)
    (hfile : fileSettings? (a.config?.bind t.findFile?) = some (.map fs)) :
    let merged := s.merge (.map fs)
    let r := (run (FileTree.host stdin) args env).run t
    (∀ p, merged.at? p = if s.blocks p then none else overlay (s.at? p) ((Setting.map fs).at? p)) ∧
      (∀ (p : List String) (env' : Environment) (s' : Setting), env'.settings? = some s' →
        env'.filter (Environment.concerns p) = env.filter (Environment.concerns p) →
          s'.at? p = s.at? p) ∧
      (a.config? = none → fs = []) ∧
      (Config.ofSetting? merged = none →
        r.1.exit = .failure (.config a.config?) ∧ r.1.exit.code = 1) ∧
      (HasSections merged →
        (∀ c₀, Config.ofSetting? merged = some c₀ ↔ Layered {} merged c₀) ∧
          (Config.ofSetting? merged ≠ none →
            ∃ c, Layered a merged c ∧ r = (runWith (FileTree.host stdin) a c env).run t)) := by
  intro merged r
  have hconfig : configIn? a s t = (Config.ofSetting? merged).map (Config.override a) :=
    configIn?_eq hfile
  obtain ⟨es, hes⟩ : ∃ es, merged = .map es := by
    obtain ⟨ss, rfl⟩ := Environment.exists_map_of_settings? henv
    exact ⟨_, rfl⟩
  refine ⟨fun p => Setting.at?_merge p s (.map fs), ?_, ?_, ?_, ?_⟩
  · exact fun p env' s' hs' h => Environment.at?_settings?_congr henv hs' h
  · intro hnone
    rw [hnone] at hfile
    cases hfile
    rfl
  · intro hnone
    rw [hnone] at hconfig
    have hr : r = (⟨.failure (.config a.config?), "", .stderr, []⟩, t) := by
      change (run (FileTree.host stdin) args env).run t = _
      rw [run_host hargs henv, hconfig]
      rfl
    rw [hr]
    exact ⟨rfl, rfl⟩
  · intro hsections
    rw [hes] at hsections ⊢
    have hlayers : ∀ c₀, Config.ofSetting? (.map es) = some c₀ ↔ Layered {} (.map es) c₀ :=
      fun c₀ => config_ofSetting?_eq_some_iff hsections
    refine ⟨hlayers, fun hsome => ?_⟩
    obtain ⟨c₀, hc₀⟩ := Option.ne_none_iff_exists'.1 hsome
    refine ⟨Config.override a c₀, ((hlayers c₀).1 hc₀).override a, ?_⟩
    rw [hes, hc₀] at hconfig
    change (run (FileTree.host stdin) args env).run t = _
    rw [run_host hargs henv, hconfig]
    rfl

/-- The mode that the file has means nothing, but the environment has another one. -/
theorem run_layers_of_three_sources :
    let text := "mode: ~\noutput:\n  pretty: true"
    let args := ["-c", "c.yaml", "-l", "debug"]
    let env := [("GQL2JSONSCHEMA_MODE", "strict"), ("GQL2JSONSCHEMA_OUTPUT__PATH", "o.json")]
    let t : FileTree := ⟨[(["c.yaml"], .file text.toUTF8)], []⟩
    let a : Arguments := { config? := some "c.yaml", level? := some .debug }
    let c : Config := ⟨.strict, ⟨.debug, none⟩, ⟨some "o.json", true⟩⟩
    let merged : Setting := .map
      [("output", .map [("path", .text "o.json"), ("pretty", .bool true)]),
        ("mode", .text "strict")]
    Arguments.read args = .ok a ∧
      fileSettings? (t.findFile? "c.yaml") =
        some (.map [("output", .map [("pretty", .bool true)]), ("mode", .null)]) ∧
      Layered a merged c ∧
      (run (FileTree.host .empty) args env).run t =
        (runWith (FileTree.host .empty) a c env).run t := by
  intro text args env t a c merged
  have hargs : Arguments.read args = .ok a := rfl
  have henv : Environment.settings? env =
      some (.map [("output", .map [("path", .text "o.json")]), ("mode", .text "strict")]) := by
    with_unfolding_all rfl
  have hyaml : Yaml.ofText? text =
      some (.map [("output", .map [("pretty", .bool true)]), ("mode", .null)]) := by
    have hallowed : text.toList.all Yaml.isAllowed = true := by decide +kernel
    have htokens : Yaml.Layout.tokens? (Yaml.Symbol.ofChars .start text.toList) =
        some [.blockMapping, .key, .scalar .plain "mode", .value, .scalar .plain "~",
          .key, .scalar .plain "output", .value, .blockMapping, .key, .scalar .plain "pretty",
          .value, .scalar .plain "true", .blockEnd, .blockEnd] := by decide +kernel
    unfold Yaml.ofText?
    rw [if_pos hallowed, htokens]
    with_unfolding_all rfl
  have hfile : fileSettings? (t.findFile? "c.yaml") =
      some (.map [("output", .map [("pretty", .bool true)]), ("mode", .null)]) := by
    have hutf8 : String.fromUTF8? text.toUTF8 = some text := by decide +kernel
    change (String.fromUTF8? text.toUTF8).bind Yaml.ofText? = _
    rw [hutf8]
    exact hyaml
  have hmerged : (Setting.map [("output", .map [("path", .text "o.json")]),
      ("mode", .text "strict")]).merge
        (.map [("output", .map [("pretty", .bool true)]), ("mode", .null)]) = merged := by
    with_unfolding_all rfl
  have hsections : HasSections merged := ⟨nofun, fun v h => ⟨_, (Option.some.inj h).symm⟩⟩
  have hconfig : Config.ofSetting? merged = some ⟨.strict, {}, ⟨some "o.json", true⟩⟩ := rfl
  obtain ⟨-, -, -, -, hlayers⟩ := @run_layers .empty args env t a _ _ hargs henv hfile
  rw [hmerged] at hlayers
  obtain ⟨hiff, hused⟩ := hlayers hsections
  obtain ⟨c', hc', hrun⟩ := hused (by rw [hconfig]; nofun)
  have hc : Layered a merged c := ((hiff _).1 hconfig).override a
  rw [← hc.unique hc'] at hrun
  exact ⟨hargs, hfile, hc, hrun⟩

end

end SdlSchema.Cli
