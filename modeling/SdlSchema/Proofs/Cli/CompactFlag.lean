import SdlSchema.Cli.Arguments

/-!
# The flag for compact output

No other option looks at the flag for compact output, so a command line that
is understood without it is also understood with it in front, and then asks
for the same but for the layout (`read_compact_cons`).
-/

namespace SdlSchema.Cli

namespace Arguments

def withCompact (a : Arguments) : Arguments := { a with compact := true }

/-- If the step does not set the flag, then it does the same with the flag set before. -/
def Overlooks (step : Arguments → Except Refusal Arguments) : Prop :=
  ∀ a b, step a = .ok b → b.compact = false →
    a.compact = false ∧ step a.withCompact = .ok b.withCompact

section Overlooks

variable {step next : Arguments → Except Refusal Arguments}

theorem Overlooks.pure : Overlooks Except.ok := by
  intro a b h hb
  cases h
  exact ⟨hb, rfl⟩

theorem Overlooks.error (r : Refusal) : Overlooks fun _ => .error r := by
  intro a b h
  cases h

theorem Overlooks.bind (hstep : Overlooks step) (hnext : Overlooks next) :
    Overlooks fun a => step a >>= next := by
  intro a c h hc
  dsimp only at h ⊢
  cases hb : step a with
  | error r =>
    rw [hb] at h
    cases h
  | ok b =>
    rw [hb] at h
    obtain ⟨hb', hnext⟩ := hnext b c h hc
    obtain ⟨ha, hstep⟩ := hstep a b hb hb'
    rw [hstep]
    exact ⟨ha, hnext⟩

/-- A step that sets another option to a value, if there is one. -/
theorem overlooks_map {α : Type} (value : Arguments → Except Refusal α)
    (set : α → Arguments → Arguments) (hvalue : ∀ a, value a.withCompact = value a)
    (hset : ∀ v a, (set v a).compact = a.compact ∧ set v a.withCompact = (set v a).withCompact) :
    Overlooks fun a => (value a).map fun v => set v a := by
  intro a b h hb
  dsimp only at h ⊢
  rw [hvalue]
  cases hv : value a with
  | error r =>
    rw [hv] at h
    cases h
  | ok v =>
    rw [hv] at h
    cases h
    exact ⟨(hset v a).1 ▸ hb, congrArg Except.ok (hset v a).2⟩

theorem overlooks_setter (s : Setter) (value : List Char) : Overlooks (s.apply value) := by
  cases s with
  | config => exact overlooks_map _ _ (fun _ => rfl) fun _ _ => ⟨rfl, rfl⟩
  | output => exact overlooks_map _ _ (fun _ => rfl) fun _ _ => ⟨rfl, rfl⟩
  | log => exact overlooks_map _ _ (fun _ => rfl) fun _ _ => ⟨rfl, rfl⟩

theorem overlooks_addPositional (value : List Char) : Overlooks (addPositional value) :=
  overlooks_map _ _ (fun _ => rfl) fun _ _ => ⟨rfl, rfl⟩

/-- A step that is refused or sets another option. -/
theorem overlooks_unless (refused : Arguments → Bool) (set : Arguments → Arguments)
    (hrefused : ∀ a, refused a.withCompact = refused a)
    (hset : ∀ a, (set a).compact = a.compact ∧ set a.withCompact = (set a).withCompact) :
    Overlooks fun a => if refused a then .error .usage else .ok (set a) := by
  intro a b h hb
  dsimp only at h ⊢
  rw [hrefused]
  split at h
  · cases h
  · next hallowed =>
    cases h
    rw [if_neg hallowed, (hset a).2]
    exact ⟨(hset a).1 ▸ hb, rfl⟩

theorem overlooks_flag (f : Flag) : Overlooks f.apply := by
  cases f with
  | strict =>
    exact overlooks_unless Arguments.strict (fun a => { a with strict := true }) (fun _ => rfl)
      fun _ => ⟨rfl, rfl⟩
  | relaxed =>
    exact overlooks_unless Arguments.relaxed (fun a => { a with relaxed := true }) (fun _ => rfl)
      fun _ => ⟨rfl, rfl⟩
  | compact =>
    -- Setting the flag leaves it set.
    intro a b h hb
    simp only [Flag.apply] at h
    split at h
    · cases h
    · cases h
      cases hb

theorem overlooks_readPositionals (args : List (List Char)) :
    Overlooks (readPositionals args) := by
  induction args with
  | nil => exact Overlooks.pure
  | cons arg args ih => exact (overlooks_addPositional arg).bind ih

section

variable {next : Pending → Arguments → Except Refusal Arguments}

/-- An option with its value. -/
theorem overlooks_value (hnext : ∀ pending, Overlooks (next pending)) (s : Setter)
    (value : List Char) : Overlooks fun a =>
      (do pure (← s.apply value a, none) : Except Refusal (Arguments × Pending)) >>= fun r =>
        next r.2 r.1 := by
  simp only [bind_assoc, pure_bind]
  exact (overlooks_setter s value).bind (hnext none)

/-- A bundle and what goes on after it, perhaps with the value that is still missing. -/
theorem overlooks_readLetters (hnext : ∀ pending, Overlooks (next pending)) (cs : List Char) :
    Overlooks fun a => readLetters cs a >>= fun r => next r.2 r.1 := by
  induction cs with
  | nil => exact hnext none
  | cons c cs ih =>
    simp only [readLetters]
    cases Choice.ofLetter? c with
    | none => exact .error .usage
    | some choice =>
      cases choice with
      | flag f =>
        simp only [bind_assoc]
        exact (overlooks_flag f).bind ih
      | setter s =>
        dsimp only
        split
        · exact hnext (some s)
        · exact overlooks_value hnext s _
        · exact overlooks_value hnext s _
      | help => exact .error .help

theorem overlooks_readLong (hnext : ∀ pending, Overlooks (next pending)) (text : List Char) :
    Overlooks fun a => readLong text a >>= fun r => next r.2 r.1 := by
  simp only [readLong]
  split
  · next f _ _ =>
    simp only [bind_assoc, pure_bind]
    exact (overlooks_flag f).bind (hnext none)
  · exact hnext (some _)
  · exact overlooks_value hnext _ _
  · exact .error .help
  · exact .error .usage

theorem overlooks_readArguments (args : List (List Char)) :
    ∀ pending, Overlooks (readArguments pending args) := by
  induction args with
  | nil =>
    intro pending
    cases pending with
    | none => exact Overlooks.pure
    | some s => exact .error .usage
  | cons arg args ih =>
    intro pending
    -- An argument is the value of an option that waits for it, and else looked at.
    cases pending with
    | some s =>
      change Overlooks fun a => readArguments (some s) (arg :: args) a
      simp only [readArguments]
      split
      · exact .error .usage
      · exact (overlooks_setter s arg).bind (ih none)
    | none =>
      change Overlooks fun a => readArguments none (arg :: args) a
      simp only [readArguments]
      split
      · exact overlooks_readPositionals args
      · exact overlooks_readLong ih _
      · exact overlooks_readLetters ih _
      · exact (overlooks_addPositional arg).bind (ih none)

end

end Overlooks

/-- The flag can be put in front of any command line that is understood and does not have it. -/
theorem read_compact_cons {args : List String} {a : Arguments} (h : read args = .ok a)
    (hcompact : a.compact = false) : read ("--compact" :: args) = .ok a.withCompact := by
  have hmodes : Overlooks fun a => if a.strict && a.relaxed then .error .usage else .ok a :=
    overlooks_unless (fun a => a.strict && a.relaxed) id (fun _ => rfl) fun _ => ⟨rfl, rfl⟩
  exact (((overlooks_readArguments (args.map String.toList) none).bind hmodes) {} a h hcompact).2

end Arguments

end SdlSchema.Cli
