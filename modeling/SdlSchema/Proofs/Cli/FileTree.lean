import SdlSchema.Cli.FileTree

/-!
# What operations leave alone in a file tree

Every operation on a file tree changes the files at few locations, and never
takes a directory away (`Frame`).  So a path that leads somewhere still does
after it.  Opening a log changes nothing but the log file
(`frame_openLog`), writing a file nothing but that file (`writeFile?_spec`).
-/

namespace SdlSchema.Cli.FileTree

variable {t t' t'' : FileTree} {l : Location} {n : Node} {path : String}

/-! ## Names -/

/-- Where a name leads from a location, if that is a directory. -/
def step (l : Location) (name : String) : Location :=
  if name = ".." then l.dropLast else l ++ [name]

/-- Names are followed step by step, each from a directory. -/
theorem follow_cons (t : FileTree) (l : Location) (name : String) (names : List String) :
    t.follow l (name :: names) =
      if t.isDirectory l = true ∧ (name = ".." ∨ name.utf8ByteSize ≤ Path.nameLimit) then
        t.follow (step l name) names
      else none := by
  rw [follow, step]
  cases t.isDirectory l with
  | false => simp
  | true =>
    by_cases hup : name = ".."
    · simp [hup]
    · by_cases hlimit : Path.nameLimit < name.utf8ByteSize
      · simp [hup, hlimit, Nat.not_le.2 hlimit]
      · simp [hup, hlimit, Nat.not_lt.1 hlimit]

/-! ## Frames -/

/-- What stands at a location, unless that is a directory. -/
def file? (t : FileTree) (l : Location) : Option Node :=
  match t.node? l with
  | some .directory => none
  | n? => n?

theorem file?_eq_some_iff : t.file? l = some n ↔ t.node? l = some n ∧ n ≠ .directory := by
  unfold file?
  cases t.node? l with
  | none => simp
  | some n' =>
    cases n' with
    | directory =>
      constructor
      · nofun
      · rintro ⟨⟨⟩, hne⟩
        exact absurd rfl hne
    | file | device =>
      constructor
      · rintro ⟨⟩
        exact ⟨rfl, nofun⟩
      · exact And.left

/-- Outside of some locations all files are as before, and all directories are still there. -/
structure Frame (changed : Location → Prop) (t t' : FileTree) : Prop where
  home : t'.home = t.home
  directory : ∀ l, t.isDirectory l = true → t'.isDirectory l = true
  file : ∀ l, ¬ changed l → t'.file? l = t.file? l

namespace Frame

variable {changed changed' : Location → Prop}

theorem refl (changed : Location → Prop) (t : FileTree) : Frame changed t t :=
  ⟨rfl, fun _ h => h, fun _ _ => rfl⟩

theorem mono (hsub : ∀ l, changed l → changed' l) (h : Frame changed t t') :
    Frame changed' t t' :=
  ⟨h.home, h.directory, fun l hl => h.file l fun hc => hl (hsub l hc)⟩

theorem trans (h : Frame changed t t') (h' : Frame changed t' t'') : Frame changed t t'' :=
  ⟨h'.home.trans h.home, fun l hl => h'.directory l (h.directory l hl),
    fun l hl => (h'.file l hl).trans (h.file l hl)⟩

/-- A path goes through directories only, and these are still there. -/
theorem follow (h : Frame changed t t') {names : List String} :
    ∀ {l l' : Location}, t.follow l names = some l' → t'.follow l names = some l' := by
  induction names with
  | nil => exact fun hl => hl
  | cons name names ih =>
    intro l l' hl
    rw [follow_cons] at hl ⊢
    split at hl
    · next hstep =>
      rw [if_pos ⟨h.directory l hstep.1, hstep.2⟩]
      exact ih hl
    · cases hl

theorem locate? (h : Frame changed t t') (hl : t.locate? path = some l) :
    t'.locate? path = some l := by
  unfold FileTree.locate? FileTree.locateFrom? at hl ⊢
  rw [h.home]
  split at hl
  · next husable => rw [if_pos husable]; exact h.follow hl
  · cases hl

theorem node? (h : Frame changed t t') (hl : ¬ changed l) (hn : t.node? l = some n)
    (hne : n ≠ .directory) : t'.node? l = some n := by
  have hfile : t'.file? l = some n := (h.file l hl).trans (file?_eq_some_iff.2 ⟨hn, hne⟩)
  exact (file?_eq_some_iff.1 hfile).1

theorem readFile? {content : ByteArray} (h : Frame changed t t')
    (hread : t.readFile? path = some content)
    (hne : ∀ l, t.locate? path = some l → ¬ changed l) : t'.readFile? path = some content := by
  unfold FileTree.readFile? at hread ⊢
  split at hread
  · cases hread
  next hpath =>
    rw [if_neg hpath]
    cases hl : t.locate? path with
    | none =>
      rw [hl] at hread
      cases hread
    | some l =>
      rw [hl, Option.bind_some] at hread
      rw [h.locate? hl, Option.bind_some]
      cases hn : t.node? l with
      | none =>
        rw [hn] at hread
        cases hread
      | some n =>
        rw [hn] at hread
        cases n with
        | directory => cases hread
        | file | device =>
          rw [h.node? (hne l hl) hn nofun]
          exact hread

end Frame

/-! ## Single nodes -/

theorem ne_nil_of_not_isDirectory (h : t.isDirectory l = false) : l ≠ [] := by
  rintro rfl
  cases h

theorem node?_put_self (hl : l ≠ []) : (t.put l n).node? l = some n := by
  have hempty : l.isEmpty = false := List.isEmpty_eq_false_iff.2 hl
  simp [node?, put, hempty]

theorem node?_put_of_ne {l' : Location} (h : l' ≠ l) : (t.put l n).node? l' = t.node? l' := by
  have hne : (l = l') = False := eq_false (Ne.symm h)
  unfold node? put
  simp only [List.find?_cons, hne, decide_false, List.find?_filter]
  congr 3
  funext m
  by_cases hm : m.1 = l'
  · simp [hm, h]
  · simp [hm]

/-- Putting a node where no directory is changes no other file. -/
theorem frame_put (h : t.isDirectory l = false) : Frame (· = l) t (t.put l n) := by
  refine ⟨rfl, ?_, ?_⟩
  · intro l' hdir
    have hne : l' ≠ l := by
      rintro rfl
      rw [h] at hdir
      cases hdir
    unfold isDirectory at hdir ⊢
    rw [node?_put_of_ne hne]
    exact hdir
  · intro l' hne
    unfold file?
    rw [node?_put_of_ne hne]

/-- A new directory is no file. -/
theorem frame_put_directory (hl : l ≠ []) (h : t.node? l = none) :
    Frame (fun _ => False) t (t.put l .directory) := by
  have hput : Frame (· = l) t (t.put l .directory) := frame_put (by simp [isDirectory, h])
  refine ⟨hput.home, hput.directory, ?_⟩
  intro l' _
  by_cases hl' : l' = l
  · subst hl'
    simp [file?, h, node?_put_self hl]
  · exact hput.file l' hl'

/-! ## The log -/

theorem writable?_eq_some_iff : t.writable? path = some l ↔
    Path.isDirectory path = false ∧ t.locate? path = some l ∧ t.isDirectory l = false := by
  unfold writable?
  cases Path.isDirectory path with
  | true => simp
  | false =>
    cases t.locate? path with
    | none => simp
    | some l' =>
      by_cases h : t.isDirectory l' = true
      · simp only [h, if_true]
        constructor
        · nofun
        · rintro ⟨-, hl, hdir⟩
          cases hl
          rw [h] at hdir
          cases hdir
      · rw [Bool.not_eq_true] at h
        simp only [h, Bool.false_eq_true, if_false, Option.some.injEq, true_and]
        constructor
        · rintro rfl
          exact ⟨rfl, h⟩
        · exact fun hl => hl.1

theorem touch?_spec (h : t.touch? path = some t') :
    ∃ l, t'.locate? path = some l ∧ Frame (· = l) t t' := by
  obtain ⟨l, hl, rfl⟩ := Option.map_eq_some_iff.1 h
  obtain ⟨-, hlocate, hdir⟩ := writable?_eq_some_iff.1 hl
  have hframe : Frame (· = l) t
      (if (t.node? l).isSome then t else t.put l (.file .empty)) := by
    split
    · exact Frame.refl _ t
    · exact frame_put hdir
  exact ⟨l, hframe.locate? hlocate, hframe⟩

theorem frame_makeDirectories (names : List String) :
    ∀ (t : FileTree) (l : Location), Frame (fun _ => False) t (t.makeDirectories l names).1 := by
  induction names with
  | nil => exact fun t l => Frame.refl _ t
  | cons name names ih =>
    intro t l
    unfold makeDirectories
    split
    · exact ih t l.dropLast
    split
    · exact Frame.refl _ t
    dsimp only
    split
    · exact ih t (l ++ [name])
    · exact Frame.refl _ t
    · next hnone => exact (frame_put_directory (by simp) hnone).trans (ih _ _)

theorem frame_makeDirectory (t : FileTree) (path : String) :
    Frame (fun _ => False) t (t.makeDirectory path).1 := by
  unfold makeDirectory
  split
  · exact frame_makeDirectories _ t _
  · exact Frame.refl _ t

/-- The location is that of the log file in the directory. -/
def IsLogFile (t : FileTree) (directory : String) (l : Location) : Prop :=
  t.locate? (logPath directory) = some l

/-- A log that was opened is the only file that changed, and else no file has changed. -/
theorem frame_openLog (t : FileTree) (directory : String) :
    Frame (fun l => (t.openLog directory).2 = true ∧ (t.openLog directory).1.IsLogFile directory l)
      t (t.openLog directory).1 := by
  have htouch : ∀ {t t' : FileTree}, t.touch? (logPath directory) = some t' →
      Frame (t'.IsLogFile directory) t t' := by
    intro t t' h
    obtain ⟨l, hl, hframe⟩ := touch?_spec h
    refine hframe.mono ?_
    rintro l' rfl
    exact hl
  unfold openLog
  cases h : t.touch? (logPath directory) with
  | some t' => exact (htouch h).mono fun _ hl => ⟨rfl, hl⟩
  | none =>
    have hmake := frame_makeDirectory t directory
    dsimp only
    cases hmade : t.makeDirectory directory with
    | mk t₁ made =>
      rw [hmade] at hmake
      cases made with
      | false => exact hmake.mono fun _ => False.elim
      | true =>
        dsimp only
        cases h₁ : t₁.touch? (logPath directory) with
        | none => exact hmake.mono fun _ => False.elim
        | some t₂ =>
          exact (hmake.mono fun _ => False.elim).trans ((htouch h₁).mono fun _ hl => ⟨rfl, hl⟩)

/-! ## Writing -/

/-- What was written at a location is all that the file there holds; a device has it behind what it
was given before. -/
def Received (t t' : FileTree) (l : Location) (content : ByteArray) : Prop :=
  match t.node? l with
  | some (.device input output) => t'.node? l = some (.device input (output ++ content))
  | _ => t'.node? l = some (.file content)

/-- What stands at a location after a write. -/
def written (content : ByteArray) : Option Node → Node
  | some (.device input output) => .device input (output ++ content)
  | _ => .file content

theorem received_iff {content : ByteArray} :
    t.Received t' l content ↔ t'.node? l = some (written content (t.node? l)) := by
  unfold Received
  cases t.node? l with
  | none => rfl
  | some n => cases n <;> rfl

theorem writeFile?_eq (t : FileTree) (path : String) (content : ByteArray) :
    t.writeFile? path content =
      (t.writable? path).map fun l => t.put l (written content (t.node? l)) := by
  unfold writeFile?
  refine congrArg (Option.map · (t.writable? path)) (funext fun l => ?_)
  cases t.node? l with
  | none => rfl
  | some n => cases n <;> rfl

theorem writeFile?_spec {content : ByteArray} (h : t.writeFile? path content = some t') :
    ∃ l, t'.locate? path = some l ∧ t.Received t' l content ∧ Frame (· = l) t t' := by
  rw [writeFile?_eq] at h
  obtain ⟨l, hl, rfl⟩ := Option.map_eq_some_iff.1 h
  obtain ⟨-, hlocate, hdir⟩ := writable?_eq_some_iff.1 hl
  have hframe : Frame (· = l) t (t.put l (written content (t.node? l))) := frame_put hdir
  have hroot := ne_nil_of_not_isDirectory hdir
  exact ⟨l, hframe.locate? hlocate, received_iff.2 (node?_put_self hroot), hframe⟩

/-! ## Two trees -/

theorem node?_eq_file? (h : t.isDirectory l = false) : t.node? l = t.file? l := by
  unfold isDirectory at h
  unfold file?
  cases hn : t.node? l with
  | none => rfl
  | some n =>
    cases n with
    | directory => simp [hn] at h
    | file content => rfl
    | device input output => rfl

/-- Trees that agree outside of some locations still do after the same write. -/
theorem writeFile?_agree {changed : Location → Prop}
    (hplace : t'.writable? path = t.writable? path)
    (hfile : ∀ l, ¬ changed l → t'.file? l = t.file? l) (content : ByteArray) :
    (t.writeFile? path content = none ∧ t'.writeFile? path content = none) ∨
      ∃ u u', t.writeFile? path content = some u ∧ t'.writeFile? path content = some u' ∧
        ∀ l, ¬ changed l → u'.file? l = u.file? l := by
  rw [writeFile?_eq, writeFile?_eq, hplace]
  cases hl : t.writable? path with
  | none => exact .inl ⟨rfl, rfl⟩
  | some l =>
    obtain ⟨-, -, hdir⟩ := writable?_eq_some_iff.1 hl
    obtain ⟨-, -, hdir'⟩ := writable?_eq_some_iff.1 (hplace.trans hl)
    refine .inr ⟨_, _, rfl, rfl, fun l' hl' => ?_⟩
    by_cases hne : l' = l
    · subst hne
      have hnode : t'.node? l' = t.node? l' := by
        rw [node?_eq_file? hdir, node?_eq_file? hdir', hfile l' hl']
      have hroot := ne_nil_of_not_isDirectory hdir
      unfold file?
      rw [node?_put_self hroot, node?_put_self hroot, hnode]
    · rw [(frame_put hdir').file l' hne, (frame_put hdir).file l' hne, hfile l' hl']

end SdlSchema.Cli.FileTree
