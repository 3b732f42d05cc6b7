import SdlSchema.Proofs.Cli.FileTree

/-!
# The way of a path

Which directories a path goes through can be told from the path (`way`), and so
can where it leads (`place`).  What can be written under it depends on the
directories on its way only (`writable?_congr`).  A log makes no others than
those on the way to its own directory, so it is in the way of a file only if a
directory is missing that is on both ways (`writable?_openLog`).
-/

namespace SdlSchema.Cli.FileTree

variable {t t' : FileTree} {l : Location} {path : String}

/-! ## Locations on the way -/

/-- The locations along some names, with the one at which they start and the last one. -/
def wayFrom (l : Location) : List String → List Location
  | [] => [l]
  | name :: names => l :: wayFrom (step l name) names

/-- The locations along a path, with the one to which it leads. -/
def way (t : FileTree) (path : String) : List Location :=
  wayFrom (start t.home path) (Path.names path)

/-- Where a path leads if it goes through directories only. -/
def place (t : FileTree) (path : String) : Location :=
  (Path.names path).foldl step (start t.home path)

theorem mem_wayFrom_self (l : Location) (names : List String) : l ∈ wayFrom l names := by
  cases names <;> exact List.mem_cons_self

theorem foldl_mem_wayFrom (names : List String) : ∀ l, names.foldl step l ∈ wayFrom l names := by
  induction names with
  | nil => exact List.mem_singleton_self
  | cons name names ih => exact fun l => List.mem_cons_of_mem l (ih (step l name))

theorem follow_eq_some {names : List String} :
    ∀ {l l' : Location}, t.follow l names = some l' → l' = names.foldl step l := by
  induction names with
  | nil =>
    rintro l _ ⟨⟩
    rfl
  | cons name names ih =>
    intro l l' h
    rw [follow_cons] at h
    split at h
    · exact ih h
    · cases h

theorem follow_congr {names : List String} :
    ∀ {l : Location}, (∀ l' ∈ wayFrom l names, t'.isDirectory l' = t.isDirectory l') →
      t'.follow l names = t.follow l names := by
  induction names with
  | nil => exact fun _ => rfl
  | cons name names ih =>
    intro l h
    obtain ⟨hl, hmore⟩ := List.forall_mem_cons.1 h
    rw [follow_cons, follow_cons, hl, ih hmore]

theorem locate?_eq_some (h : t.locate? path = some l) : l = t.place path := by
  unfold locate? locateFrom? at h
  split at h
  · exact follow_eq_some h
  · cases h

/-- What can be written under a path depends on the directories along it. -/
theorem writable?_congr (hhome : t'.home = t.home)
    (hdir : ∀ l ∈ t.way path, t'.isDirectory l = t.isDirectory l) :
    t'.writable? path = t.writable? path := by
  have hlocate : t'.locate? path = t.locate? path := by
    unfold locate? locateFrom?
    rw [hhome, follow_congr hdir]
  unfold writable?
  rw [hlocate]
  cases hl : t.locate? path with
  | none => rfl
  | some l =>
    have hmem : l ∈ t.way path := locate?_eq_some hl ▸ foldl_mem_wayFrom _ _
    dsimp only
    rw [hdir l hmem]

/-! ## What a log makes -/

theorem isDirectory_put_directory {l l' : Location}
    (h : (t.put l .directory).isDirectory l' = true) :
    t.isDirectory l' = true ∨ l' = l := by
  by_cases hne : l' = l
  · exact Or.inr hne
  · rw [isDirectory, node?_put_of_ne hne] at h
    exact Or.inl h

/-- The directories that are made were missing, and are on the way. -/
theorem isDirectory_makeDirectories {names : List String} {l' : Location} :
    ∀ {t : FileTree} {l : Location}, (t.makeDirectories l names).1.isDirectory l' = true →
      t.isDirectory l' = true ∨ t.node? l' = none ∧ l' ∈ wayFrom l names := by
  induction names with
  | nil => exact fun h => Or.inl h
  | cons name names ih =>
    intro t l h
    rw [makeDirectories] at h
    have hstep {t : FileTree}
        (h : (t.makeDirectories (step l name) names).1.isDirectory l' = true) :
        t.isDirectory l' = true ∨ t.node? l' = none ∧ l' ∈ wayFrom l (name :: names) :=
      (ih h).imp_right fun hmade => ⟨hmade.1, List.mem_cons_of_mem l hmade.2⟩
    by_cases hup : name = ".."
    · rw [if_pos hup] at h
      exact hstep (by rwa [step, if_pos hup])
    have hname : step l name = l ++ [name] := if_neg hup
    rw [if_neg hup] at h
    split at h
    · exact Or.inl h
    dsimp only at h
    rw [← hname] at h
    split at h
    · exact hstep h
    · exact Or.inl h
    · next hnone =>
      have hmem : step l name ∈ wayFrom l (name :: names) :=
        List.mem_cons_of_mem l (mem_wayFrom_self _ names)
      obtain hdir | ⟨hmissing, hway⟩ := hstep h
      · refine (isDirectory_put_directory hdir).imp_right ?_
        rintro rfl
        exact ⟨hnone, hmem⟩
      · refine Or.inr ⟨?_, hway⟩
        rwa [node?_put_of_ne] at hmissing
        rintro rfl
        rw [node?_put_self (by rw [hname]; simp)] at hmissing
        cases hmissing

theorem isDirectory_makeDirectory (h : (t.makeDirectory path).1.isDirectory l = true) :
    t.isDirectory l = true ∨ t.node? l = none ∧ l ∈ t.way path := by
  unfold makeDirectory at h
  split at h
  · exact isDirectory_makeDirectories h
  · exact Or.inl h

/-- Making a file makes no directory. -/
theorem isDirectory_touch? (h : t.touch? path = some t') (hdir : t'.isDirectory l = true) :
    t.isDirectory l = true := by
  obtain ⟨l', hl', rfl⟩ := Option.map_eq_some_iff.1 h
  obtain ⟨-, -, hfile⟩ := writable?_eq_some_iff.1 hl'
  split at hdir
  · exact hdir
  · by_cases hne : l = l'
    · subst hne
      rw [isDirectory, node?_put_self (ne_nil_of_not_isDirectory hfile)] at hdir
      cases hdir
    · rwa [isDirectory, node?_put_of_ne hne] at hdir

theorem isDirectory_openLog {directory : String}
    (h : (t.openLog directory).1.isDirectory l = true) :
    t.isDirectory l = true ∨ t.node? l = none ∧ l ∈ t.way directory := by
  unfold openLog at h
  cases htouch : t.touch? (logPath directory) with
  | some t₁ =>
    rw [htouch] at h
    exact Or.inl (isDirectory_touch? htouch h)
  | none =>
    rw [htouch] at h
    refine isDirectory_makeDirectory ?_
    cases hmade : t.makeDirectory directory with
    | mk t₁ made =>
      rw [hmade] at h
      cases made with
      | false => exact h
      | true =>
        dsimp only at h
        cases htouch₁ : t₁.touch? (logPath directory) with
        | none =>
          rw [htouch₁] at h
          exact h
        | some t₂ =>
          rw [htouch₁] at h
          exact isDirectory_touch? htouch₁ h

/-- A log makes no difference to a file with which it shares no missing directory. -/
theorem writable?_openLog {directory : String}
    (h : ∀ l ∈ t.way path, l ∈ t.way directory → t.node? l ≠ none) :
    (t.openLog directory).1.writable? path = t.writable? path := by
  have hframe := frame_openLog t directory
  refine writable?_congr hframe.home fun l hl => Bool.eq_iff_iff.2 ⟨fun hdir => ?_, ?_⟩
  · obtain hdir | ⟨hmissing, hway⟩ := isDirectory_openLog hdir
    · exact hdir
    · exact absurd hmissing (h l hl hway)
  · exact hframe.directory l

/-- What could be read still can after a log was opened somewhere else. -/
theorem readFile?_openLog {directory : String} {content : ByteArray}
    (h : t.readFile? path = some content)
    (hne : t.locate? path ≠ some (t.place (logPath directory))) :
    (t.openLog directory).1.readFile? path = some content := by
  have hframe := frame_openLog t directory
  refine hframe.readFile? h fun l hl hlog => hne ?_
  rw [hl, locate?_eq_some hlog.2, place, place, hframe.home]

end SdlSchema.Cli.FileTree
