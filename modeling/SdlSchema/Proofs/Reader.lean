import SdlSchema.Reader

/-!
# Readers step by step

How a repetition runs: one equation for an item that is read, one for the
symbol at which it stops.
-/

namespace SdlSchema.Reader

variable {σ α : Type}

/-! ## Single steps -/

@[simp] theorem run_guard_true (s : List σ) : (guard true).run s = some ((), s) := rfl

@[simp] theorem run_ofOption_some (a : α) (s : List σ) :
    (ofOption (some a)).run s = some (a, s) := rfl

@[simp] theorem run_next_cons (c : σ) (s : List σ) : next.run (c :: s) = some (c, s) := rfl

@[simp] theorem run_map {β : Type} (f : α → β) (x : Reader σ α) (s : List σ) :
    (f <$> x).run s = (x.run s).map fun p => (f p.1, p.2) := by
  change (x >>= fun a => pure (f a)).run s = _
  rw [run_bind]
  cases x.run s <;> rfl

/-! ## Repetition -/

/-- A run of symbols ends in front of one that does not satisfy the condition. -/
theorem run_span {p : σ → Bool} {s rest : List σ} (hs : ∀ c ∈ s, p c = true)
    (hrest : ∀ c ∈ rest.head?, p c = false) : (span p).run (s ++ rest) = some (s, rest) := by
  have htake : rest.takeWhile p = [] := by
    cases rest with
    | nil => rfl
    | cons c rest => rw [List.takeWhile_cons, hrest c rfl]; rfl
  have hdrop : rest.dropWhile p = rest := by
    cases rest with
    | nil => rfl
    | cons c rest => rw [List.dropWhile_cons, hrest c rfl]; rfl
  change some ((s ++ rest).takeWhile p, (s ++ rest).dropWhile p) = _
  rw [List.takeWhile_append_of_pos hs, htake, List.append_nil, List.dropWhile_append_of_pos hs,
    hdrop]

theorem run_many_nil {more : σ → Bool} {item : σ → Reader σ α} :
    (many more item).run [] = some ([], []) := by
  change many.run more item [] = _
  rw [many.run]

theorem run_many_stop {more : σ → Bool} (item : σ → Reader σ α) {c : σ} (s : List σ)
    (h : more c = false) : (many more item).run (c :: s) = some ([], c :: s) := by
  change many.run more item (c :: s) = _
  rw [many.run, if_neg (by simp [h])]

theorem run_many_of_more {more : σ → Bool} {item : σ → Reader σ α} {c : σ} (s : List σ)
    (h : more c = true) :
    (many more item).run (c :: s) =
      ((item c).run s).bind fun p =>
        ((many more item).run p.2).map fun q => (p.1 :: q.1, q.2) := by
  change many.run more item (c :: s) = _
  rw [many.run, if_pos h]
  split
  · next hnone => rw [hnone, Option.bind_none]
  · next a rest hsome =>
    rw [hsome, Option.bind_some]
    change _ = (many.run more item rest).map _
    cases many.run more item rest <;> rfl

theorem run_many_cons {more : σ → Bool} {item : σ → Reader σ α} {c : σ} {s rest : List σ} {a : α}
    (h : more c = true) (ha : (item c).run s = some (a, rest)) :
    (many more item).run (c :: s) =
      ((many more item).run rest).map fun p => (a :: p.1, p.2) := by
  rw [run_many_of_more s h, ha, Option.bind_some]

theorem readAll?_toEnd_nil {item : σ → Reader σ α} : (toEnd item).readAll? [] = some [] := by
  rw [readAll?, toEnd, run_many_nil]

theorem readAll?_toEnd_cons {item : σ → Reader σ α} {c : σ} {s : List σ} :
    (toEnd item).readAll? (c :: s) =
      ((item c).run s).bind fun p => ((toEnd item).readAll? p.2).map (p.1 :: ·) := by
  rw [readAll?, toEnd, run_many_of_more s rfl]
  cases (item c).run s with
  | none => rfl
  | some p =>
    rw [Option.bind_some, Option.bind_some, readAll?]
    cases (many (fun _ => true) item).run p.2 with
    | none => rfl
    | some q =>
      obtain ⟨as, rest⟩ := q
      cases rest <;> rfl

theorem run_upTo_nil {closes : σ → Bool} {item : σ → Reader σ α} :
    (upTo closes item).run [] = none := by
  rw [upTo, run_bind, run_many_nil]
  rfl

theorem run_upTo_stop {closes : σ → Bool} (item : σ → Reader σ α) {c : σ} (s : List σ)
    (h : closes c = true) : (upTo closes item).run (c :: s) = some ([], s) := by
  have hmany : (many (fun c => !closes c) item).run (c :: s) = some ([], c :: s) :=
    run_many_stop item s (by simp [h])
  simp [upTo, hmany, acceptIf, h, guard]

theorem run_upTo_cons {closes : σ → Bool} {item : σ → Reader σ α} {c : σ} {s rest : List σ} {a : α}
    (h : closes c = false) (ha : (item c).run s = some (a, rest)) :
    (upTo closes item).run (c :: s) =
      ((upTo closes item).run rest).map fun p => (a :: p.1, p.2) := by
  have hmany : (many (fun c => !closes c) item).run (c :: s) =
      ((many (fun c => !closes c) item).run rest).map fun p => (a :: p.1, p.2) :=
    run_many_cons (by simp [h]) ha
  simp only [upTo, run_bind, hmany]
  cases (many (fun c => !closes c) item).run rest with
  | none => rfl
  | some p =>
    simp only [Option.map_some]
    cases (acceptIf closes).run p.2 with
    | none => rfl
    | some q =>
      obtain ⟨closed, rest'⟩ := q
      cases closed <;> rfl

theorem run_upTo_fail {closes : σ → Bool} {item : σ → Reader σ α} {c : σ} {s : List σ}
    (h : closes c = false) (ha : (item c).run s = none) :
    (upTo closes item).run (c :: s) = none := by
  have hmany : (many (fun c => !closes c) item).run (c :: s) = none := by
    rw [run_many_of_more s (by simp [h]), ha, Option.bind_none]
  rw [upTo, run_bind, hmany]

end SdlSchema.Reader
