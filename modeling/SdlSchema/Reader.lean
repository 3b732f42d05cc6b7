/-!
# Readers

A reader takes a value off the front of a list of symbols and hands on what is
left, or fails.  What is left is never longer than what was there: this is
part of the type.  A repetition first takes the symbol that tells it to go on
and reads the item after it, so every round consumes something and
`Reader.many` terminates without a bound of its own.
-/

namespace SdlSchema

/-- A function that takes a value off the front of a list, unless it fails, and never lengthens the
list. -/
structure Reader (σ α : Type) where
  run : List σ → Option (α × List σ)
  length_le : ∀ {s : List σ} {a : α} {rest : List σ},
    run s = some (a, rest) → rest.length ≤ s.length

namespace Reader

variable {σ α β : Type}

/-! ## Sequencing -/

instance : Monad (Reader σ) where
  pure a := ⟨fun s => some (a, s), by simp⟩
  bind x f := {
    run := fun s =>
      match x.run s with
      | none => none
      | some (a, rest) => (f a).run rest
    length_le := by
      intro s b rest h
      split at h
      · cases h
      · next hx => exact Nat.le_trans ((f _).length_le h) (x.length_le hx) }

@[simp] theorem run_pure (a : α) (s : List σ) : (pure a : Reader σ α).run s = some (a, s) := rfl

@[simp] theorem run_bind (x : Reader σ α) (f : α → Reader σ β) (s : List σ) :
    (x >>= f).run s =
      match x.run s with
      | none => none
      | some (a, rest) => (f a).run rest := rfl

/-- The value read from the whole list, if nothing is left. -/
def readAll? (x : Reader σ α) (s : List σ) : Option α :=
  match x.run s with
  | some (a, []) => some a
  | _ => none

/-! ## Single symbols -/

/-- Fails on every list. -/
def fail : Reader σ α := ⟨fun _ => none, nofun⟩

/-- Continues with the value, if there is one. -/
def ofOption : Option α → Reader σ α
  | some a => pure a
  | none => fail

/-- Goes on only if the condition holds. -/
def guard (p : Bool) : Reader σ Unit := if p then pure () else fail

/-- The next symbol, which stays where it is. -/
def peek? : Reader σ (Option σ) := ⟨fun s => some (s.head?, s), by simp⟩

/-- All that is left, which stays where it is. -/
def rest : Reader σ (List σ) := ⟨fun s => some (s, s), by simp⟩

/-- The next symbol; fails at the end. -/
def next : Reader σ σ where
  run
    | [] => none
    | c :: s => some (c, s)
  length_le := by
    intro s a rest h
    cases s with
    | nil => cases h
    | cons c s =>
      simp only [Option.some.injEq, Prod.mk.injEq] at h
      simp [← h.2]

/-- Drops the next symbol if it satisfies the condition, and tells whether it did. -/
def acceptIf (p : σ → Bool) : Reader σ Bool where
  run
    | [] => some (false, [])
    | c :: s => if p c then some (true, s) else some (false, c :: s)
  length_le := by
    intro s a rest h
    cases s with
    | nil => simp_all
    | cons c s =>
      simp only at h
      split at h <;> simp at h <;> simp [← h.2]

/-- As `acceptIf`, for one symbol. -/
def accept [DecidableEq σ] (c : σ) : Reader σ Bool := acceptIf (· = c)

/-- Drops the given symbol; fails if another one, or none, comes next. -/
def expect [DecidableEq σ] (c : σ) : Reader σ Unit := do
  guard (← accept c)

/-! ## Repetition -/

/-- The longest run of symbols that satisfy the condition. -/
def span (p : σ → Bool) : Reader σ (List σ) where
  run s := some (s.takeWhile p, s.dropWhile p)
  length_le := by
    intro s a rest h
    simp only [Option.some.injEq, Prod.mk.injEq] at h
    rw [← h.2]
    exact (List.dropWhile_sublist p).length_le

/-- One item for each next symbol that satisfies the condition; the item's reader is given that
symbol and starts after it. -/
def many.run (more : σ → Bool) (item : σ → Reader σ α) : List σ → Option (List α × List σ)
  | [] => some ([], [])
  | c :: s =>
    if more c then
      match _h : (item c).run s with
      | none => none
      | some (a, rest) =>
        match many.run more item rest with
        | none => none
        | some (as, rest') => some (a :: as, rest')
    else some ([], c :: s)
termination_by s => s.length
decreasing_by
  have := (item c).length_le _h
  simp only [List.length_cons]
  omega

theorem many.length_le (more : σ → Bool) (item : σ → Reader σ α) (s : List σ) :
    ∀ {as : List α} {rest : List σ}, many.run more item s = some (as, rest) →
      rest.length ≤ s.length := by
  fun_induction many.run more item s with
  | case1 => simp
  | case2 => simp
  | case3 => simp
  | case4 c s _ a r hr as' r' hrec ih =>
    intro as rest h
    simp only [Option.some.injEq, Prod.mk.injEq] at h
    have h₁ := (item c).length_le hr
    have h₂ := ih hrec
    rw [← h.2, List.length_cons]
    omega
  | case5 c s _ =>
    intro as rest h
    simp only [Option.some.injEq, Prod.mk.injEq] at h
    simp [← h.2]

/-- Items for as long as the next symbol satisfies the condition. -/
def many (more : σ → Bool) (item : σ → Reader σ α) : Reader σ (List α) :=
  ⟨many.run more item, many.length_le more item _⟩

/-- Items up to a symbol that satisfies the condition, which is dropped too. -/
def upTo (closes : σ → Bool) (item : σ → Reader σ α) : Reader σ (List α) := do
  let as ← many (fun c => !closes c) item
  guard (← acceptIf closes)
  pure as

/-- As `upTo`, with at least one item. -/
def someUpTo (closes : σ → Bool) (item : σ → Reader σ α) : Reader σ (List α) := do
  let as ← upTo closes item
  guard !as.isEmpty
  pure as

/-- Items up to the end of the symbols. -/
def toEnd (item : σ → Reader σ α) : Reader σ (List α) := many (fun _ => true) item

/-- Carries a state through all symbols: the reader of a step is given the state and the next
symbol, and starts after that. -/
def carry? (step : β → σ → Reader σ β) (b : β) : List σ → Option β
  | [] => some b
  | c :: s =>
    match _h : (step b c).run s with
    | none => none
    | some (b', rest) => carry? step b' rest
termination_by s => s.length
decreasing_by
  have := (step _ c).length_le _h
  simp only [List.length_cons]
  omega

end Reader

end SdlSchema
