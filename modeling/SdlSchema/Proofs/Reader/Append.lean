import SdlSchema.Proofs.Reader

/-!
# Readers and what stands behind

A reader keeps its results before `more` if it takes the same value off a list
whether or not `more` stands behind the list (`Keeps`).  Looking at the next
symbol is what can go wrong, and only at the very end of the list.  So a part
of a bracketed construct needs less, since the closing bracket is still to come
(`KeepsInside`), and so does a part in front of a symbol that has to come
(`KeepsInside.bind_keeps`).
-/

namespace SdlSchema.Reader

variable {σ α β : Type} {more : List σ}

/-- The reader takes the same value off a list with `more` behind it. -/
def Keeps (more : List σ) (x : Reader σ α) : Prop :=
  ∀ s a rest, x.run s = some (a, rest) → x.run (s ++ more) = some (a, rest ++ more)

/-- As `Keeps`, if the reader leaves something of the list. -/
def KeepsInside (more : List σ) (x : Reader σ α) : Prop :=
  ∀ s a rest, rest ≠ [] → x.run s = some (a, rest) → x.run (s ++ more) = some (a, rest ++ more)

theorem ext {x y : Reader σ α} (h : x.run = y.run) : x = y := by
  cases x; cases y; cases h; rfl

theorem Keeps.inside {x : Reader σ α} (h : Keeps more x) : KeepsInside more x :=
  fun s a rest _ hrun => h s a rest hrun

/-! ## Sequencing -/

theorem Keeps.pure (a : α) : Keeps more (pure a : Reader σ α) := by
  intro s b rest h
  cases h
  rfl

theorem run_bind_eq_some {x : Reader σ α} {f : α → Reader σ β} {s rest : List σ} {b : β} :
    (x >>= f).run s = some (b, rest) ↔
      ∃ a mid, x.run s = some (a, mid) ∧ (f a).run mid = some (b, rest) := by
  rw [run_bind]
  cases x.run s with
  | none => simp
  | some p =>
    constructor
    · intro h
      exact ⟨p.1, p.2, rfl, h⟩
    · rintro ⟨a, mid, ha, hb⟩
      cases ha
      exact hb

theorem bind_assoc {γ : Type} (x : Reader σ α) (f : α → Reader σ β) (g : β → Reader σ γ) :
    x >>= f >>= g = x >>= fun a => f a >>= g := by
  have hrun : (x >>= f >>= g).run = (x >>= fun a => f a >>= g).run := by
    funext s
    simp only [run_bind]
    cases x.run s <;> rfl
  exact ext hrun

theorem Keeps.bind {x : Reader σ α} {f : α → Reader σ β} (hx : Keeps more x)
    (hf : ∀ a, Keeps more (f a)) : Keeps more (x >>= f) := by
  intro s b rest h
  obtain ⟨a, mid, ha, hb⟩ := run_bind_eq_some.1 h
  exact run_bind_eq_some.2 ⟨a, mid ++ more, hx s a mid ha, hf a mid b rest hb⟩

theorem ne_nil_of_run {x : Reader σ α} {s rest : List σ} {a : α} (hrest : rest ≠ [])
    (h : x.run s = some (a, rest)) : s ≠ [] := by
  rintro rfl
  exact hrest (List.eq_nil_of_length_eq_zero (Nat.le_zero.1 (x.length_le h)))

theorem KeepsInside.bind {x : Reader σ α} {f : α → Reader σ β} (hx : KeepsInside more x)
    (hf : ∀ a, KeepsInside more (f a)) : KeepsInside more (x >>= f) := by
  intro s b rest hrest h
  obtain ⟨a, mid, ha, hb⟩ := run_bind_eq_some.1 h
  have hmid := ne_nil_of_run hrest hb
  exact run_bind_eq_some.2 ⟨a, mid ++ more, hx s a mid hmid ha, hf a mid b rest hrest hb⟩

/-- A reader that comes before one that cannot do without a symbol never gets to the end. -/
theorem KeepsInside.bind_keeps {x : Reader σ α} {f : α → Reader σ β} (hx : KeepsInside more x)
    (hf : ∀ a, Keeps more (f a)) (hnil : ∀ a, (f a).run [] = none) : Keeps more (x >>= f) := by
  intro s b rest h
  obtain ⟨a, mid, ha, hb⟩ := run_bind_eq_some.1 h
  have hmid : mid ≠ [] := by
    rintro rfl
    rw [hnil a] at hb
    cases hb
  exact run_bind_eq_some.2 ⟨a, mid ++ more, hx s a mid hmid ha, hf a mid b rest hb⟩

theorem Keeps.map {x : Reader σ α} (f : α → β) (hx : Keeps more x) : Keeps more (f <$> x) :=
  hx.bind fun a => .pure (f a)

/-! ## Single symbols -/

theorem keeps_fail : Keeps more (fail : Reader σ α) := by
  intro s a rest h
  cases h

theorem keeps_ofOption (o : Option α) : Keeps more (ofOption o : Reader σ α) := by
  cases o with
  | none => exact keeps_fail
  | some a => exact .pure a

theorem keeps_guard (p : Bool) : Keeps more (guard p : Reader σ Unit) := by
  cases p with
  | false => exact keeps_fail
  | true => exact .pure ()

theorem keeps_next : Keeps more (next : Reader σ σ) := by
  intro s a rest h
  cases s with
  | nil => cases h
  | cons c s =>
    cases h
    rfl

theorem keepsInside_peek? : KeepsInside more (peek? : Reader σ (Option σ)) := by
  intro s a rest hrest h
  cases h
  cases s with
  | nil => exact absurd rfl hrest
  | cons c s => rfl

theorem run_acceptIf_cons (p : σ → Bool) (c : σ) (s : List σ) :
    (acceptIf p).run (c :: s) = some (p c, if p c then s else c :: s) := by
  cases h : p c <;> simp [acceptIf, h]

theorem keepsInside_acceptIf (p : σ → Bool) : KeepsInside more (acceptIf p) := by
  intro s a rest hrest h
  cases s with
  | nil =>
    cases h
    exact absurd rfl hrest
  | cons c s =>
    rw [run_acceptIf_cons] at h
    cases h
    rw [List.cons_append, run_acceptIf_cons]
    split <;> rfl

theorem keeps_acceptIf {p : σ → Bool} (hmore : ∀ c ∈ more.head?, p c = false) :
    Keeps more (acceptIf p) := by
  intro s a rest h
  cases s with
  | nil =>
    cases h
    cases more with
    | nil => rfl
    | cons c more => simp [acceptIf, hmore c rfl]
  | cons c s =>
    rw [run_acceptIf_cons] at h
    cases h
    rw [List.cons_append, run_acceptIf_cons]
    split <;> rfl

/-- A symbol that has to come is not looked for at the end. -/
theorem keeps_expectIf (p : σ → Bool) : Keeps more (acceptIf p >>= guard) := by
  intro s a rest h
  cases s with
  | nil => cases h
  | cons c s =>
    rw [run_bind, run_acceptIf_cons] at h
    rw [List.cons_append, run_bind, run_acceptIf_cons]
    cases hp : p c with
    | false =>
      rw [hp] at h
      cases h
    | true =>
      rw [hp] at h
      cases h
      rfl

/-- A condition that the symbol behind the list satisfies. -/
theorem keeps_guardNext {p : σ → Bool} (hmore : ∀ c ∈ more.head?, p c = false) :
    Keeps more (peek? >>= fun c? => guard (!c?.any p)) := by
  intro s a rest h
  cases s with
  | nil =>
    cases h
    cases more with
    | nil => rfl
    | cons c more => simp [peek?, guard, hmore c rfl]
  | cons c s =>
    obtain ⟨c?, mid, hc, hguard⟩ := run_bind_eq_some.1 h
    cases hc
    exact run_bind_eq_some.2 ⟨some c, c :: s ++ more, rfl, keeps_guard _ _ a rest hguard⟩

theorem keeps_span {p : σ → Bool} (hmore : ∀ c ∈ more.head?, p c = false) :
    Keeps more (span p) := by
  have htake : ∀ s, (s ++ more).takeWhile p = s.takeWhile p := by
    intro s
    induction s with
    | nil => cases more <;> simp_all
    | cons c s ih => simp only [List.cons_append, List.takeWhile_cons, ih]
  have hdrop : ∀ s, (s ++ more).dropWhile p = s.dropWhile p ++ more := by
    intro s
    induction s with
    | nil => cases more <;> simp_all
    | cons c s ih =>
      simp only [List.cons_append, List.dropWhile_cons, ih]
      split <;> rfl
  intro s a rest h
  cases h
  simp only [span, htake, hdrop]

/-! ## Repetition -/

section Many

variable {p : σ → Bool} {item : σ → Reader σ α}

theorem keepsInside_many (hitem : ∀ c, KeepsInside more (item c)) :
    KeepsInside more (many p item) := by
  intro s as rest hrest h
  change many.run p item s = _ at h
  fun_induction many.run p item s generalizing as with
  | case1 =>
    cases h
    exact absurd rfl hrest
  | case2 => cases h
  | case3 => cases h
  | case4 c s hc a mid ha as' rest' has ih =>
    cases h
    have hmid : mid ≠ [] := ne_nil_of_run (x := many p item) hrest has
    rw [List.cons_append, run_many_cons hc (hitem c s a mid hmid ha), ih as' has]
    rfl
  | case5 c s hc =>
    cases h
    exact run_many_stop item (s ++ more) (Bool.eq_false_iff.2 hc)

/-- A repetition that reaches the end of a list goes on with what stands behind the list. -/
theorem run_many_append (hitem : ∀ c, Keeps more (item c)) {s : List σ} {as : List α}
    (h : (many p item).run s = some (as, [])) :
    (many p item).run (s ++ more) =
      ((many p item).run more).map fun q => (as ++ q.1, q.2) := by
  change many.run p item s = _ at h
  fun_induction many.run p item s generalizing as with
  | case1 =>
    cases h
    simp
  | case2 => cases h
  | case3 => cases h
  | case4 c s hc a mid ha as' rest' has ih =>
    cases h
    rw [List.cons_append, run_many_cons hc (hitem c s a mid ha), ih has, Option.map_map]
    rfl
  | case5 c s hc => cases h

/-- Two lists that are read up to their ends are read so one behind the other. -/
theorem readAll?_toEnd_append (hitem : ∀ c, Keeps more (item c)) {s : List σ} {as : List α}
    (h : (toEnd item).readAll? s = some as) :
    (toEnd item).readAll? (s ++ more) = ((toEnd item).readAll? more).map (as ++ ·) := by
  have hrun : (toEnd item).run s = some (as, []) := by
    unfold readAll? at h
    split at h
    · next hrun =>
      cases h
      exact hrun
    · cases h
  unfold readAll?
  rw [toEnd, run_many_append hitem hrun]
  cases (many (fun _ => true) item).run more with
  | none => rfl
  | some q =>
    obtain ⟨as', rest⟩ := q
    cases rest <;> rfl

theorem keeps_many (hmore : ∀ c ∈ more.head?, p c = false) (hitem : ∀ c, Keeps more (item c)) :
    Keeps more (many p item) := by
  intro s as rest h
  by_cases hrest : rest = []
  · subst hrest
    rw [run_many_append hitem h]
    cases more with
    | nil => simp [run_many_nil]
    | cons c more => simp [run_many_stop item more (hmore c rfl)]
  · exact keepsInside_many (fun c => (hitem c).inside) s as rest hrest h

end Many

/-! The closing symbol of a bracketed construct has to come, so its items are never at the end. -/

section UpTo

variable {closes : σ → Bool} {item : σ → Reader σ α}

theorem keeps_upTo (hitem : ∀ c, KeepsInside more (item c)) : Keeps more (upTo closes item) := by
  refine (keepsInside_many hitem).bind_keeps (fun as => ?_) fun as => rfl
  rw [← bind_assoc]
  exact (keeps_expectIf closes).bind fun _ => .pure as

theorem keeps_someUpTo (hitem : ∀ c, KeepsInside more (item c)) :
    Keeps more (someUpTo closes item) :=
  (keeps_upTo hitem).bind fun as => (keeps_guard _).bind fun _ => .pure as

end UpTo

end SdlSchema.Reader
