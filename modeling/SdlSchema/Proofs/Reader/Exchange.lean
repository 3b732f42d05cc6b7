import SdlSchema.Proofs.Reader.Append

/-!
# Readers and an exchange further on

In a list something is exchanged for something else, behind a symbol that marks
the place.  A reader that does not get past the mark does not see the exchange
(`Stops`).  One that does, and succeeded before, now either fails, because what
is new cannot be read, or leaves the same rest with a value that is changed in
one place (`Crosses`).  Which of the two happens is the same for all readers:
it is decided at the mark, by the reader that takes the mark off.
-/

namespace SdlSchema.Reader

variable {σ α β : Type}

/-- Two lists differ in one member. -/
inductive AtOne (R : α → α → Prop) : List α → List α → Prop
  | head {a a' : α} (h : R a a') (as : List α) : AtOne R (a :: as) (a' :: as)
  | tail (a : α) {as as' : List α} (h : AtOne R as as') : AtOne R (a :: as) (a :: as')

/-- What stands behind a mark and what is to stand there instead. -/
structure Exchange (σ : Type) where
  mark : σ
  old : List σ
  new : List σ

/-- What a reader that took `a` off and left `rest` may do after the exchange. -/
inductive Outcome (ok : Prop) (R : α → α → Prop) (a : α) (rest : List σ) :
    Option (α × List σ) → Prop
  | fails (h : ¬ ok) : Outcome ok R a rest none
  | reads (hok : ok) {a' : α} (h : R a a') : Outcome ok R a rest (some (a', rest))

/-- The reader stops before the mark, or its value is changed as the relation says, provided that
what is new can be read. -/
def Crosses (e : Exchange σ) (ok : Prop) (R : α → α → Prop) (x : Reader σ α) : Prop :=
  ∀ s a rest, x.run (s ++ e.mark :: e.old) = some (a, rest) →
    (∃ r, rest = r ++ e.mark :: e.old ∧
        x.run (s ++ e.mark :: e.new) = some (a, r ++ e.mark :: e.new)) ∨
      Outcome ok R a rest (x.run (s ++ e.mark :: e.new))

/-- The reader never gets past the mark. -/
def Stops (e : Exchange σ) (x : Reader σ α) : Prop := Crosses e True (fun _ _ => False) x

/-- Whatever the first reader takes off, so does the second one, with a related value. -/
def Parallel (R : α → α → Prop) (x x' : Reader σ α) : Prop :=
  ∀ s a rest, x.run s = some (a, rest) → ∃ a', R a a' ∧ x'.run s = some (a', rest)

variable {e : Exchange σ} {ok : Prop} {R : α → α → Prop} {S : β → β → Prop}

/-! ## Sequencing -/

theorem Stops.exists_rest {x : Reader σ α} (h : Stops e x) {s rest : List σ} {a : α}
    (hrun : x.run (s ++ e.mark :: e.old) = some (a, rest)) :
    ∃ r, rest = r ++ e.mark :: e.old ∧
      x.run (s ++ e.mark :: e.new) = some (a, r ++ e.mark :: e.new) := by
  refine (h s a rest hrun).resolve_right fun hout => ?_
  generalize x.run (s ++ e.mark :: e.new) = o at hout
  cases hout with
  | fails hnot => exact hnot trivial
  | reads _ hfalse => exact hfalse

theorem Stops.crosses {x : Reader σ α} (h : Stops e x) : Crosses e ok R x :=
  fun _ _ _ hrun => Or.inl (h.exists_rest hrun)

theorem Crosses.mono {R' : α → α → Prop} {x : Reader σ α} (hR : ∀ a a', R a a' → R' a a')
    (h : Crosses e ok R x) : Crosses e ok R' x := by
  intro s a rest hrun
  refine (h s a rest hrun).imp_right fun hout => ?_
  generalize x.run (s ++ e.mark :: e.new) = o at hout
  cases hout with
  | fails hnot => exact .fails hnot
  | reads hok hR' => exact .reads hok (hR _ _ hR')

/-- Behind a reader that has passed the mark, the rest is as it was. -/
theorem Crosses.bind {x : Reader σ α} {f : α → Reader σ β} (hx : Crosses e ok R x)
    (hf : ∀ a, Crosses e ok S (f a)) (hparallel : ∀ a a', R a a' → Parallel S (f a) (f a')) :
    Crosses e ok S (x >>= f) := by
  intro s b rest h
  obtain ⟨a, mid, ha, hb⟩ := run_bind_eq_some.1 h
  rw [run_bind]
  obtain ⟨r, rfl, hrun⟩ | hout := hx s a mid ha
  · rw [hrun]
    exact hf a r b rest hb
  · generalize x.run (s ++ e.mark :: e.new) = o at hout
    cases hout with
    | fails hnot => exact Or.inr (.fails hnot)
    | @reads hok a' hR =>
      obtain ⟨b', hS, hb'⟩ := hparallel a a' hR mid b rest hb
      refine Or.inr ?_
      dsimp only
      rw [hb']
      exact .reads hok hS

theorem Stops.bind {x : Reader σ α} {f : α → Reader σ β} (hx : Stops e x)
    (hf : ∀ a, Crosses e ok S (f a)) : Crosses e ok S (x >>= f) := by
  have hnever : Crosses e ok (fun _ _ => False) x := hx.crosses
  exact hnever.bind hf fun _ _ => False.elim

theorem Parallel.pure {a a' : α} (h : R a a') :
    Parallel R (pure a : Reader σ α) (Pure.pure a') := by
  intro s b rest hrun
  cases hrun
  exact ⟨a', h, rfl⟩

theorem Parallel.bind {γ : Type} (y : Reader σ γ) {f f' : γ → Reader σ α}
    (h : ∀ c, Parallel R (f c) (f' c)) : Parallel R (y >>= f) (y >>= f') := by
  intro s a rest hrun
  obtain ⟨c, mid, hc, ha⟩ := run_bind_eq_some.1 hrun
  obtain ⟨a', hR, ha'⟩ := h c mid a rest ha
  exact ⟨a', hR, run_bind_eq_some.2 ⟨c, mid, hc, ha'⟩⟩

/-! ## Single symbols -/

theorem Stops.pure (a : α) : Stops e (pure a : Reader σ α) := by
  intro s b rest h
  cases h
  exact Or.inl ⟨s, rfl, rfl⟩

theorem Crosses.pure (a : α) : Crosses e ok R (pure a : Reader σ α) := (Stops.pure a).crosses

theorem stops_fail : Stops e (fail : Reader σ α) := by
  intro s a rest h
  cases h

theorem stops_ofOption (a? : Option α) : Stops e (ofOption a? : Reader σ α) := by
  cases a? with
  | none => exact stops_fail
  | some a => exact .pure a

theorem stops_guard (p : Bool) : Stops e (guard p : Reader σ Unit) := by
  cases p with
  | false => exact stops_fail
  | true => exact .pure ()

theorem stops_peek? : Stops e (peek? : Reader σ (Option σ)) := by
  intro s a rest h
  cases h
  refine Or.inl ⟨s, rfl, ?_⟩
  cases s <;> rfl

/-- A reader that takes any symbol off must not go on behind the mark. -/
theorem crosses_next_bind {f : σ → Reader σ α} (hmark : (f e.mark).run e.old = none)
    (hf : ∀ c, Crosses e ok R (f c)) : Crosses e ok R (next >>= f) := by
  intro s a rest h
  cases s with
  | nil =>
    change (f e.mark).run e.old = _ at h
    rw [hmark] at h
    cases h
  | cons c s => exact hf c s a rest h

/-- If the mark is taken off, then what comes behind it decides. -/
theorem crosses_acceptIf_bind {p : σ → Bool} {f : Bool → Reader σ α}
    (hmark : p e.mark = true → ∀ a rest, (f true).run e.old = some (a, rest) →
      Outcome ok R a rest ((f true).run e.new))
    (hf : ∀ b, Crosses e ok R (f b)) : Crosses e ok R (acceptIf p >>= f) := by
  intro s a rest h
  have hstep (c : σ) (s : List σ) : (acceptIf p >>= f).run (c :: s) =
      (f (p c)).run (if p c then s else c :: s) := by
    rw [run_bind, run_acceptIf_cons]
  cases s with
  | nil =>
    rw [List.nil_append, hstep] at h ⊢
    cases hp : p e.mark with
    | true =>
      rw [hp] at h
      exact Or.inr (hmark hp a rest h)
    | false =>
      rw [hp] at h
      exact hf false [] a rest h
  | cons c s =>
    rw [List.cons_append, hstep] at h ⊢
    cases hp : p c with
    | true =>
      rw [hp] at h
      exact hf true s a rest h
    | false =>
      rw [hp] at h
      exact hf false (c :: s) a rest h

theorem stops_acceptIf {p : σ → Bool} (h : p e.mark = false) : Stops e (acceptIf p) := by
  intro s a rest hrun
  cases s with
  | nil =>
    rw [List.nil_append, run_acceptIf_cons, h] at hrun ⊢
    cases hrun
    exact Or.inl ⟨[], rfl, rfl⟩
  | cons c s =>
    rw [List.cons_append, run_acceptIf_cons] at hrun ⊢
    cases hp : p c with
    | true =>
      rw [hp] at hrun
      cases hrun
      exact Or.inl ⟨s, rfl, rfl⟩
    | false =>
      rw [hp] at hrun
      cases hrun
      exact Or.inl ⟨c :: s, rfl, rfl⟩

/-! ## Repetition -/

section

variable {p closes : σ → Bool} {item : σ → Reader σ α}

/-- No more than one of the items gets past the mark. -/
theorem crosses_many (hmark : p e.mark = true → (item e.mark).run e.old = none)
    (hitem : ∀ c, Crosses e ok R (item c)) : Crosses e ok (AtOne R) (many p item) := by
  intro s as rest h
  change many.run p item (s ++ e.mark :: e.old) = _ at h
  generalize hl : s ++ e.mark :: e.old = l at h
  fun_induction many.run p item l generalizing s as with
  | case1 => simp at hl
  | case2 => cases h
  | case3 => cases h
  | case4 c l hc a mid ha as' rest' has ih =>
    cases h
    cases s with
    | nil =>
      obtain ⟨rfl, rfl⟩ := List.cons.inj hl
      rw [hmark hc] at ha
      cases ha
    | cons c' s =>
      obtain ⟨rfl, rfl⟩ := List.cons.inj hl
      rw [List.cons_append, run_many_of_more _ hc]
      obtain ⟨r, rfl, hrun⟩ | hout := hitem c' s a mid ha
      · -- The item ends before the mark, so the exchange is in one of those behind it.
        rw [hrun, Option.bind_some]
        obtain ⟨r', rfl, hmore⟩ | hout := ih r as' rfl has
        · rw [hmore]
          exact Or.inl ⟨r', rfl, rfl⟩
        · refine Or.inr ?_
          generalize (many p item).run (r ++ e.mark :: e.new) = o at hout ⊢
          cases hout with
          | fails hnot => exact .fails hnot
          | reads hok hR => exact .reads hok (.tail a hR)
      · refine Or.inr ?_
        generalize (item c').run (s ++ e.mark :: e.new) = o at hout ⊢
        cases hout with
        | fails hnot => exact .fails hnot
        | @reads hok a' hR =>
          have hmore : (many p item).run mid = some (as', rest) := has
          rw [Option.bind_some, hmore]
          exact .reads hok (.head hR as')
  | case5 c l hc =>
    cases h
    have hstop : p c = false := Bool.eq_false_iff.2 hc
    refine Or.inl ⟨s, hl.symm, ?_⟩
    cases s with
    | nil =>
      obtain ⟨rfl, rfl⟩ := List.cons.inj hl
      exact run_many_stop item _ hstop
    | cons c' s =>
      obtain ⟨rfl, rfl⟩ := List.cons.inj hl
      exact run_many_stop item _ hstop

theorem AtOne.isEmpty {as as' : List α} (h : AtOne R as as') : as'.isEmpty = as.isEmpty := by
  cases h <;> rfl

theorem AtOne.false {as as' : List α} (h : AtOne (fun _ _ => False) as as') : False := by
  induction h with
  | head h => exact h
  | tail _ _ ih => exact ih

theorem stops_many (hmark : p e.mark = true → (item e.mark).run e.old = none)
    (hitem : ∀ c, Stops e (item c)) : Stops e (many p item) :=
  (crosses_many hmark hitem).mono fun _ _ => AtOne.false

theorem crosses_upTo (hcloses : closes e.mark = false) (hmark : (item e.mark).run e.old = none)
    (hitem : ∀ c, Crosses e ok R (item c)) : Crosses e ok (AtOne R) (upTo closes item) := by
  refine (crosses_many (fun _ => hmark) hitem).bind (fun as => ?_) fun as as' h => ?_
  · exact (stops_acceptIf hcloses).bind fun b => (stops_guard b).bind fun _ => .pure as
  · exact .bind _ fun b => .bind _ fun _ => .pure h

theorem crosses_someUpTo (hcloses : closes e.mark = false)
    (hmark : (item e.mark).run e.old = none) (hitem : ∀ c, Crosses e ok R (item c)) :
    Crosses e ok (AtOne R) (someUpTo closes item) := by
  refine (crosses_upTo hcloses hmark hitem).bind (fun as => ?_) fun as as' h => ?_
  · exact (stops_guard _).bind fun _ => .pure as
  · rw [h.isEmpty]
    exact .bind _ fun _ => .pure h

theorem stops_upTo (hcloses : closes e.mark = false) (hmark : (item e.mark).run e.old = none)
    (hitem : ∀ c, Stops e (item c)) : Stops e (upTo closes item) :=
  (crosses_upTo hcloses hmark hitem).mono fun _ _ => AtOne.false

end

end SdlSchema.Reader
