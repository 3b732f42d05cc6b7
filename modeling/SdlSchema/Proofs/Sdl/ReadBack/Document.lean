import SdlSchema.Proofs.Sdl.Append.Document
import SdlSchema.Proofs.Sdl.ReadBack.Token
import SdlSchema.Proofs.Sdl.Writing

/-!
# Reading definitions undoes writing them

Each construct of the grammar is read back from its tokens, provided that the
token behind them is none with which the construct goes on (`Reads`).  What
follows a definition is the start of another one, or nothing.
-/

namespace SdlSchema.Sdl

open Reader

namespace Grammar

variable {α β : Type}

/-- The reader takes the value off any lexemes with the given tokens, if the token behind them has
the given property. -/
def Reads (x : TokenReader α) (ts : List Token) (a : α) (p : Option Token → Prop) : Prop :=
  ∀ ls rest, ls.map Lexeme.token = ts → p (rest.head?.map Lexeme.token) →
    x.run (ls ++ rest) = some (a, rest)

/-- Whatever comes next. -/
def Any (_ : Option Token) : Prop := True

/-- The next token is none of the given punctuators. -/
def NoneOf (ps : List Punctuator) (t? : Option Token) : Prop := ∀ p ∈ ps, t? ≠ some (.punct p)

/-- The next token starts a definition, if there is one. -/
def Start (t? : Option Token) : Prop := ∀ t ∈ t?, IsStart t

/-! ## Sequencing -/

theorem Reads.pure (a : α) (p : Option Token → Prop) : Reads (pure a) [] a p := by
  intro ls rest hls _
  obtain rfl := List.map_eq_nil_iff.1 hls
  rfl

theorem Reads.mono {x : TokenReader α} {ts : List Token} {a : α} {p q : Option Token → Prop}
    (h : Reads x ts a p) (hqp : ∀ t?, q t? → p t?) : Reads x ts a q :=
  fun ls rest hls hq => h ls rest hls (hqp _ hq)

theorem Reads.bind {x : TokenReader α} {f : α → TokenReader β} {ts us : List Token} {a : α}
    {b : β} {p q : Option Token → Prop} (hx : Reads x ts a p) (hf : Reads (f a) us b q)
    (hqp : ∀ t?, q t? → p (us.head?.or t?)) : Reads (x >>= f) (ts ++ us) b q := by
  intro ls rest hls hq
  obtain ⟨ls₁, ls₂, rfl, rfl, rfl⟩ := List.map_eq_append_iff.1 hls
  have hnext : (ls₂ ++ rest).head?.map Lexeme.token =
      (ls₂.map Lexeme.token).head?.or (rest.head?.map Lexeme.token) := by
    cases ls₂ <;> rfl
  have hrun := hx ls₁ (ls₂ ++ rest) rfl (hnext ▸ hqp _ hq)
  rw [List.append_assoc, run_bind, hrun]
  exact hf ls₂ rest rfl hq

theorem Reads.cons {x : TokenReader α} {f : α → TokenReader β} {t : Token} {us : List Token} {a : α}
    {b : β} {q : Option Token → Prop} (hx : Reads x [t] a Any) (hf : Reads (f a) us b q) :
    Reads (x >>= f) (t :: us) b q :=
  hx.bind hf fun _ _ => trivial

theorem Reads.skip {x : TokenReader α} {f : α → TokenReader β} {us : List Token} {a : α} {b : β}
    {p q : Option Token → Prop} (hx : Reads x [] a p) (hf : Reads (f a) us b q)
    (hqp : ∀ t?, q t? → p (us.head?.or t?)) : Reads (x >>= f) us b q :=
  hx.bind hf hqp

theorem Reads.bindNil {x : TokenReader α} {f : α → TokenReader β} {ts : List Token} {a : α}
    {b : β} {p q : Option Token → Prop} (hx : Reads x ts a p) (hf : Reads (f a) [] b q)
    (hqp : ∀ t?, q t? → p t?) : Reads (x >>= f) ts b q := by
  rw [← List.append_nil ts]
  exact hx.bind hf fun t? hq => by simpa using hqp t? hq

theorem Reads.last {x : TokenReader α} {ts : List Token} {a : α} {p : Option Token → Prop}
    (hx : Reads x ts a p) (f : α → β) : Reads (x >>= fun a => Pure.pure (f a)) ts (f a) p :=
  hx.bindNil (Reads.pure (f a) p) fun _ hp => hp

/-! ## Single tokens -/

theorem NoneOf.mono {ps qs : List Punctuator} {t? : Option Token} (h : NoneOf qs t?)
    (hps : ps ⊆ qs) : NoneOf ps t? := fun p hp => h p (hps hp)

@[simp] theorem noneOf_name (ps : List Punctuator) (s : String) : NoneOf ps (some (.name s)) := by
  simp [NoneOf]

@[simp] theorem noneOf_punct (ps : List Punctuator) (p : Punctuator) :
    NoneOf ps (some (.punct p)) ↔ p ∉ ps := by
  simp only [NoneOf, ne_eq, Option.some.injEq, Token.punct.injEq]
  exact ⟨fun h hp => h p hp rfl, fun h q hq hpq => h (hpq ▸ hq)⟩

theorem reads_acceptIf (c : Token → Bool) {t : Token} (h : c t = true) :
    Reads (Reader.acceptIf fun l => c l.token) [t] true Any := by
  intro ls rest hls _
  obtain ⟨l, ls, rfl, rfl, hnil⟩ := List.map_eq_cons_iff.1 hls
  obtain rfl := List.map_eq_nil_iff.1 hnil
  simp [acceptIf, h]

theorem reads_acceptIf_not (c : Token → Bool) {p : Option Token → Prop}
    (h : ∀ t, p (some t) → c t = false) :
    Reads (Reader.acceptIf fun l => c l.token) [] false p := by
  intro ls rest hls hp
  obtain rfl := List.map_eq_nil_iff.1 hls
  cases rest with
  | nil => rfl
  | cons l rest => simp [acceptIf, h l.token hp]

theorem reads_accept (p : Punctuator) : Reads (accept p) [.punct p] true Any :=
  reads_acceptIf (fun t => t = .punct p) (by simp)

theorem reads_accept_not (p : Punctuator) : Reads (accept p) [] false (NoneOf [p]) :=
  reads_acceptIf_not (fun t => t = .punct p) fun t h => by simpa [NoneOf] using h

theorem reads_acceptName (s : String) : Reads (acceptName s) [.name s] true Any :=
  reads_acceptIf (fun t => t = .name s) (by simp)

theorem reads_acceptName_not (s : String) :
    Reads (acceptName s) [] false fun t? => t? ≠ some (.name s) :=
  reads_acceptIf_not (fun t => t = .name s) fun t h => by simpa using h

theorem reads_expect (p : Punctuator) : Reads (expect p) [.punct p] () Any :=
  (reads_accept p).bind (Reads.pure () Any) fun _ _ => trivial

theorem reads_expectName (s : String) : Reads (expectName s) [.name s] () Any :=
  (reads_acceptName s).bind (Reads.pure () Any) fun _ _ => trivial

theorem reads_next (t : Token) : Reads Grammar.next [t] t Any := by
  intro ls rest hls _
  obtain ⟨l, ls, rfl, rfl, hnil⟩ := List.map_eq_cons_iff.1 hls
  obtain rfl := List.map_eq_nil_iff.1 hnil
  rfl

theorem reads_readName (s : String) : Reads readName [.name s] s Any :=
  (reads_next (.name s)).bind (Reads.pure s Any) fun _ _ => trivial

/-! ## Repetition -/

/-- As `Reads`, for one of several items up to a closing punctuator.  The reader is given the first
token of the item and stops in front of the next one. -/
def ReadsItem (closing : Punctuator) (item : Token → TokenReader α) (ts : List Token) (a : α)
    (p : Option Token → Prop) : Prop :=
  ∃ t us, ts = t :: us ∧ t ≠ .punct closing ∧ p (some t) ∧ Reads (item t) us a p

section Items

variable {opening closing : Punctuator} {item : Token → TokenReader α} {bs : List β}
  {tokens : β → List Token} {value : β → α} {p : Option Token → Prop}

theorem head?_items (hclosing : p (some (.punct closing)))
    (hitem : ∀ b ∈ bs, ReadsItem closing item (tokens b) (value b) p) :
    p (bs.flatMap tokens ++ [Token.punct closing]).head? := by
  cases bs with
  | nil => exact hclosing
  | cons b bs =>
    obtain ⟨t, us, hts, -, hp, -⟩ := hitem b List.mem_cons_self
    rw [List.flatMap_cons, hts]
    exact hp

theorem reads_noItems : Reads (readItems closing item) [.punct closing] [] Any := by
  intro ls rest hls _
  obtain ⟨l, ls, rfl, hl, hnil⟩ := List.map_eq_cons_iff.1 hls
  obtain rfl := List.map_eq_nil_iff.1 hnil
  exact run_upTo_stop _ _ (by simp [hl])

theorem reads_readItems (hclosing : p (some (.punct closing)))
    (hitem : ∀ b ∈ bs, ReadsItem closing item (tokens b) (value b) p) :
    Reads (readItems closing item) (bs.flatMap tokens ++ [.punct closing]) (bs.map value) Any := by
  induction bs with
  | nil => exact reads_noItems
  | cons b bs ih =>
    obtain ⟨t, us, hts, hne, -, hread⟩ := hitem b List.mem_cons_self
    have hitem' := fun b hb => hitem b (List.mem_cons_of_mem _ hb)
    intro ls rest hls _
    rw [List.flatMap_cons, hts, List.cons_append, List.cons_append, List.append_assoc] at hls
    obtain ⟨l, ls, rfl, rfl, hmore⟩ := List.map_eq_cons_iff.1 hls
    obtain ⟨ls₁, ls₂, rfl, hls₁, hls₂⟩ := List.map_eq_append_iff.1 hmore
    -- the next item stands behind this one, or the closing punctuator: `p` allows both
    have hnext : p ((ls₂ ++ rest).head?.map Lexeme.token) := by
      have hhead := head?_items hclosing hitem'
      rw [← hls₂] at hhead
      cases ls₂ with
      | nil => simp at hls₂
      | cons l ls₂ => exact hhead
    rw [List.cons_append, List.append_assoc, readItems,
      run_upTo_cons (by simpa using hne) (hread ls₁ (ls₂ ++ rest) hls₁ hnext)]
    rw [readItems] at ih
    rw [ih hitem' ls₂ rest hls₂ trivial]
    rfl

end Items

/-- Items in brackets are read back, and so is their absence. -/
theorem reads_optionalBlock {opening closing : Punctuator} {item : Token → TokenReader α}
    {as : List α} {tokens : α → List Token} {p : Option Token → Prop}
    (hclosing : p (some (.punct closing)))
    (hitem : ∀ a ∈ as, ReadsItem closing item (tokens a) a p) :
    Reads (optionalBlock opening closing item) (blockTokens opening closing (as.map tokens)) as
      (NoneOf [opening]) := by
  cases as with
  | nil =>
    refine (reads_accept_not opening).skip (Reads.pure [] (NoneOf [opening])) fun t? h => ?_
    simpa [blockTokens] using h
  | cons a as =>
    have hitems : Reads (readItems closing item)
        ((a :: as).flatMap tokens ++ [.punct closing]) ((a :: as).map id) Any :=
      reads_readItems hclosing hitem
    rw [List.map_id] at hitems
    have hsome : Reads (readSomeItems closing item)
        ((a :: as).flatMap tokens ++ [.punct closing]) (a :: as) Any :=
      hitems.bindNil (Reads.pure (a :: as) Any) fun _ _ => trivial
    exact (reads_accept opening).cons (hsome.mono fun _ _ => trivial)

section Separated

variable {separator : Punctuator} {item : TokenReader α} {token : α → Token}

theorem reads_separatedMore (hitem : ∀ a, Reads item [token a] a Any) (as : List α) :
    Reads (Reader.many (fun l => l.token = .punct separator) fun _ => item)
      ((as.map token).flatMap fun t => [.punct separator, t]) as (NoneOf [separator]) := by
  induction as with
  | nil =>
    intro ls rest hls hp
    obtain rfl := List.map_eq_nil_iff.1 hls
    cases rest with
    | nil => exact run_many_nil
    | cons l rest => exact run_many_stop _ _ (by simpa [NoneOf] using hp)
  | cons a as ih =>
    intro ls rest hls hp
    obtain ⟨l, ls, rfl, hl, hmore⟩ := List.map_eq_cons_iff.1 hls
    obtain ⟨l', ls, rfl, hl', hmore⟩ := List.map_eq_cons_iff.1 hmore
    have ha := hitem a [l'] (ls ++ rest) (by simp [hl']) trivial
    rw [List.cons_append, List.cons_append, run_many_cons (by simp [hl]) ha, ih ls rest hmore hp]
    rfl

theorem reads_readSeparated (hseparator : ∀ a, token a ≠ .punct separator)
    (hitem : ∀ a, Reads item [token a] a Any) {as : List α} (has : as ≠ []) (lead : Bool) :
    Reads (readSeparated separator item) (separatedTokens separator lead (as.map token)) as
      (NoneOf [separator]) := by
  obtain ⟨a, as, rfl⟩ := List.exists_cons_of_ne_nil has
  have hmore : Reads (item >>= fun first =>
      Reader.many (fun l => l.token = .punct separator) (fun _ => item) >>= fun more =>
        Pure.pure (first :: more))
      (token a :: (as.map token).flatMap fun t => [.punct separator, t]) (a :: as)
      (NoneOf [separator]) :=
    (hitem a).cons ((reads_separatedMore hitem as).last (a :: ·))
  cases lead with
  | false =>
    refine (reads_accept_not separator).skip hmore fun _ _ => ?_
    simpa [NoneOf, separatedTokens] using hseparator a
  | true => exact (reads_accept separator).cons hmore

end Separated

/-! ## Types -/

theorem reads_bang (nonNull : Bool) :
    Reads (accept .bang) (bangTokens nonNull) nonNull (NoneOf [.bang]) := by
  cases nonNull with
  | false => exact reads_accept_not .bang
  | true => exact (reads_accept .bang).mono fun _ _ => trivial

theorem reads_named (n : String) (nonNull : Bool) :
    Reads (do let n ← readName; pure (TypeRef.named n (← accept .bang)))
      (.name n :: bangTokens nonNull) (.named n nonNull) (NoneOf [.bang]) :=
  (reads_readName n).cons ((reads_bang nonNull).last (TypeRef.named n))

theorem reads_readType {t : TypeRef} {depth : Nat} (h : t.depth ≤ depth) :
    Reads (readType depth) t.tokens t (NoneOf [.bang]) := by
  induction t generalizing depth with
  | named n nonNull =>
    cases depth with
    | zero => exact reads_named n nonNull
    | succ depth =>
      exact (reads_accept_not .bracketL).skip (reads_named n nonNull) fun t? _ => by
        simp [TypeRef.tokens]
  | list t nonNull ih =>
    cases depth with
    | zero => exact absurd h (Nat.not_succ_le_zero _)
    | succ depth =>
      refine (reads_accept .bracketL).cons ?_
      refine (ih (Nat.le_of_succ_le_succ h)).bind ((reads_expect .bracketR).cons
        ((reads_bang nonNull).last (TypeRef.list t))) fun t? _ => ?_
      simp

/-! ## Values -/

theorem constOfName_of_isEnumName {s : String} (h : isEnumName s = true) :
    constOfName s = .enum s := by
  unfold constOfName
  split <;> simp_all [isEnumName]

/-- How `readValue` goes on with the next field of an object. -/
def readObjectField (depth : Nat) (t : Token) : TokenReader (Option (String × Const)) := do
  let n ← nameOf t
  if ← accept .colon then pure (some (n, ← readValue false depth (← Grammar.next)))
  else pure none

theorem readValue_object (depth : Nat) : readValue false (depth + 1) (.punct .braceL) =
    readItems .braceR (readObjectField depth) >>= fun fields =>
      pure (Const.object (fields.filterMap id)) := rfl

theorem readValue_list (depth : Nat) : readValue false (depth + 1) (.punct .bracketL) =
    readItems .bracketR (readValue false depth) >>= fun es => pure (Const.list es) := rfl

theorem readsItem_scalar {c : Const} {t : Token} {depth : Nat} (hc : c.tokens = [t])
    (hclosing : t ≠ .punct .bracketR) (h : readValue false depth t = pure c) :
    ReadsItem .bracketR (readValue false depth) c.tokens c Any :=
  ⟨t, [], hc, hclosing, trivial, h ▸ Reads.pure c Any⟩

def fieldTokens (f : String × Const) : List Token := .name f.1 :: .punct .colon :: f.2.tokens

theorem tokensOfElements_eq (es : List Const) :
    Const.tokensOfElements es = es.flatMap Const.tokens := by
  induction es with
  | nil => rfl
  | cons e es ih => rw [Const.tokensOfElements, ih, List.flatMap_cons]

theorem tokensOfFields_eq (fs : List (String × Const)) :
    Const.tokensOfFields fs = fs.flatMap fieldTokens := by
  induction fs with
  | nil => rfl
  | cons f fs ih =>
    obtain ⟨k, v⟩ := f
    rw [Const.tokensOfFields, ih, List.flatMap_cons]
    rfl

theorem reads_readObjectField {k : String} {v : Const} {depth : Nat}
    (h : ReadsItem .bracketR (readValue false depth) v.tokens v Any) :
    ReadsItem .braceR (readObjectField depth) (fieldTokens (k, v)) (some (k, v)) Any := by
  obtain ⟨t, us, hts, -, -, hread⟩ := h
  refine ⟨.name k, _, rfl, by simp, trivial, ?_⟩
  refine (Reads.pure k Any).skip ((reads_accept .colon).cons ?_) fun _ _ => trivial
  rw [hts]
  exact (reads_next t).cons (hread.last fun v => some (k, v))

mutual

/-- A constant is read back at any depth that is enough for it. -/
theorem readsItem_readValue : ∀ (c : Const) {depth : Nat}, c.IsConstant → c.depth ≤ depth →
    ReadsItem .bracketR (readValue false depth) c.tokens c Any
  | .null, depth, _, _ => readsItem_scalar rfl (by simp) (by cases depth <;> rfl)
  | .boolean true, depth, _, _ => readsItem_scalar rfl (by simp) (by cases depth <;> rfl)
  | .boolean false, depth, _, _ => readsItem_scalar rfl (by simp) (by cases depth <;> rfl)
  | .number n, depth, _, _ => readsItem_scalar rfl (by simp) (by cases depth <;> rfl)
  | .string s, depth, _, _ => readsItem_scalar rfl (by simp) (by cases depth <;> rfl)
  | .enum n, depth, hconstant, _ => by
    have hread : readValue false depth (.name n) = pure (constOfName n) := by
      cases depth <;> rfl
    rw [constOfName_of_isEnumName hconstant] at hread
    exact readsItem_scalar rfl (by simp) hread
  | .list [], 0, _, _ =>
    ⟨_, _, rfl, by simp, trivial, (reads_expect .bracketR).last fun _ => Const.list []⟩
  | .list (e :: es), 0, _, hdepth =>
    absurd (Nat.max_le.1 hdepth).1 (Nat.not_succ_le_zero _)
  | .list es, depth + 1, hconstant, hdepth => by
    have hitems : Reads (readItems .bracketR (readValue false depth))
        (es.flatMap Const.tokens ++ [.punct .bracketR]) (es.map id) Any :=
      reads_readItems trivial (readsItem_elements es hconstant hdepth)
    rw [List.map_id] at hitems
    refine ⟨.punct .bracketL, _, rfl, by simp, trivial, ?_⟩
    rw [readValue_list, tokensOfElements_eq]
    exact hitems.last Const.list
  | .object [], 0, _, _ =>
    ⟨_, _, rfl, by simp, trivial, reads_noItems.last fun _ => Const.object []⟩
  | .object ((k, v) :: fs), 0, _, hdepth =>
    absurd (Nat.max_le.1 hdepth).1 (Nat.not_succ_le_zero _)
  | .object fs, depth + 1, hconstant, hdepth => by
    have hitems : Reads (readItems .braceR (readObjectField depth))
        (fs.flatMap fieldTokens ++ [.punct .braceR]) (fs.map some) Any :=
      reads_readItems trivial (readsItem_fields fs hconstant hdepth)
    have hfields : (fs.map some).filterMap id = fs := by
      rw [List.filterMap_map, Function.id_comp, List.filterMap_some]
    have hobject := hitems.last fun fields => Const.object (fields.filterMap id)
    rw [hfields] at hobject
    refine ⟨.punct .braceL, _, rfl, by simp, trivial, ?_⟩
    rw [readValue_object, tokensOfFields_eq]
    exact hobject

theorem readsItem_elements : ∀ (es : List Const) {depth : Nat}, Const.AreConstant es →
    Const.depthOfElements es ≤ depth + 1 →
      ∀ e ∈ es, ReadsItem .bracketR (readValue false depth) e.tokens (id e) Any
  | [], _, _, _ => nofun
  | e :: es, depth, hconstant, hdepth => by
    obtain ⟨hfirst, hmore⟩ := Nat.max_le.1 hdepth
    exact List.forall_mem_cons.2
      ⟨readsItem_readValue e hconstant.1 (Nat.le_of_succ_le_succ hfirst),
        readsItem_elements es hconstant.2 hmore⟩

theorem readsItem_fields : ∀ (fs : List (String × Const)) {depth : Nat},
    Const.AreConstantFields fs → Const.depthOfFields fs ≤ depth + 1 →
      ∀ f ∈ fs, ReadsItem .braceR (readObjectField depth) (fieldTokens f) (some f) Any
  | [], _, _, _ => nofun
  | (k, v) :: fs, depth, hconstant, hdepth => by
    obtain ⟨hfirst, hmore⟩ := Nat.max_le.1 hdepth
    exact List.forall_mem_cons.2
      ⟨reads_readObjectField (readsItem_readValue v hconstant.1 (Nat.le_of_succ_le_succ hfirst)),
        readsItem_fields fs hconstant.2 hmore⟩

end

/-! ## Fields -/

theorem reads_noDirectives (executable : Bool) (depth : Nat) :
    Reads (readDirectives executable depth) [] [] (NoneOf [.atSign]) := by
  intro ls rest hls hp
  obtain rfl := List.map_eq_nil_iff.1 hls
  cases rest with
  | nil => exact run_many_nil
  | cons l rest => exact run_many_stop _ _ (by simpa [NoneOf] using hp)

theorem reads_readDefault {default? : Option Const} {depth : Nat}
    (h : ∀ c ∈ default?, c.IsConstant ∧ c.depth ≤ depth) :
    Reads (readDefault depth) (defaultTokens default?) default? (NoneOf [.equals]) := by
  cases default? with
  | none =>
    refine (reads_accept_not .equals).skip (Reads.pure none (NoneOf [.equals])) fun t? h => ?_
    simpa [defaultTokens] using h
  | some c =>
    obtain ⟨hconstant, hdepth⟩ := h c rfl
    obtain ⟨t, us, hts, -, -, hread⟩ := readsItem_readValue c hconstant hdepth
    rw [defaultTokens, hts]
    exact (reads_accept .equals).cons ((reads_next t).cons
      ((hread.last some).mono fun _ _ => trivial))

theorem readsItem_readInputValue {v : InputValue} (h : v.IsWritable) {closing : Punctuator} :
    ReadsItem closing (readInputValue nestingLimit) v.tokens v
      (NoneOf [.bang, .equals, .atSign]) := by
  obtain ⟨htype, hdefault⟩ := h
  refine ⟨.name v.name, _, rfl, by simp, by simp, ?_⟩
  refine (Reads.pure (Token.name v.name) Any).skip ?_ fun _ _ => trivial
  refine (Reads.pure v.name Any).skip ((reads_expect .colon).cons ?_) fun _ _ => trivial
  have hend := (reads_noDirectives false nestingLimit).last fun _ =>
    InputValue.mk v.name v.type v.default?
  refine (reads_readType htype).bind ((reads_readDefault hdefault).bindNil
    (hend.mono fun t? (h : NoneOf [.bang, .equals, .atSign] t?) => h.mono (by simp)) ?_) ?_
  · exact fun t? h => h.mono (by simp)
  · intro t? h
    cases v.default? with
    | none => simpa [defaultTokens] using h.mono (by simp)
    | some c => simp [defaultTokens]

theorem reads_readInputValues {vs : List InputValue} (h : ∀ v ∈ vs, v.IsWritable)
    {opening closing : Punctuator} (hclosing : closing ∉ [.bang, .equals, .atSign]) :
    Reads (readInputValues nestingLimit opening closing)
      (blockTokens opening closing (vs.map InputValue.tokens)) vs (NoneOf [opening]) :=
  reads_optionalBlock ((noneOf_punct _ _).2 hclosing) fun v hv => readsItem_readInputValue (h v hv)

theorem readsItem_readField {f : Field} (h : f.IsWritable) {closing : Punctuator} :
    ReadsItem closing (readField nestingLimit) f.tokens f (NoneOf [.bang, .atSign]) := by
  obtain ⟨htype, harguments⟩ := h
  refine ⟨.name f.name, _, rfl, by simp, by simp, ?_⟩
  refine (Reads.pure (Token.name f.name) Any).skip ?_ fun _ _ => trivial
  refine (Reads.pure f.name Any).skip ?_ fun _ _ => trivial
  have hend := (reads_noDirectives false nestingLimit).last fun _ =>
    Field.mk f.name f.type f.arguments
  refine (reads_readInputValues harguments (by simp)).bind ((reads_expect .colon).cons
    ((reads_readType htype).bindNil
      (hend.mono fun t? (h : NoneOf [.bang, .atSign] t?) => h.mono (by simp)) ?_)) ?_
  · exact fun t? h => h.mono (by simp)
  · simp

theorem reads_readFields {fs : List Field} (h : ∀ f ∈ fs, f.IsWritable) :
    Reads (readFields nestingLimit) (blockTokens .braceL .braceR (fs.map Field.tokens)) fs
      (NoneOf [.braceL]) :=
  reads_optionalBlock (by simp) fun f hf => readsItem_readField (h f hf)

/-! ## Definitions -/

theorem Start.noneOf {t? : Option Token} (h : Start t?) (ps : List Punctuator) : NoneOf ps t? := by
  rintro p - rfl
  exact h (.punct p) rfl

theorem Start.ne {t? : Option Token} (h : Start t?) {s : String} (hs : ¬ IsStart (.name s)) :
    t? ≠ some (.name s) := by
  rintro rfl
  exact hs (h (.name s) rfl)

/-- In front of a block, what comes next is its opening bracket or, if there is none, what stands
behind it. -/
theorem head?_blockTokens (p : Option Token → Prop) {opening closing : Punctuator}
    {items : List (List Token)} {t? : Option Token} (hopening : p (some (.punct opening)))
    (ht : p t?) : p ((blockTokens opening closing items).head?.or t?) := by
  cases items with
  | nil => exact ht
  | cons item items => exact hopening

theorem head?_memberTokens (p : Option Token → Prop) {lead : Bool} {members : List String}
    {t? : Option Token} (hequals : p (some (.punct .equals))) (ht : p t?) :
    p ((memberTokens lead members).head?.or t?) := by
  cases members with
  | nil => exact ht
  | cons member members => exact hequals

theorem reads_noInterfaces : Reads readInterfaces [] [] (· ≠ some (.name "implements")) :=
  (reads_acceptName_not "implements").skip (Reads.pure [] _) fun _ h => h

theorem reads_readMembers (lead : Bool) (members : List String) :
    Reads readMembers (memberTokens lead members) members (NoneOf [.equals, .pipe]) := by
  cases members with
  | nil =>
    refine (reads_accept_not .equals).skip (Reads.pure [] (NoneOf [.equals, .pipe])) fun t? h => ?_
    exact h.mono (by simp)
  | cons member members =>
    have hmembers : Reads (readSeparated .pipe readName)
        (separatedTokens .pipe lead ((member :: members).map .name)) (member :: members)
        (NoneOf [.pipe]) :=
      reads_readSeparated (by simp) reads_readName (List.cons_ne_nil member members) lead
    exact (reads_accept .equals).cons (hmembers.mono fun t? h => h.mono (by simp))

theorem readsItem_readEnumValue {s : String} (h : isEnumName s = true) {closing : Punctuator} :
    ReadsItem closing (readEnumValue nestingLimit) [.name s] s (NoneOf [.atSign]) := by
  refine ⟨.name s, [], rfl, by simp, by simp, ?_⟩
  refine (Reads.pure (Token.name s) Any).skip ?_ fun _ _ => trivial
  refine (Reads.pure s Any).skip ?_ fun _ _ => trivial
  have hguard : Reads (Reader.guard (isEnumName s)) [] () Any := h ▸ Reads.pure () Any
  exact hguard.skip ((reads_noDirectives false nestingLimit).last fun _ => s) fun _ _ => trivial

theorem reads_repeatable (repeatable : Bool) :
    Reads (acceptName "repeatable") (if repeatable then [.name "repeatable"] else []) repeatable
      (· ≠ some (.name "repeatable")) := by
  cases repeatable with
  | false => exact reads_acceptName_not "repeatable"
  | true => exact (reads_acceptName "repeatable").mono fun _ _ => trivial

theorem reads_readLocation (l : Location) : Reads readLocation [.name l.name] l Any := by
  have hlocation : Reads (ofOption (Location.ofName? l.name)) [] l Any := by
    rw [Location.ofName?_name]
    exact Reads.pure l Any
  exact (reads_readName l.name).bindNil hlocation fun _ _ => trivial

/-- What stands behind the name of a type, if no directives are applied. -/
theorem reads_body {x : TokenReader α} {ts : List Token} {a : α} {ps : List Punctuator}
    (hx : Reads x ts a (NoneOf ps)) (hhead : ∀ t?, Start t? → NoneOf [.atSign] (ts.head?.or t?))
    (f : α → Definition) :
    Reads (do let _ ← readDirectives false nestingLimit; pure (f (← x))) ts (f a) Start :=
  (reads_noDirectives false nestingLimit).skip
    ((hx.last f).mono fun _ h => h.noneOf ps) hhead

/-- As `reads_body`, where interfaces may stand in front. -/
theorem reads_fieldsBody {fields : List Field} (h : ∀ f ∈ fields, f.IsWritable)
    (f : List Field → Definition) :
    Reads (do
        let _ ← readInterfaces
        let _ ← readDirectives false nestingLimit
        pure (f (← readFields nestingLimit)))
      (blockTokens .braceL .braceR (fields.map Field.tokens)) (f fields) Start := by
  have hbody := reads_body (reads_readFields h)
    (fun _ ht => head?_blockTokens (NoneOf _) (by simp) (ht.noneOf _)) f
  exact reads_noInterfaces.skip hbody fun _ ht =>
    head?_blockTokens (· ≠ some (.name "implements")) (by simp)
      (ht.ne (by simp [IsStart]))

theorem reads_readDirective {d : DirectiveDefinition} (h : (Definition.directive d).IsWritable)
    (lead : Bool) : ∃ us, d.tokens lead = .name "directive" :: us ∧
      Reads (readTypeSystem nestingLimit "directive") us (.directive d) Start := by
  obtain ⟨hlocations, harguments⟩ := h
  refine ⟨_, rfl, (reads_expect .atSign).cons ((reads_readName d.name).cons ?_)⟩
  have hend : Reads (readSeparated .pipe readLocation)
      (separatedTokens .pipe lead (d.locations.map fun l => .name l.name)) d.locations
      (NoneOf [.pipe]) :=
    reads_readSeparated (by simp) reads_readLocation hlocations lead
  refine (reads_readInputValues harguments (by simp)).bind ((reads_repeatable d.repeatable).bind
    ((reads_expectName "on").cons ((hend.last fun locations => Definition.directive
      ⟨d.name, d.arguments, d.repeatable, locations⟩).mono fun t? h => h.noneOf [.pipe])) ?_) ?_
  · simp
  · intro _ _
    cases d.repeatable <;> simp

/-- A definition is read back from its tokens, if behind them another one starts or nothing is. -/
theorem reads_readDefinition (lead : Bool) {d : Definition} (h : d.IsWritable) :
    ∃ t us, d.tokens lead = t :: us ∧ IsStart t ∧
      Reads (readDefinition nestingLimit t) us d Start := by
  cases d with
  | scalar name =>
    refine ⟨.name "scalar", _, rfl, by simp [IsStart], (reads_readName name).cons ?_⟩
    exact ((reads_noDirectives false nestingLimit).last fun _ => Definition.scalar name).mono
      fun t? h => h.noneOf _
  | object name fields =>
    refine ⟨.name "type", _, rfl, by simp [IsStart], (reads_readName name).cons ?_⟩
    exact reads_fieldsBody h (Definition.object name)
  | interface name fields =>
    refine ⟨.name "interface", _, rfl, by simp [IsStart], (reads_readName name).cons ?_⟩
    exact reads_fieldsBody h (Definition.interface name)
  | union name members =>
    refine ⟨.name "union", _, rfl, by simp [IsStart], (reads_readName name).cons ?_⟩
    exact reads_body (reads_readMembers lead members) (fun t? h =>
      head?_memberTokens (NoneOf _) (by simp) (h.noneOf _)) (Definition.union name)
  | enum name values =>
    refine ⟨.name "enum", _, rfl, by simp [IsStart], (reads_readName name).cons ?_⟩
    have hvalues : Reads (readEnumValues nestingLimit)
        (blockTokens .braceL .braceR (values.map fun v => [.name v])) values (NoneOf [.braceL]) :=
      reads_optionalBlock (by simp) fun v hv => readsItem_readEnumValue (h v hv)
    exact reads_body hvalues (fun t? h => head?_blockTokens (NoneOf _) (by simp) (h.noneOf _))
      (Definition.enum name)
  | input name fields =>
    refine ⟨.name "input", _, rfl, by simp [IsStart], (reads_readName name).cons ?_⟩
    exact reads_body (reads_readInputValues h (by simp)) (fun t? h =>
      head?_blockTokens (NoneOf _) (by simp) (h.noneOf _)) (Definition.input name)
  | directive d =>
    obtain ⟨us, hus, hread⟩ := reads_readDirective h lead
    exact ⟨.name "directive", us, hus, by simp [IsStart], hread⟩
  | schema | schemaExtension | typeExtension | operation | fragment => exact h.elim

end Grammar

/-! ## Documents -/

theorem Written.start {ds : List Definition} {ts : List Token} (h : Written ds ts)
    (hds : ∀ d ∈ ds, d.IsWritable) : Grammar.Start ts.head? := by
  cases h with
  | nil => exact nofun
  | @cons d ds ts lead h =>
    obtain ⟨t, us, hts, hstart, -⟩ :=
      Grammar.reads_readDefinition lead (hds d List.mem_cons_self)
    rw [hts]
    intro t' ht'
    cases ht'
    exact hstart

/-- Definitions are read back one by one, each up to the start of the next one. -/
theorem Written.readDefinitions? {ds : List Definition} {ts : List Token} (h : Written ds ts)
    (hds : ∀ d ∈ ds, d.IsWritable) {ls : List Lexeme} (hls : ls.map Lexeme.token = ts) :
    Sdl.readDefinitions? ls = some ds := by
  induction h generalizing ls with
  | nil =>
    obtain rfl := List.map_eq_nil_iff.1 hls
    exact readDefinitions?_nil
  | @cons d ds ts lead hmore ih =>
    have hds' := fun d hd => hds d (List.mem_cons_of_mem _ hd)
    obtain ⟨t, us, hts, -, hread⟩ :=
      Grammar.reads_readDefinition lead (hds d List.mem_cons_self)
    rw [hts, List.cons_append] at hls
    obtain ⟨l, ls, rfl, rfl, hrest⟩ := List.map_eq_cons_iff.1 hls
    obtain ⟨ls₁, ls₂, rfl, hls₁, hls₂⟩ := List.map_eq_append_iff.1 hrest
    -- no definition goes on with the start of another one
    have hnext : Grammar.Start (ls₂.head?.map Lexeme.token) := by
      rw [← List.head?_map, hls₂]
      exact hmore.start hds'
    rw [readDefinitions?_cons, hread ls₁ ls₂ hls₁ hnext, Option.bind_some, ih hds' hls₂]
    rfl

/-- Definitions are read back from every text that spells their tokens. -/
theorem Written.ofChars? {ds : List Definition} {ts : List Token} {s : List Char}
    (h : Written ds ts) (hne : ds ≠ []) (hds : ∀ d ∈ ds, d.IsWritable) (hs : Spells ts s) :
    Sdl.ofChars? s = some ds := by
  obtain ⟨ls, hls, htokens⟩ := hs.ofChars?
  rw [Sdl.ofChars?, hls]
  exact ofLexemes?_eq_some_iff.2 ⟨h.readDefinitions? hds htokens, hne⟩

end SdlSchema.Sdl
