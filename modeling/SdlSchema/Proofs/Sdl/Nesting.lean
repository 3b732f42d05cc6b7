import SdlSchema.Proofs.Sdl.Exchange
import SdlSchema.Proofs.Sdl.ReadBack.Document

/-!
# Nesting beyond the limit

A reader that has fewer levels left than a type or a constant has fails on its
tokens, whatever stands behind them (`rejects_readType`, `rejectsItem_readValue`).
List types, lists that hold an element and objects that hold a field take one
level each, so for a constant the path to the innermost value decides, of which
other parts may have been read before.
-/

namespace SdlSchema.Sdl

open Reader

namespace Grammar

variable {α β : Type}

/-- The reader fails on all lexemes that begin with the tokens. -/
def Rejects (x : TokenReader α) (ts : List Token) : Prop :=
  ∀ ls rest, ls.map Lexeme.token = ts → x.run (ls ++ rest) = none

theorem Rejects.append {x : TokenReader α} {ts : List Token} (h : Rejects x ts) (us : List Token) :
    Rejects x (ts ++ us) := by
  intro ls rest hls
  obtain ⟨ls₁, ls₂, rfl, hts, -⟩ := List.map_eq_append_iff.1 hls
  rw [List.append_assoc]
  exact h ls₁ (ls₂ ++ rest) hts

theorem Rejects.bind {x : TokenReader α} {ts : List Token} (h : Rejects x ts)
    (f : α → TokenReader β) : Rejects (x >>= f) ts := by
  intro ls rest hls
  rw [run_bind, h ls rest hls]

/-- What is read first may be anything. -/
theorem Reads.rejects {x : TokenReader α} {f : α → TokenReader β} {ts us : List Token} {a : α}
    (hx : Reads x ts a Any) (hf : Rejects (f a) us) : Rejects (x >>= f) (ts ++ us) := by
  intro ls rest hls
  obtain ⟨ls₁, ls₂, rfl, hts, hus⟩ := List.map_eq_append_iff.1 hls
  rw [List.append_assoc, run_bind, hx ls₁ (ls₂ ++ rest) hts trivial]
  exact hf ls₂ rest hus

theorem rejects_expect {p : Punctuator} {t : Token} (h : t ≠ .punct p) (us : List Token) :
    Rejects (expect p) (t :: us) := by
  intro ls rest hls
  obtain ⟨l, ls, rfl, rfl, -⟩ := List.map_eq_cons_iff.1 hls
  rw [List.cons_append, expect, accept, run_bind, run_acceptIf_cons, decide_eq_false h]
  rfl

theorem rejects_readName (p : Punctuator) (us : List Token) :
    Rejects readName (.punct p :: us) := by
  intro ls rest hls
  obtain ⟨l, ls, rfl, hl, -⟩ := List.map_eq_cons_iff.1 hls
  change (nameOf l.token).run (ls ++ rest) = none
  rw [hl]
  rfl

/-! ## Types -/

theorem rejects_readType {t : TypeRef} {depth : Nat} (h : depth < t.depth) :
    Rejects (readType depth) t.tokens := by
  induction t generalizing depth with
  | named n nonNull => exact absurd h (Nat.not_lt_zero depth)
  | list t nonNull ih =>
    cases depth with
    | zero => exact (rejects_readName .bracketL _).bind _
    | succ depth =>
      have helement := (ih (Nat.lt_of_succ_lt_succ h)).append
        (.punct .bracketR :: bangTokens nonNull)
      exact (reads_accept .bracketL).rejects (helement.bind _)

/-! ## Items -/

/-- As `Rejects`, for one of several items up to a closing punctuator. -/
def RejectsItem (closing : Punctuator) (item : Token → TokenReader α) (ts : List Token) : Prop :=
  ∃ t us, ts = t :: us ∧ t ≠ .punct closing ∧ Rejects (item t) us

section Items

variable {closing : Punctuator} {item : Token → TokenReader α}

theorem RejectsItem.readItems {ts : List Token} (h : RejectsItem closing item ts)
    (us : List Token) : Rejects (readItems closing item) (ts ++ us) := by
  obtain ⟨t, ts, rfl, hne, hrejects⟩ := h
  intro ls rest hls
  obtain ⟨l, ls, rfl, rfl, hmore⟩ := List.map_eq_cons_iff.1 hls
  exact run_upTo_fail (decide_eq_false hne) (hrejects.append us ls rest hmore)

theorem ReadsItem.rejects {ts us : List Token} {a : α} (h : ReadsItem closing item ts a Any)
    (hmore : Rejects (readItems closing item) us) :
    Rejects (readItems closing item) (ts ++ us) := by
  obtain ⟨t, ts, rfl, hne, -, hreads⟩ := h
  intro ls rest hls
  obtain ⟨l, ls, rfl, rfl, hboth⟩ := List.map_eq_cons_iff.1 hls
  obtain ⟨ls₁, ls₂, rfl, hts, hus⟩ := List.map_eq_append_iff.1 hboth
  have hitem := hreads ls₁ (ls₂ ++ rest) hts trivial
  have hrest : (upTo _ _).run (ls₂ ++ rest) = none := hmore ls₂ rest hus
  rw [List.cons_append, List.append_assoc, Grammar.readItems,
    run_upTo_cons (by simpa using hne) hitem, hrest]
  rfl

/-- One item that is rejected is enough if those before it are read. -/
theorem rejects_readItems {bs : List β} {tokens : β → List Token} (value : β → α)
    (hall : ∀ b ∈ bs, ReadsItem closing item (tokens b) (value b) Any ∨
      RejectsItem closing item (tokens b))
    (hone : ∃ b ∈ bs, RejectsItem closing item (tokens b)) (us : List Token) :
    Rejects (readItems closing item) (bs.flatMap tokens ++ us) := by
  induction bs with
  | nil =>
    obtain ⟨b, hb, -⟩ := hone
    cases hb
  | cons b bs ih =>
    rw [List.flatMap_cons, List.append_assoc]
    rcases hall b List.mem_cons_self with hreads | hrejects
    · obtain ⟨b', hb', hrejects⟩ := hone
      rcases List.mem_cons.1 hb' with rfl | hmem
      · exact hrejects.readItems _
      · exact hreads.rejects
          (ih (fun b hb => hall b (List.mem_cons_of_mem _ hb)) ⟨b', hmem, hrejects⟩)
    · exact hrejects.readItems _

end Items

/-! ## Values -/

theorem exists_deep_element {es : List Const} {n : Nat} (h : n < Const.depthOfElements es) :
    ∃ e ∈ es, n ≤ e.depth := by
  induction es with
  | nil => exact absurd h (Nat.not_lt_zero n)
  | cons e es ih =>
    by_cases hfirst : n ≤ e.depth
    · exact ⟨e, List.mem_cons_self, hfirst⟩
    · have hmore : n < Const.depthOfElements es := by
        rw [Const.depthOfElements] at h
        omega
      obtain ⟨e', he', hdeep⟩ := ih hmore
      exact ⟨e', List.mem_cons_of_mem e he', hdeep⟩

theorem depthOfFields_eq (fs : List (String × Const)) :
    Const.depthOfFields fs = Const.depthOfElements (fs.map Prod.snd) := by
  induction fs with
  | nil => rfl
  | cons f fs ih => rw [Const.depthOfFields, List.map_cons, Const.depthOfElements, ih]

theorem exists_deep_field {fs : List (String × Const)} {n : Nat}
    (h : n < Const.depthOfFields fs) : ∃ f ∈ fs, n ≤ f.2.depth := by
  rw [depthOfFields_eq] at h
  obtain ⟨v, hv, hdeep⟩ := exists_deep_element h
  obtain ⟨f, hf, rfl⟩ := List.mem_map.1 hv
  exact ⟨f, hf, hdeep⟩

theorem isConstant_of_mem {es : List Const} (h : Const.AreConstant es) :
    ∀ e ∈ es, e.IsConstant := by
  induction es with
  | nil => exact List.forall_mem_nil _
  | cons e es ih => exact List.forall_mem_cons.2 ⟨h.1, ih h.2⟩

theorem isConstant_of_mem_fields {fs : List (String × Const)} (h : Const.AreConstantFields fs) :
    ∀ f ∈ fs, f.2.IsConstant := by
  induction fs with
  | nil => exact List.forall_mem_nil _
  | cons f fs ih => exact List.forall_mem_cons.2 ⟨h.1, ih h.2⟩

/-- Where no level is left, a field of an object is taken for a name without a value. -/
theorem rejects_noFields (k : String) (us : List Token) :
    Rejects (readItems .braceR nameOf) (.name k :: .punct .colon :: us) := by
  have hname : ReadsItem .braceR nameOf [.name k] k Any :=
    ⟨_, _, rfl, nofun, trivial, Reads.pure k Any⟩
  have hcolon : RejectsItem .braceR nameOf [.punct .colon] := ⟨_, _, rfl, nofun, fun _ _ _ => rfl⟩
  exact hname.rejects (hcolon.readItems us)

theorem rejects_readObjectField {k : String} {v : Const} {depth : Nat}
    (h : RejectsItem .bracketR (readValue false depth) v.tokens) :
    RejectsItem .braceR (readObjectField depth) (fieldTokens (k, v)) := by
  obtain ⟨t, us, hts, -, hrejects⟩ := h
  refine ⟨.name k, _, rfl, nofun, (Reads.pure k Any).rejects ((reads_accept .colon).rejects ?_)⟩
  rw [hts]
  exact (reads_next t).rejects (hrejects.bind _)

mutual

/-- A constant is rejected at any depth that is not enough for it. -/
theorem rejectsItem_readValue : ∀ (c : Const) {depth : Nat}, c.IsConstant → depth < c.depth →
    RejectsItem .bracketR (readValue false depth) c.tokens
  | .null, depth, _, hdepth => absurd hdepth (Nat.not_lt_zero depth)
  | .boolean _, depth, _, hdepth => absurd hdepth (Nat.not_lt_zero depth)
  | .number _, depth, _, hdepth => absurd hdepth (Nat.not_lt_zero depth)
  | .string _, depth, _, hdepth => absurd hdepth (Nat.not_lt_zero depth)
  | .enum _, depth, _, hdepth => absurd hdepth (Nat.not_lt_zero depth)
  | .variable _, depth, hconstant, _ => hconstant.elim
  | .list [], depth, _, hdepth => absurd hdepth (Nat.not_lt_zero depth)
  | .list (e :: es), 0, hconstant, _ => by
    obtain ⟨t, us, hts, hne, -⟩ := readsItem_readValue e hconstant.1 (Nat.le_refl _)
    refine ⟨.punct .bracketL, _, rfl, nofun, ?_⟩
    rw [Const.tokensOfElements, hts]
    exact (rejects_expect hne _).bind _
  | .list es, depth + 1, hconstant, hdepth => by
    obtain ⟨e, he, hdeep⟩ := exists_deep_element hdepth
    refine ⟨.punct .bracketL, _, rfl, nofun, ?_⟩
    rw [readValue_list, tokensOfElements_eq]
    refine (rejects_readItems id (fun e he => ?_)
      ⟨e, he, rejectsItem_elements es hconstant e he hdeep⟩ _).bind _
    rcases Nat.lt_or_ge depth e.depth with hdeep | hdepth
    · exact Or.inr (rejectsItem_elements es hconstant e he hdeep)
    · exact Or.inl (readsItem_readValue e (isConstant_of_mem hconstant e he) hdepth)
  | .object [], depth, _, hdepth => absurd hdepth (Nat.not_lt_zero depth)
  | .object ((k, v) :: fs), 0, _, _ =>
    ⟨.punct .braceL, _, rfl, nofun, (rejects_noFields k _).bind _⟩
  | .object fs, depth + 1, hconstant, hdepth => by
    obtain ⟨f, hf, hdeep⟩ := exists_deep_field hdepth
    refine ⟨.punct .braceL, _, rfl, nofun, ?_⟩
    rw [readValue_object, tokensOfFields_eq]
    refine (rejects_readItems some (fun f hf => ?_)
      ⟨f, hf, rejectsItem_fields fs hconstant f hf hdeep⟩ _).bind _
    rcases Nat.lt_or_ge depth f.2.depth with hdeep | hdepth
    · exact Or.inr (rejectsItem_fields fs hconstant f hf hdeep)
    · exact Or.inl (reads_readObjectField
        (readsItem_readValue f.2 (isConstant_of_mem_fields hconstant f hf) hdepth))

theorem rejectsItem_elements : ∀ (es : List Const) {depth : Nat}, Const.AreConstant es →
    ∀ e ∈ es, depth < e.depth → RejectsItem .bracketR (readValue false depth) e.tokens
  | [], _, _ => nofun
  | e :: es, _, hconstant => List.forall_mem_cons.2
      ⟨rejectsItem_readValue e hconstant.1, rejectsItem_elements es hconstant.2⟩

theorem rejectsItem_fields : ∀ (fs : List (String × Const)) {depth : Nat},
    Const.AreConstantFields fs →
      ∀ f ∈ fs, depth < f.2.depth → RejectsItem .braceR (readObjectField depth) (fieldTokens f)
  | [], _, _ => nofun
  | (_, v) :: fs, _, hconstant => List.forall_mem_cons.2
      ⟨fun hdepth => rejects_readObjectField (rejectsItem_readValue v hconstant.1 hdepth),
        rejectsItem_fields fs hconstant.2⟩

end

/-! ## Places

A type in brackets with a mark inside is no value, and a numeral is no name: so
it can be told from them where a type or a default stands. -/

section

variable {mark : Lexeme} {old new post : List Lexeme} {name : String} {t : TypeRef}
  {n : Decimal.Numeral} {c : Const}

/-- A non-null name in brackets. -/
def listOf (name : String) : TypeRef := .list (.named name true) false

theorem rejects_listOf (name : String) (depth : Nat) :
    Rejects (Grammar.next >>= readValue false depth) (listOf name).tokens := by
  refine (reads_next (.punct .bracketL)).rejects ?_
  cases depth with
  | zero =>
    have hname : Token.name name ≠ .punct .bracketR := nofun
    exact (rejects_expect hname _).bind _
  | succ depth =>
    have hname : ReadsItem .bracketR (readValue false depth) [.name name] (constOfName name) Any :=
      ⟨_, _, rfl, nofun, trivial, by cases depth <;> exact Reads.pure _ Any⟩
    have hbang : RejectsItem .bracketR (readValue false depth) [.punct .bang] :=
      ⟨_, _, rfl, nofun, fun _ _ _ => by cases depth <;> rfl⟩
    exact (hname.rejects (hbang.readItems [.punct .bracketR])).bind _

theorem isMark_type (hmark : mark.token = .punct .colon)
    (hold : old.map Lexeme.token = (listOf name).tokens) :
    IsMark ⟨mark, old ++ post, new ++ post⟩ where
  token := ⟨.colon, hmark, rfl⟩
  value := fun _ depth => rejects_listOf name depth old post hold
  names := fun h => by
    rw [show mark.token = .punct .equals from h] at hmark
    cases hmark

/-- A type that is not nested too deeply can be read in the place of another one. -/
theorem isPlace_type (hmark : mark.token = .punct .colon)
    (hold : old.map Lexeme.token = (listOf name).tokens) (hnew : new.map Lexeme.token = t.tokens)
    (hpost : NoneOf [.bang] (post.head?.map Lexeme.token)) :
    IsPlace ⟨mark, old ++ post, new ++ post⟩ (t.depth ≤ nestingLimit) (.type (listOf name) t) := by
  have he : IsMark ⟨mark, old ++ post, new ++ post⟩ := isMark_type hmark hold
  have hold : (readType nestingLimit).run (old ++ post) = some (listOf name, post) :=
    reads_readType (show 1 ≤ nestingLimit by decide) old post hold hpost
  refine { toIsMark := he, type := ?_, default? := ?_ }
  · refine crosses_expect_bind (fun _ a rest hrun => ?_) (stops_readType he _).crosses
    cases hold.symm.trans hrun
    by_cases hdepth : t.depth ≤ nestingLimit
    · rw [reads_readType hdepth new post hnew hpost]
      exact .reads hdepth rfl
    · rw [rejects_readType (Nat.lt_of_not_le hdepth) new post hnew]
      exact .fails hdepth
  · refine crosses_readDefault he fun h => ?_
    rw [show mark.token = .punct .equals from h] at hmark
    cases hmark

theorem isMark_default (hmark : mark.token = .punct .equals)
    (hold : old.map Lexeme.token = [.number n]) :
    IsMark ⟨mark, old ++ post, new ++ post⟩ where
  token := ⟨.equals, hmark, rfl⟩
  value := fun h => by
    rw [show mark.token = .punct .colon from h] at hmark
    cases hmark
  names := fun _ => by
    obtain ⟨l, ls, rfl, hl, -⟩ := List.map_eq_cons_iff.1 hold
    have haccept : (accept .pipe).run (l :: ls ++ post) = some (false, l :: ls ++ post) := by
      rw [accept, List.cons_append, run_acceptIf_cons, hl]
      rfl
    have hname : (readName).run (l :: ls ++ post) = none := by
      change (nameOf l.token).run (ls ++ post) = none
      rw [hl]
      rfl
    rw [readSeparated, run_bind, haccept]
    dsimp only
    rw [run_bind, hname]

theorem reads_valueOfDefault {depth : Nat} (hconstant : c.IsConstant) (hdepth : c.depth ≤ depth) :
    Reads (do some <$> readValue false depth (← Grammar.next)) c.tokens (some c) Any := by
  obtain ⟨t, us, hts, -, -, hread⟩ := readsItem_readValue c hconstant hdepth
  rw [hts]
  exact (reads_next t).cons (hread.last some)

theorem rejects_valueOfDefault {depth : Nat} (hconstant : c.IsConstant) (hdepth : depth < c.depth) :
    Rejects (do some <$> readValue false depth (← Grammar.next)) c.tokens := by
  obtain ⟨t, us, hts, -, hrejects⟩ := rejectsItem_readValue c hconstant hdepth
  rw [hts]
  exact (reads_next t).rejects (hrejects.bind _)

/-- A constant that is not nested too deeply can be read in the place of another one. -/
theorem isPlace_default (hmark : mark.token = .punct .equals)
    (hold : old.map Lexeme.token = [.number n]) (hnew : new.map Lexeme.token = c.tokens)
    (hconstant : c.IsConstant) :
    IsPlace ⟨mark, old ++ post, new ++ post⟩ (c.depth ≤ nestingLimit)
      (.default (.number n) c) := by
  have he : IsMark ⟨mark, old ++ post, new ++ post⟩ := isMark_default hmark hold
  refine { toIsMark := he, type := ?_, default? := ?_ }
  · refine crosses_expect_bind (fun h => ?_) (stops_readType he _).crosses
    rw [show mark.token = .punct .colon from h] at hmark
    cases hmark
  · refine crosses_readDefault he fun _ a rest hrun => ?_
    have hnumber := reads_valueOfDefault (c := .number n) trivial (Nat.zero_le nestingLimit)
    cases (hnumber old post hold trivial).symm.trans hrun
    by_cases hdepth : c.depth ≤ nestingLimit
    · rw [reads_valueOfDefault hconstant hdepth new post hnew trivial]
      exact .reads hdepth ⟨_, _, rfl, rfl, rfl⟩
    · rw [rejects_valueOfDefault hconstant (Nat.lt_of_not_le hdepth) new post hnew]
      exact .fails hdepth

end

end Grammar

end SdlSchema.Sdl
