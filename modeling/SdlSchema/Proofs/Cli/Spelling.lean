import SdlSchema.Cli.FileTree
import SdlSchema.Cli.Run
import SdlSchema.Proofs.Cli.Given

/-!
# The spelling of a command line

What a command line gives it can spell in several ways: an option has a long
name and mostly a letter, letters stand together in a bundle, and a value is
the next argument or follows its option.  The pieces are in any order; only
paths can follow after two hyphens.

All spellings are read as the same (`readArguments_of_spells`): a piece gives
what it spells, whatever stands before it, and leaves nothing to be remembered.
-/

namespace SdlSchema.Cli

/-! ## Pieces -/

namespace Flag

def name : Flag → List Char
  | strict => "strict".toList
  | relaxed => "relaxed".toList
  | compact => "compact".toList

def letter? : Flag → Option Char
  | strict => some 's'
  | relaxed => some 'r'
  | compact => none

end Flag

namespace Setter

def name : Setter → List Char
  | config => "config".toList
  | output => "output".toList
  | log => "log".toList

def letter : Setter → Char
  | config => 'c'
  | output => 'o'
  | log => 'l'

end Setter

/-- The value can stand right behind its option and also on its own. -/
def IsValue (value : List Char) : Prop := ∃ c cs, value = c :: cs ∧ c ≠ '-' ∧ c ≠ '='

/-- A path, which begins with a hyphen only if it is one. -/
def IsPath (path : List Char) : Prop := path = ['-'] ∨ ∃ c cs, path = c :: cs ∧ c ≠ '-'

def Given.IsSpellable : Given → Prop
  | flag _ => True
  | setter _ value => IsValue value.toList
  | path p => IsPath p.toList

/-- Flags and their letters. -/
inductive Letters : List Flag → List Char → Prop
  | nil : Letters [] []
  | cons {f : Flag} {fs : List Flag} {c : Char} {cs : List Char} (hc : f.letter? = some c)
      (hcs : Letters fs cs) : Letters (f :: fs) (c :: cs)

/-- The arguments of a piece, with what it gives. -/
inductive Piece : List Given → List (List Char) → Prop
  | name (f : Flag) : Piece [.flag f] ['-' :: '-' :: f.name]
  | nameApart (s : Setter) (value : String) :
      Piece [.setter s value] ['-' :: '-' :: s.name, value.toList]
  | nameEquals (s : Setter) (value : String) :
      Piece [.setter s value] ['-' :: '-' :: (s.name ++ '=' :: value.toList)]
  | letters {fs : List Flag} {cs : List Char} (h : Letters fs cs) (hne : fs ≠ []) :
      Piece (fs.map .flag) ['-' :: cs]
  | lettersApart {fs : List Flag} {cs : List Char} (h : Letters fs cs) (s : Setter)
      (value : String) :
      Piece (fs.map .flag ++ [.setter s value]) ['-' :: (cs ++ [s.letter]), value.toList]
  | lettersJoined {fs : List Flag} {cs : List Char} (h : Letters fs cs) (s : Setter)
      (value : String) :
      Piece (fs.map .flag ++ [.setter s value]) ['-' :: (cs ++ s.letter :: value.toList)]
  | lettersEquals {fs : List Flag} {cs : List Char} (h : Letters fs cs) (s : Setter)
      (value : String) :
      Piece (fs.map .flag ++ [.setter s value]) ['-' :: (cs ++ s.letter :: '=' :: value.toList)]
  | path (p : String) : Piece [.path p] [p.toList]

/-- Arguments, with what they give one after the other. -/
inductive Spells : List Given → List (List Char) → Prop
  | nil : Spells [] []
  | cons {gs gs' : List Given} {args args' : List (List Char)} (hpiece : Piece gs args)
      (hrest : Spells gs' args') : Spells (gs ++ gs') (args ++ args')
  | paths (ps : List String) : Spells (ps.map .path) (['-', '-'] :: ps.map String.toList)

/-- The command line spells what is given, in some order. -/
def Spelled (gs : List Given) (args : List String) : Prop :=
  ∃ gs', Spells gs' (args.map String.toList) ∧ gs'.Perm gs

/-! ## Reading a piece -/

namespace Arguments

variable {c : Char} {cs text value path : List Char} {args : List (List Char)} {a : Arguments}
  {gs : List Given} {fs : List Flag}

/-- How the rest is read behind an argument. -/
def goOn (args : List (List Char)) (r : Arguments × Pending) : Except Refusal Arguments :=
  readArguments r.2 args r.1

theorem bind_goOn (x : Except Refusal Arguments) (args : List (List Char)) :
    (x >>= fun b => pure (b, none)) >>= goOn args = x >>= readArguments none args := by
  rw [bind_assoc]
  rfl

theorem readArguments_long (htext : text ≠ []) :
    readArguments none (('-' :: '-' :: text) :: args) a = readLong text a >>= goOn args := by
  cases text with
  | nil => exact absurd rfl htext
  | cons c cs => rfl

theorem readArguments_short (hc : c ≠ '-') :
    readArguments none (('-' :: c :: cs) :: args) a = readLetters (c :: cs) a >>= goOn args := by
  rw [readArguments]
  · rfl
  · exact fun h _ => hc h
  · exact hc

theorem readArguments_path (h : IsPath path) :
    readArguments none (path :: args) a = a.addPositional path >>= readArguments none args := by
  rcases h with rfl | ⟨c, cs, rfl, hc⟩
  · rfl
  · rw [readArguments]
    · intro h
      exact hc (List.cons.inj h).1
    · intro text h
      exact hc (List.cons.inj h).1
    · intro c' cs' h
      exact hc (List.cons.inj h).1

theorem looksLikeOption_of_isValue (h : IsValue value) : looksLikeOption value = false := by
  obtain ⟨c, cs, rfl, hc, -⟩ := h
  rw [looksLikeOption]
  intro c' cs' h
  exact hc (List.cons.inj h).1

theorem readArguments_value (s : Setter) (h : IsValue value) :
    readArguments (some s) (value :: args) a = s.apply value a >>= readArguments none args := by
  rw [readArguments, looksLikeOption_of_isValue h]
  rfl

/-! ### Names -/

theorem flag_name_ne_nil (f : Flag) : f.name ≠ [] := by
  cases f <;> decide

theorem setter_name_ne_nil (s : Setter) : s.name ≠ [] := by
  cases s <;> decide

theorem readLong_flag (f : Flag) (a : Arguments) :
    readLong f.name a = f.apply a >>= fun b => pure (b, none) := by
  cases f <;> rfl

theorem readLong_setter (s : Setter) (a : Arguments) : readLong s.name a = .ok (a, some s) := by
  cases s <;> rfl

theorem readLong_equals (s : Setter) (value : List Char) (a : Arguments) :
    readLong (s.name ++ '=' :: value) a = s.apply value a >>= fun b => pure (b, none) := by
  cases s <;> rfl

/-! ### Letters -/

theorem ofLetter?_flag {f : Flag} (h : f.letter? = some c) :
    Choice.ofLetter? c = some (.flag f) := by
  cases f <;> cases h <;> rfl

theorem ofLetter?_setter (s : Setter) : Choice.ofLetter? s.letter = some (.setter s) := by
  cases s <;> rfl

theorem letter?_ne_hyphen {f : Flag} (h : f.letter? = some c) : c ≠ '-' := by
  rintro rfl
  cases (ofLetter?_flag h)

theorem letter_ne_hyphen (s : Setter) : s.letter ≠ '-' := by
  cases s <;> decide

/-- Nothing but a letter begins a bundle. -/
theorem exists_cons_of_letters (h : Letters fs cs) (hc : c ≠ '-') (text : List Char) :
    ∃ c' cs', cs ++ c :: text = c' :: cs' ∧ c' ≠ '-' := by
  cases h with
  | nil => exact ⟨c, text, rfl, hc⟩
  | @cons f fs c' cs hc' hcs => exact ⟨c', cs ++ c :: text, rfl, letter?_ne_hyphen hc'⟩

/-- Flags that stand before the rest of a bundle. -/
theorem readLetters_append (h : Letters fs cs) (text : List Char) :
    ∀ a, readLetters (cs ++ text) a = giveAll (fs.map .flag) a >>= readLetters text := by
  induction h with
  | nil => exact fun a => rfl
  | @cons f fs c cs hc hcs ih =>
    intro a
    rw [List.map_cons, giveAll_cons, bind_assoc, ← funext ih, List.cons_append, readLetters,
      ofLetter?_flag hc]
    rfl

theorem readLetters_joined (s : Setter) (h : IsValue value) (a : Arguments) :
    readLetters (s.letter :: value) a = s.apply value a >>= fun b => pure (b, none) := by
  obtain ⟨c, cs, rfl, -, hc⟩ := h
  rw [readLetters, ofLetter?_setter]
  dsimp only
  split
  · next h => cases h
  · next h => exact absurd (List.cons.inj h).1 hc
  · rfl

theorem readLetters_equals (s : Setter) (value : List Char) (a : Arguments) :
    readLetters (s.letter :: '=' :: value) a = s.apply value a >>= fun b => pure (b, none) := by
  rw [readLetters, ofLetter?_setter]
  rfl

theorem readLetters_setter (s : Setter) (a : Arguments) :
    readLetters [s.letter] a = .ok (a, some s) := by
  rw [readLetters, ofLetter?_setter]

/-- A bundle that ends with an option that has a value. -/
theorem readArguments_bundle (h : Letters fs cs) (s : Setter) (text : List Char) :
    readArguments none (('-' :: (cs ++ s.letter :: text)) :: args) a =
      giveAll (fs.map .flag) a >>= fun b => readLetters (s.letter :: text) b >>= goOn args := by
  obtain ⟨c, cs', hcs, hc⟩ := exists_cons_of_letters h (letter_ne_hyphen s) text
  rw [hcs, readArguments_short hc, ← hcs, readLetters_append h, bind_assoc]

/-! ### Pieces and all of them -/

/-- A piece gives what it spells, and then the rest is read. -/
theorem readArguments_piece {piece : List (List Char)} (h : Piece gs piece)
    (hgs : ∀ g ∈ gs, g.IsSpellable) (args : List (List Char)) (a : Arguments) :
    readArguments none (piece ++ args) a = giveAll gs a >>= readArguments none args := by
  have hvalue {gs : List Given} {s : Setter} {value : String}
      (hgs : ∀ g ∈ gs ++ [.setter s value], g.IsSpellable) : IsValue value.toList :=
    hgs _ (List.mem_append_right gs List.mem_cons_self)
  cases h with
  | name f =>
    rw [giveAll_singleton, List.singleton_append, readArguments_long (flag_name_ne_nil f),
      readLong_flag, bind_goOn]
    rfl
  | nameApart s value =>
    rw [giveAll_singleton, List.cons_append, readArguments_long (setter_name_ne_nil s),
      readLong_setter]
    exact readArguments_value s (hgs _ List.mem_cons_self)
  | nameEquals s value =>
    rw [giveAll_singleton, List.singleton_append, readArguments_long, readLong_equals, bind_goOn]
    · rfl
    · exact List.append_ne_nil_of_left_ne_nil (setter_name_ne_nil s) _
  | @letters fs cs h hne =>
    cases h with
    | nil => exact absurd rfl hne
    | @cons f fs c cs hc hcs =>
      rw [List.singleton_append, readArguments_short (letter?_ne_hyphen hc),
        ← List.append_nil (c :: cs), readLetters_append (.cons hc hcs), bind_assoc]
      rfl
  | @lettersApart fs cs h s value =>
    rw [giveAll_append, bind_assoc, List.cons_append, readArguments_bundle h]
    refine bind_congr fun b => ?_
    rw [giveAll_singleton, readLetters_setter]
    exact readArguments_value s (hvalue hgs)
  | @lettersJoined fs cs h s value =>
    rw [giveAll_append, bind_assoc, List.singleton_append, readArguments_bundle h]
    refine bind_congr fun b => ?_
    rw [giveAll_singleton, readLetters_joined s (hvalue hgs), bind_goOn]
    rfl
  | @lettersEquals fs cs h s value =>
    rw [giveAll_append, bind_assoc, List.singleton_append, readArguments_bundle h]
    refine bind_congr fun b => ?_
    rw [giveAll_singleton, readLetters_equals, bind_goOn]
    rfl
  | path p =>
    rw [giveAll_singleton]
    exact readArguments_path (hgs _ List.mem_cons_self)

theorem readPositionals_eq (ps : List String) (a : Arguments) :
    readPositionals (ps.map String.toList) a = giveAll (ps.map .path) a := by
  induction ps generalizing a with
  | nil => rfl
  | cons p ps ih => exact congrArg (a.addPositional p.toList >>= ·) (funext ih)

theorem readArguments_of_spells (h : Spells gs args) (hgs : ∀ g ∈ gs, g.IsSpellable) :
    ∀ a, readArguments none args a = giveAll gs a := by
  induction h with
  | nil => exact fun a => rfl
  | @cons gs gs' args args' hpiece hrest ih =>
    intro a
    rw [List.forall_mem_append] at hgs
    rw [readArguments_piece hpiece hgs.1, giveAll_append, funext (ih hgs.2)]
  | paths ps => exact readPositionals_eq ps

/-! ## Reading a command line -/

/-- Choices that a command line can spell. -/
structure IsChoice (a : Arguments) : Prop where
  modes : ¬ (a.strict = true ∧ a.relaxed = true)
  config : ∀ v ∈ a.config?, IsValue v.toList
  output : ∀ v ∈ a.output?, IsValue v.toList
  schema : ∀ p ∈ a.schema?, IsPath p.toList

theorem isSpellable_if (b : Bool) (f : Flag) :
    ∀ g ∈ (if b then [Given.flag f] else []), g.IsSpellable := by
  cases b with
  | true => exact List.forall_mem_singleton.2 trivial
  | false => exact List.forall_mem_nil _

theorem isSpellable_option {α : Type} {v? : Option α} {f : α → Given}
    (h : ∀ v ∈ v?, (f v).IsSpellable) : ∀ g ∈ (v?.map f).toList, g.IsSpellable := by
  intro g hg
  rw [Option.mem_toList, Option.map_eq_some_iff] at hg
  obtain ⟨v, hv, rfl⟩ := hg
  exact h v hv

theorem isValue_level (l : Level) : IsValue l.name.toList := by
  cases l <;> exact ⟨_, _, rfl, by decide, by decide⟩

theorem IsChoice.isSpellable (h : a.IsChoice) : ∀ g ∈ a.givens, g.IsSpellable := by
  simp only [givens, List.forall_mem_append]
  exact ⟨isSpellable_if _ _, isSpellable_if _ _, isSpellable_if _ _, isSpellable_option h.config,
    isSpellable_option h.output, isSpellable_option fun l _ => isValue_level l,
    isSpellable_option h.schema⟩

theorem not_isValue_nil : ¬ IsValue [] := by
  rintro ⟨c, cs, h, -⟩
  cases h

theorem not_isPath_nil : ¬ IsPath [] := by
  rintro (h | ⟨c, cs, h, -⟩) <;> cases h

theorem IsChoice.giveAll_givens (h : a.IsChoice) : giveAll a.givens {} = .ok a :=
  Arguments.giveAll_givens a (fun hv => not_isValue_nil (h.config "" hv))
    (fun hv => not_isValue_nil (h.output "" hv)) fun hp => not_isPath_nil (h.schema "" hp)

theorem IsChoice.checkModes_eq (h : a.IsChoice) : a.checkModes = .ok a := by
  rw [checkModes, if_neg]
  rw [Bool.and_eq_true]
  exact h.modes

section

variable {gs extra : List Given} {args : List String}

/-- A command line is read by what it gives. -/
theorem read_of_spelled (hgs : ∀ g ∈ gs, g.IsSpellable) (h : Spelled gs args) :
    read args = giveAll gs {} >>= checkModes := by
  obtain ⟨gs', hspells, hperm⟩ := h
  have hgs' : ∀ g ∈ gs', g.IsSpellable := fun g hg => hgs g (hperm.mem_iff.1 hg)
  rw [read_eq, readArguments_of_spells hspells hgs', giveAll_perm hperm]

theorem IsChoice.read_eq_ok (h : a.IsChoice) (hargs : Spelled a.givens args) :
    read args = .ok a := by
  rw [read_of_spelled h.isSpellable hargs, h.giveAll_givens]
  exact h.checkModes_eq

/-- Something that the choices exclude is refused, wherever it is given. -/
theorem IsChoice.read_eq_error (h : a.IsChoice) (hextra : ∀ g ∈ extra, g.IsSpellable)
    (hargs : Spelled (extra ++ a.givens) args) {g : Given} (hg : g ∈ extra)
    (hexcludes : a.Excludes g) : read args = .error .usage := by
  have hgs : ∀ g ∈ extra ++ a.givens, g.IsSpellable :=
    List.forall_mem_append.2 ⟨hextra, h.isSpellable⟩
  rw [read_of_spelled hgs hargs, giveAll_perm List.perm_append_comm,
    giveAll_append_of_ok h.giveAll_givens]
  cases hb : giveAll extra a with
  | error r => exact congrArg Except.error (error_of_giveAll hb)
  | ok b => exact checkModes_of_excludes hb hg hexcludes

end

end Arguments

/-! ## Runs -/

/-- All spellings of the same choices, in any order, are understood and lead to the same run on
every host.  A command line that also gives what these exclude, at any place, is refused. -/
theorem run_spelling (a : Arguments) (h : a.IsChoice) :
    (∀ args, Spelled a.givens args → Arguments.read args = .ok a) ∧
    (∀ args args', Spelled a.givens args → Spelled a.givens args' →
      ∀ {m : Type → Type} [Monad m] (host : Host m) (env : Environment),
        run host args env = run host args' env) ∧
    ∀ extra args, (∀ g ∈ extra, g.IsSpellable) → (∃ g ∈ extra, a.Excludes g) →
      Spelled (extra ++ a.givens) args →
        ∀ {m : Type → Type} [Monad m] (host : Host m) (env : Environment),
          ∃ o : Outcome, run host args env = pure o ∧ o.exit.code = 2 := by
  refine ⟨fun args hargs => h.read_eq_ok hargs, ?_, ?_⟩
  · intro args args' hargs hargs' m _ host env
    unfold run
    rw [h.read_eq_ok hargs, h.read_eq_ok hargs']
  · rintro extra args hextra ⟨g, hg, hexcludes⟩ hargs m _ host env
    refine ⟨⟨.refusal .usage, "", .stderr, []⟩, ?_, rfl⟩
    unfold run
    rw [h.read_eq_error hextra hargs hg hexcludes]

/-- Bundles, an equals sign and a path after two hyphens, in two orders, and a second mode in a
bundle. -/
theorem run_spelling_of_bundles :
    let a : Arguments :=
      { schema? := some "-", strict := true, output? := some "out.json", level? := some .debug }
    let args := ["-sl=debug", "-", "--output", "out.json"]
    let args' := ["-oout.json", "-sldebug", "--", "-"]
    let args'' := ["-rso=out.json", "-", "--log=debug"]
    a.IsChoice ∧ Arguments.read args = .ok a ∧ Arguments.read args' = .ok a ∧
      ∃ o : Outcome, run (FileTree.host .empty) args'' [] = pure o ∧ o.exit.code = 2 := by
  intro a args args' args''
  have ha : a.IsChoice :=
    { modes := by decide
      config := nofun
      output := by
        rintro v ⟨⟩
        exact ⟨_, _, rfl, by decide, by decide⟩
      schema := by
        rintro p ⟨⟩
        exact Or.inl rfl }
  have hflag : Letters [.strict] ['s'] := .cons rfl .nil
  have hargs : Spelled a.givens args := by
    refine ⟨[.flag .strict, .setter .log "debug", .path "-", .setter .output "out.json"], ?_, ?_⟩
    · exact .cons (.lettersEquals hflag .log "debug") (.cons (.path "-")
        (.cons (.nameApart .output "out.json") .nil))
    · decide
  have hargs' : Spelled a.givens args' := by
    refine ⟨[.setter .output "out.json", .flag .strict, .setter .log "debug", .path "-"], ?_, ?_⟩
    · exact .cons (.lettersJoined .nil .output "out.json")
        (.cons (.lettersJoined hflag .log "debug") (.paths ["-"]))
    · decide
  have hargs'' : Spelled ([.flag .relaxed] ++ a.givens) args'' := by
    refine ⟨[.flag .relaxed, .flag .strict, .setter .output "out.json", .path "-",
      .setter .log "debug"], ?_, ?_⟩
    · exact .cons (.lettersEquals (.cons rfl hflag) .output "out.json") (.cons (.path "-")
        (.cons (.nameEquals .log "debug") .nil))
    · decide
  obtain ⟨hread, -, hrefused⟩ := run_spelling a ha
  refine ⟨ha, hread args hargs, hread args' hargs', ?_⟩
  have hexcludes : a.Excludes (.flag .relaxed) := Or.inr (Or.inr ⟨rfl, rfl⟩)
  exact hrefused [.flag .relaxed] args'' (List.forall_mem_singleton.2 trivial)
    ⟨_, List.mem_singleton_self _, hexcludes⟩ hargs'' _ _

end SdlSchema.Cli
