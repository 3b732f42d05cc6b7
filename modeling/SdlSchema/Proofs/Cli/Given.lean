import Mathlib.Data.List.Perm.Basic
import SdlSchema.Cli.Arguments

/-!
# What a command line gives

A command line gives flags, values and a path, one after the other.  Each of
them has a place of its own, which can be filled once, and is refused for no
other reason than that its place is taken or its value makes no sense.  So two
of them can change places (`Given.apply_comm`), and what comes of all does not
depend on their order (`giveAll_perm`).
-/

namespace SdlSchema.Cli

/-- Something that a command line gives. -/
inductive Given where
  | flag (f : Flag)
  | setter (s : Setter) (value : String)
  | path (p : String)
  deriving DecidableEq

/-- What can be given once. -/
inductive Place where
  | flag (f : Flag)
  | setter (s : Setter)
  | path
  deriving DecidableEq

/-- A place with what is to be there. -/
inductive Assignment where
  | flag (f : Flag)
  | config (path : String)
  | output (path : String)
  | level (l : Level)
  | schema (path : String)

namespace Assignment

def place : Assignment → Place
  | flag f => .flag f
  | config _ => .setter .config
  | output _ => .setter .output
  | level _ => .setter .log
  | schema _ => .path

def set (x : Assignment) (a : Arguments) : Arguments :=
  match x with
  | flag .strict => { a with strict := true }
  | flag .relaxed => { a with relaxed := true }
  | flag .compact => { a with compact := true }
  | config path => { a with config? := some path }
  | output path => { a with output? := some path }
  | level l => { a with level? := some l }
  | schema path => { a with schema? := some path }

end Assignment

namespace Given

def place : Given → Place
  | flag f => .flag f
  | setter s _ => .setter s
  | path _ => .path

def apply (g : Given) (a : Arguments) : Except Refusal Arguments :=
  match g with
  | flag f => f.apply a
  | setter s value => s.apply value.toList a
  | path p => a.addPositional p.toList

/-- What is meant, if the value makes sense. -/
def assignment? : Given → Option Assignment
  | flag f => some (.flag f)
  | setter .config value => (path? value.toList).map .config
  | setter .output value => (path? value.toList).map .output
  | setter .log value => (Level.ofName? (String.ofList value.toList)).map .level
  | path p => (path? p.toList).map .schema

theorem place_of_assignment? {g : Given} {x : Assignment} (h : g.assignment? = some x) :
    x.place = g.place := by
  rcases g with f | ⟨_ | _ | _, value⟩ | p
  case flag =>
    cases h
    rfl
  all_goals
    obtain ⟨v, -, rfl⟩ := Option.map_eq_some_iff.1 h
    rfl

end Given

namespace Arguments

/-- The place is taken. -/
def has (a : Arguments) : Place → Bool
  | .flag .strict => a.strict
  | .flag .relaxed => a.relaxed
  | .flag .compact => a.compact
  | .setter .config => a.config?.isSome
  | .setter .output => a.output?.isSome
  | .setter .log => a.level?.isSome
  | .path => a.schema?.isSome

/-- Everything that can be given for these arguments. -/
def givens (a : Arguments) : List Given :=
  (if a.strict then [.flag .strict] else []) ++
    ((if a.relaxed then [.flag .relaxed] else []) ++
      ((if a.compact then [.flag .compact] else []) ++
        ((a.config?.map (Given.setter .config)).toList ++
          ((a.output?.map (Given.setter .output)).toList ++
            ((a.level?.map fun l => Given.setter .log l.name).toList ++
              (a.schema?.map Given.path).toList)))))

end Arguments

/-- Gives one thing after the other. -/
def giveAll (gs : List Given) (a : Arguments) : Except Refusal Arguments :=
  gs.foldlM (fun a g => g.apply a) a

/-! ## One thing after the other -/

section

variable {a b : Arguments} {g : Given} {gs gs' : List Given}

/-- Only the place of the assignment is filled. -/
theorem has_set (x : Assignment) (a : Arguments) (p : Place) :
    (x.set a).has p = (decide (p = x.place) || a.has p) := by
  rcases x with (_ | _ | _) | path | path | l | path <;>
    rcases p with (_ | _ | _) | (_ | _ | _) | _ <;> rfl

theorem set_comm {x y : Assignment} (h : x.place ≠ y.place) (a : Arguments) :
    y.set (x.set a) = x.set (y.set a) := by
  rcases x with (_ | _ | _) | path | path | l | path <;>
    rcases y with (_ | _ | _) | path | path | l | path <;>
      first | rfl | exact absurd rfl h

/-- A place for a value. -/
theorem map_fill {α : Type} (old? value? : Option α) (set : Option α → Arguments)
    {x : α → Assignment} (hset : ∀ v, set (some v) = (x v).set a) :
    (fill old? value?).map set =
      if old?.isSome = true then .error .usage
      else match value?.map x with
        | none => .error .usage
        | some x => .ok (x.set a) := by
  cases old? with
  | some v => rfl
  | none =>
    cases value? with
    | none => rfl
    | some v => exact congrArg Except.ok (hset v)

/-- What is given is refused if its place is taken or its value makes no sense. -/
theorem Given.apply_eq (g : Given) (a : Arguments) :
    g.apply a =
      if a.has g.place = true then .error .usage
      else match g.assignment? with
        | none => .error .usage
        | some x => .ok (x.set a) := by
  rcases g with (_ | _ | _) | ⟨_ | _ | _, value⟩ | p
  case flag.strict => rfl
  case flag.relaxed => rfl
  case flag.compact => rfl
  case setter.config => exact map_fill _ _ _ fun _ => rfl
  case setter.output => exact map_fill _ _ _ fun _ => rfl
  case setter.log => exact map_fill _ _ _ fun _ => rfl
  case path => exact map_fill _ _ _ fun _ => rfl

theorem Given.apply_of_has (h : a.has g.place = true) : g.apply a = .error .usage := by
  rw [Given.apply_eq, if_pos h]

theorem Given.apply_of_assignment? {x : Assignment} (hx : g.assignment? = some x)
    (h : a.has g.place = false) : g.apply a = .ok (x.set a) := by
  rw [Given.apply_eq, if_neg (ne_true_of_eq_false h), hx]

/-- What is given is refused, or else takes its place. -/
theorem Given.apply_cases (g : Given) (a : Arguments) :
    g.apply a = .error .usage ∨
      ∃ x : Assignment, x.place = g.place ∧ a.has g.place = false ∧ g.apply a = .ok (x.set a) ∧
        ∀ b : Arguments, b.has g.place = false → g.apply b = .ok (x.set b) := by
  cases hx : g.assignment? with
  | none =>
    refine Or.inl ?_
    rw [Given.apply_eq, hx]
    exact ite_self _
  | some x =>
    cases ha : a.has g.place with
    | true => exact Or.inl (Given.apply_of_has ha)
    | false =>
      exact Or.inr ⟨x, Given.place_of_assignment? hx, rfl, Given.apply_of_assignment? hx ha,
        fun b => Given.apply_of_assignment? hx⟩

theorem has_of_set {x : Assignment} {p : Place} (h : (x.set a).has p = false) :
    p ≠ x.place ∧ a.has p = false := by
  rw [has_set, Bool.or_eq_false_iff, decide_eq_false_iff_not] at h
  exact h

/-- What is refused is also refused after something else. -/
theorem Given.bind_of_refused (hg : g.apply a = .error .usage) (g' : Given) :
    (g'.apply a >>= fun b => g.apply b) = .error .usage := by
  obtain hg' | ⟨x, -, -, hok, -⟩ := Given.apply_cases g' a
  · rw [hg']
    rfl
  · rw [hok]
    change g.apply (x.set a) = .error .usage
    obtain h | ⟨y, -, hfree, -, hy⟩ := Given.apply_cases g (x.set a)
    · exact h
    · rw [hy a (has_of_set hfree).2] at hg
      cases hg

/-- Two things that are given can change places. -/
theorem Given.apply_comm (g g' : Given) (a : Arguments) :
    (g.apply a >>= fun b => g'.apply b) = (g'.apply a >>= fun b => g.apply b) := by
  obtain hg | ⟨x, hx, hfree, hok, hg⟩ := Given.apply_cases g a
  · rw [Given.bind_of_refused hg, hg]
    rfl
  obtain hg' | ⟨y, hy, hfree', hok', hg'⟩ := Given.apply_cases g' a
  · rw [Given.bind_of_refused hg', hg']
    rfl
  rw [hok, hok']
  change g'.apply (x.set a) = g.apply (y.set a)
  by_cases hplace : g.place = g'.place
  · -- The first of them takes the place of both.
    rw [Given.apply_of_has (by rw [has_set, hx, hplace, decide_eq_true rfl, Bool.true_or]),
      Given.apply_of_has (by rw [has_set, hy, hplace, decide_eq_true rfl, Bool.true_or])]
  · rw [hg' _ (by rw [has_set, hx, hfree', decide_eq_false (Ne.symm hplace)]; rfl),
      hg _ (by rw [has_set, hy, hfree, decide_eq_false hplace]; rfl),
      set_comm (by rwa [hx, hy])]

/-! ## All -/

theorem giveAll_cons (g : Given) (gs : List Given) (a : Arguments) :
    giveAll (g :: gs) a = g.apply a >>= giveAll gs :=
  List.foldlM_cons ..

theorem giveAll_singleton (g : Given) (a : Arguments) : giveAll [g] a = g.apply a :=
  (giveAll_cons g [] a).trans (bind_pure _)

theorem giveAll_append (gs gs' : List Given) (a : Arguments) :
    giveAll (gs ++ gs') a = giveAll gs a >>= giveAll gs' :=
  List.foldlM_append ..

theorem giveAll_append_of_ok (h : giveAll gs a = .ok b) :
    giveAll (gs ++ gs') a = giveAll gs' b := by
  rw [giveAll_append, h]
  rfl

/-- The order does not matter. -/
theorem giveAll_perm (h : gs.Perm gs') : ∀ a, giveAll gs a = giveAll gs' a := by
  induction h with
  | nil => exact fun a => rfl
  | cons g h ih =>
    intro a
    rw [giveAll_cons, giveAll_cons, funext ih]
  | swap g g' gs =>
    intro a
    have htwo (g g' : Given) :
        giveAll (g :: g' :: gs) a = (g.apply a >>= fun b => g'.apply b) >>= giveAll gs := by
      rw [bind_assoc]
      rfl
    rw [htwo, htwo, Given.apply_comm]
  | trans h h' ih ih' => exact fun a => (ih a).trans (ih' a)

theorem error_of_giveAll {r : Refusal} (h : giveAll gs a = .error r) : r = .usage := by
  induction gs generalizing a with
  | nil => cases h
  | cons g gs ih =>
    rw [giveAll_cons] at h
    obtain hg | ⟨x, -, -, hok, -⟩ := Given.apply_cases g a
    · rw [hg] at h
      cases h
      rfl
    · rw [hok] at h
      exact ih h

/-- A place stays taken. -/
theorem has_of_giveAll {p : Place} (h : giveAll gs a = .ok b) (hp : a.has p = true) :
    b.has p = true := by
  induction gs generalizing a with
  | nil =>
    cases h
    exact hp
  | cons g gs ih =>
    rw [giveAll_cons] at h
    obtain hg | ⟨x, -, -, hok, -⟩ := Given.apply_cases g a
    · rw [hg] at h
      cases h
    · rw [hok] at h
      exact ih h (by rw [has_set, hp, Bool.or_true])

/-- What is given finds its place free and takes it. -/
theorem places_of_giveAll (h : giveAll gs a = .ok b) (hg : g ∈ gs) :
    a.has g.place = false ∧ b.has g.place = true := by
  induction gs generalizing a with
  | nil => cases hg
  | cons g' gs ih =>
    rw [giveAll_cons] at h
    obtain hg' | ⟨x, hx, hfree, hok, -⟩ := Given.apply_cases g' a
    · rw [hg'] at h
      cases h
    rw [hok] at h
    rcases List.mem_cons.1 hg with rfl | hmem
    · exact ⟨hfree, has_of_giveAll h (by rw [has_set, hx, decide_eq_true rfl, Bool.true_or])⟩
    · obtain ⟨hfree', htaken⟩ := ih h hmem
      exact ⟨(has_of_set hfree').2, htaken⟩

end

/-! ## Arguments -/

namespace Arguments

/-- What cannot be given for these arguments as well: something for a place that is taken, or the
other mode. -/
def Excludes (a : Arguments) (g : Given) : Prop :=
  a.has g.place = true ∨ (g = .flag .strict ∧ a.relaxed = true) ∨
    (g = .flag .relaxed ∧ a.strict = true)

theorem path?_toList {v : String} (h : v ≠ "") : path? v.toList = some v := by
  rw [path?, if_neg, String.ofList_toList]
  rwa [List.isEmpty_iff, String.toList_eq_nil_iff]

/-- A value that may be missing. -/
theorem giveAll_option {α : Type} {v? : Option α} {g : α → Given} {x : α → Assignment}
    (set : Option α → Arguments) (hx : ∀ v, v? = some v → (g v).assignment? = some (x v))
    (hfree : ∀ v, (set none).has (g v).place = false)
    (hset : ∀ v, (x v).set (set none) = set (some v)) :
    giveAll (v?.map g).toList (set none) = .ok (set v?) := by
  cases v? with
  | none => rfl
  | some v =>
    change (g v).apply (set none) >>= giveAll [] = _
    rw [Given.apply_of_assignment? (hx v rfl) (hfree v), hset]
    rfl

/-- What can be given for arguments makes up the arguments. -/
theorem giveAll_givens (a : Arguments) (hconfig : a.config? ≠ some "")
    (houtput : a.output? ≠ some "") (hschema : a.schema? ≠ some "") :
    giveAll a.givens {} = .ok a := by
  have strict : giveAll (if a.strict then [.flag .strict] else []) {} =
      .ok { strict := a.strict } := by
    cases a.strict <;> rfl
  have relaxed : giveAll (if a.relaxed then [.flag .relaxed] else []) { strict := a.strict } =
      .ok { strict := a.strict, relaxed := a.relaxed } := by
    cases a.relaxed <;> rfl
  have compact : giveAll (if a.compact then [.flag .compact] else [])
      { strict := a.strict, relaxed := a.relaxed } =
        .ok { strict := a.strict, relaxed := a.relaxed, compact := a.compact } := by
    cases a.compact <;> rfl
  have hpath {v? : Option String} (h : v? ≠ some "") (x : String → Assignment) (v : String)
      (hv : v? = some v) : (path? v.toList).map x = some (x v) := by
    rw [path?_toList fun hempty => h (hempty ▸ hv)]
    rfl
  have config := giveAll_option (g := .setter .config)
    (fun v? => { a with config? := v?, output? := none, level? := none, schema? := none })
    (hpath hconfig .config) (fun _ => rfl) fun _ => rfl
  have output := giveAll_option (g := .setter .output)
    (fun v? => { a with output? := v?, level? := none, schema? := none })
    (hpath houtput .output) (fun _ => rfl) fun _ => rfl
  have hlevel (l : Level) (_ : a.level? = some l) :
      (Given.setter .log l.name).assignment? = some (.level l) := by
    rw [Given.assignment?, String.ofList_toList, Level.ofName?_name]
    rfl
  have level := giveAll_option (fun v? => { a with level? := v?, schema? := none }) hlevel
    (fun _ => rfl) fun _ => rfl
  have schema := giveAll_option (g := .path) (fun v? => { a with schema? := v? })
    (hpath hschema .schema) (fun _ => rfl) fun _ => rfl
  rw [givens, giveAll_append_of_ok strict, giveAll_append_of_ok relaxed,
    giveAll_append_of_ok compact, giveAll_append_of_ok config, giveAll_append_of_ok output,
    giveAll_append_of_ok level, schema]

/-- The two modes exclude each other. -/
def checkModes (a : Arguments) : Except Refusal Arguments :=
  if a.strict && a.relaxed then .error .usage else .ok a

theorem read_eq (args : List String) :
    read args = readArguments none (args.map String.toList) {} >>= checkModes :=
  rfl

theorem checkModes_of_excludes {a b : Arguments} {gs : List Given} {g : Given}
    (h : giveAll gs a = .ok b) (hg : g ∈ gs) (hexcludes : a.Excludes g) :
    b.checkModes = .error .usage := by
  obtain ⟨hfree, htaken⟩ := places_of_giveAll h hg
  rcases hexcludes with hplace | ⟨rfl, hmode⟩ | ⟨rfl, hmode⟩
  · rw [hplace] at hfree
    cases hfree
  · have hstrict : b.strict = true := htaken
    have hrelaxed : b.relaxed = true := has_of_giveAll (p := .flag .relaxed) h hmode
    rw [checkModes, hstrict, hrelaxed]
    rfl
  · have hrelaxed : b.relaxed = true := htaken
    have hstrict : b.strict = true := has_of_giveAll (p := .flag .strict) h hmode
    rw [checkModes, hstrict, hrelaxed]
    rfl

end Arguments

end SdlSchema.Cli
