import SdlSchema.Binary64.Shortest

/-!
# JSON values

The members of an object stand in a list, so a value fixes their order and
could repeat a key.  A `Json.Canonical` value has strictly increasing keys in
every object; the constructors of `CanonicalJson` build such values, sorting
members by code points and letting the last of equal keys win.
-/

namespace SdlSchema

/-- JSON keeps integers apart from floating point numbers. -/
inductive Number where
  | int (n : Int)
  | float (x : Binary64)
  deriving DecidableEq

/-- A JSON value, with the order of its members. -/
inductive Json where
  | null
  | bool (b : Bool)
  | number (n : Number)
  | string (s : String)
  | array (elements : List Json)
  | object (members : List (String × Json))

namespace Json

instance : Inhabited Json := ⟨null⟩

/-- The value of the first member with the given key. -/
def get? (key : String) : Json → Option Json
  | object members => (members.find? fun m => m.1 = key).map Prod.snd
  | _ => none

mutual

/-- In every object, at every depth, the keys increase strictly. -/
def Canonical : Json → Prop
  | array elements => CanonicalElements elements
  | object members => (members.map Prod.fst).Pairwise (· < ·) ∧ CanonicalMembers members
  | _ => True

def CanonicalElements : List Json → Prop
  | [] => True
  | e :: es => Canonical e ∧ CanonicalElements es

def CanonicalMembers : List (String × Json) → Prop
  | [] => True
  | (_, v) :: ms => Canonical v ∧ CanonicalMembers ms

end

/-! ## Sorted members -/

/-- Puts a member in its place among sorted ones, over one with the same key. -/
def putSorted (key : String) (value : Json) : List (String × Json) → List (String × Json)
  | [] => [(key, value)]
  | m :: ms =>
    if key < m.1 then (key, value) :: m :: ms
    else if m.1 = key then (key, value) :: ms
    else m :: putSorted key value ms

theorem mem_keys_putSorted {key k : String} {value : Json} {ms : List (String × Json)}
    (h : k ∈ (putSorted key value ms).map Prod.fst) : k = key ∨ k ∈ ms.map Prod.fst := by
  induction ms with
  | nil => simpa [putSorted] using h
  | cons m ms ih =>
    simp only [putSorted] at h
    split at h
    · simpa using h
    · split at h
      · simp only [List.map_cons, List.mem_cons] at h ⊢
        exact h.imp_right Or.inr
      · simp only [List.map_cons, List.mem_cons] at h ⊢
        rcases h with h | h
        · exact Or.inr (Or.inl h)
        · exact (ih h).imp_right Or.inr

theorem pairwise_putSorted (key : String) (value : Json) {ms : List (String × Json)}
    (h : (ms.map Prod.fst).Pairwise (· < ·)) :
    ((putSorted key value ms).map Prod.fst).Pairwise (· < ·) := by
  induction ms with
  | nil => simp [putSorted]
  | cons m ms ih =>
    simp only [List.map_cons, List.pairwise_cons] at h
    simp only [putSorted]
    split
    · next hlt =>
      simp only [List.map_cons, List.pairwise_cons, List.mem_cons]
      refine ⟨?_, h⟩
      rintro k (rfl | hk)
      · exact hlt
      · exact String.lt_trans hlt (h.1 k hk)
    · next hge =>
      split
      · next heq =>
        simp only [List.map_cons, List.pairwise_cons, ← heq]
        exact h
      · next hne =>
        simp only [List.map_cons, List.pairwise_cons]
        refine ⟨?_, ih h.2⟩
        intro k hk
        rcases mem_keys_putSorted hk with rfl | hk
        · refine Decidable.byContradiction fun hnot => hne ?_
          exact String.le_antisymm (String.not_lt.1 hge) (String.not_lt.1 hnot)
        · exact h.1 k hk

theorem canonicalMembers_putSorted (key : String) {value : Json} (hv : value.Canonical)
    {ms : List (String × Json)} (h : CanonicalMembers ms) :
    CanonicalMembers (putSorted key value ms) := by
  induction ms with
  | nil => exact ⟨hv, h⟩
  | cons m ms ih =>
    obtain ⟨k, v⟩ := m
    simp only [putSorted]
    split
    · exact ⟨hv, h⟩
    · split
      · exact ⟨hv, h.2⟩
      · exact ⟨h.1, ih h.2⟩

end Json

/-! ## Canonical values -/

/-- A value in which every object is sorted and repeats no key. -/
structure CanonicalJson where
  json : Json
  canonical : json.Canonical

namespace CanonicalJson

def null : CanonicalJson := ⟨.null, trivial⟩

def bool (b : Bool) : CanonicalJson := ⟨.bool b, trivial⟩

def number (n : Number) : CanonicalJson := ⟨.number n, trivial⟩

def string (s : String) : CanonicalJson := ⟨.string s, trivial⟩

theorem canonicalElements_map_json (vs : List CanonicalJson) :
    Json.CanonicalElements (vs.map json) := by
  induction vs with
  | nil => trivial
  | cons v vs ih => exact ⟨v.canonical, ih⟩

def array (elements : List CanonicalJson) : CanonicalJson :=
  ⟨.array (elements.map json), canonicalElements_map_json elements⟩

/-- The members of an object, inserted from left to right. -/
def sortMembers (fields : List (String × CanonicalJson)) : List (String × Json) :=
  fields.foldl (fun ms f => Json.putSorted f.1 f.2.json ms) []

theorem canonical_sortMembers (fields : List (String × CanonicalJson)) :
    (Json.object (sortMembers fields)).Canonical := by
  suffices h : ∀ ms : List (String × Json), (Json.object ms).Canonical →
      (Json.object (fields.foldl (fun ms f => Json.putSorted f.1 f.2.json ms) ms)).Canonical from
    h [] ⟨List.Pairwise.nil, trivial⟩
  induction fields with
  | nil => exact fun _ h => h
  | cons f fields ih =>
    intro ms h
    exact ih _ ⟨Json.pairwise_putSorted _ _ h.1,
      Json.canonicalMembers_putSorted _ f.2.canonical h.2⟩

def object (fields : List (String × CanonicalJson)) : CanonicalJson :=
  ⟨.object (sortMembers fields), canonical_sortMembers fields⟩

mutual

/-- The same value with the members of every object sorted. -/
def ofJson : Json → CanonicalJson
  | .null => null
  | .bool b => bool b
  | .number n => number n
  | .string s => string s
  | .array es => array (ofElements es)
  | .object ms => object (ofMembers ms)

def ofElements : List Json → List CanonicalJson
  | [] => []
  | e :: es => ofJson e :: ofElements es

def ofMembers : List (String × Json) → List (String × CanonicalJson)
  | [] => []
  | (k, v) :: ms => (k, ofJson v) :: ofMembers ms

end

end CanonicalJson

end SdlSchema
