import SdlSchema.Cli.Environment

/-!
# Settings by their paths

A tree of settings is what it has under each path of keys.  The merge of two
trees has under a path what the first one has there, and else what the second
one has; only where both have mappings do both count, and where the first one
has anything else on the way, the second one does not (`at?_merge`).

The variables of an environment are merged one by one.  So what they give under
a path depends only on those variables whose keys lead to it or along it
(`exists_settings?_filter`).
-/

namespace SdlSchema.Cli

namespace Setting

/-! ## Paths -/

/-- What is under a path of keys. -/
def at? : List String → Setting → Option Setting
  | [], s => some s
  | k :: ks, s => (s.get? k).bind (at? ks)

/-- Something that is no mapping stands in the way of a path. -/
def blocks : List String → Setting → Bool
  | [], _ => false
  | k :: ks, map entries => (find? k entries).any (blocks ks)
  | _ :: _, _ => true

/-- The first value, or else the second one; two mappings are merged. -/
def overlay : Option Setting → Option Setting → Option Setting
  | some (map as), some (map bs) => some ((map as).merge (map bs))
  | some a, _ => some a
  | none, b? => b?

theorem overlay_some (a b : Setting) : overlay (some a) (some b) = some (a.merge b) := by
  cases a <;> cases b <;> simp [overlay, merge]

theorem overlay_none (a? : Option Setting) : overlay a? none = a? := by
  cases a? with
  | none => rfl
  | some a => cases a <;> rfl

theorem at?_of_blocks {ks : List String} {s : Setting} (h : s.blocks ks = true) :
    s.at? ks = none := by
  induction ks generalizing s with
  | nil => cases h
  | cons k ks ih =>
    cases s with
    | map entries =>
      simp only [blocks] at h
      simp only [at?, get?]
      cases hk : find? k entries with
      | none => rfl
      | some v =>
        rw [hk] at h
        exact ih h
    | _ => rfl

/-! ## Merges -/

theorem find?_cons (k : String) (e : String × Setting) (es : List (String × Setting)) :
    find? k (e :: es) = if e.1 = k then some e.2 else find? k es := by
  unfold find?
  by_cases h : e.1 = k <;> simp [h]

theorem find?_without {k k' : String} (h : k ≠ k') (es : List (String × Setting)) :
    find? k' (without k es) = find? k' es := by
  induction es with
  | nil => rfl
  | cons e es ih =>
    unfold without at ih ⊢
    rw [List.filter_cons, find?_cons, ← ih]
    by_cases hk : e.1 = k
    · have hk' : e.1 ≠ k' := fun he => h (hk ▸ he)
      simp [hk, h]
    · simp [hk, find?_cons]

theorem find?_mergeEntries (k : String) (as bs : List (String × Setting)) :
    find? k (mergeEntries as bs) = overlay (find? k as) (find? k bs) := by
  induction as generalizing bs with
  | nil => simp [mergeEntries, find?, overlay]
  | cons e as ih =>
    obtain ⟨k', a⟩ := e
    rw [mergeEntries, find?_cons]
    by_cases h : k' = k
    · subst h
      cases find? k' bs with
      | none => simp [find?_cons, overlay_none]
      | some b => simp [find?_cons, overlay_some]
    · cases find? k' bs with
      | none => simp [find?_cons, h, ih]
      | some b => simp [find?_cons, h, ih, find?_without h]

theorem get?_merge {as : List (String × Setting)} (k : String) (b : Setting) :
    ((map as).merge b).get? k = overlay (find? k as) (b.get? k) := by
  cases b with
  | map bs => simp [merge, get?, find?_mergeEntries]
  | _ => simp [merge, get?, overlay_none]

/-- The merge of two trees, path by path. -/
theorem at?_merge (ks : List String) (a b : Setting) :
    (a.merge b).at? ks = if a.blocks ks then none else overlay (a.at? ks) (b.at? ks) := by
  induction ks generalizing a b with
  | nil => exact (overlay_some a b).symm
  | cons k ks ih =>
    cases a with
    | map as =>
      change (((map as).merge b).get? k).bind (at? ks) =
        if (find? k as).any (blocks ks) then none
        else overlay ((find? k as).bind (at? ks)) ((b.get? k).bind (at? ks))
      rw [get?_merge]
      cases find? k as with
      | none => simp [overlay]
      | some v =>
        cases b.get? k with
        | none =>
          rw [overlay_none]
          simp only [Option.bind_some, Option.bind_none, Option.any_some, overlay_none]
          split
          · next h => exact at?_of_blocks h
          · rfl
        | some w =>
          rw [overlay_some]
          exact ih v w
    | _ => cases b <;> rfl

/-- A path that neither leads to the keys nor along them. -/
theorem at?_nest {ks p : List String} (h : ks.isPrefixOf p = false) (h' : p.isPrefixOf ks = false)
    (s : Setting) : (nest ks s).at? p = none ∧ (nest ks s).blocks p = false := by
  induction ks generalizing p with
  | nil => simp at h
  | cons k ks ih =>
    cases p with
    | nil => simp at h'
    | cons k' p =>
      simp only [nest, at?, blocks, get?, find?_cons]
      by_cases hk : k = k'
      · subst hk
        simp only [List.isPrefixOf_cons_cons_self] at h h'
        simpa using ih h h'
      · simp [hk, find?]

end Setting

/-! ## Variables -/

namespace Environment

open Setting

/-- The settings with those of one more variable over them. -/
def add (merged : Setting) (v : String × String) : Option Setting :=
  match keys? v.1 with
  | some ks => (readSetting? v.2).map fun s => (nest ks s).merge merged
  | none => some merged

theorem settings?_eq (env : Environment) : env.settings? = env.foldlM add (.map []) := rfl

/-- The keys of the variable lead to the path or along it. -/
def concerns (p : List String) (v : String × String) : Bool :=
  (keys? v.1).any fun ks => ks.isPrefixOf p || p.isPrefixOf ks

theorem splitKeys_ne_nil (cs : List Char) : splitKeys cs ≠ [] := by
  unfold splitKeys
  split
  · simp
  · simp
  · split
    · simp
    · split <;> simp

theorem keys?_ne_nil {name : String} {ks : List String} (h : keys? name = some ks) : ks ≠ [] := by
  unfold keys? at h
  dsimp only at h
  split at h
  · cases h
    simpa using splitKeys_ne_nil _
  · cases h

theorem exists_map_add {v : String × String} {es : List (String × Setting)} {s : Setting}
    (h : add (.map es) v = some s) : ∃ es', s = .map es' := by
  unfold add at h
  split at h
  · next ks hks =>
    obtain ⟨u, -, rfl⟩ := Option.map_eq_some_iff.1 h
    cases ks with
    | nil => exact absurd rfl (keys?_ne_nil hks)
    | cons k ks => exact ⟨_, rfl⟩
  · cases h
    exact ⟨es, rfl⟩

theorem exists_map_of_foldlM {env : Environment} {es : List (String × Setting)} {s : Setting}
    (h : env.foldlM add (.map es) = some s) : ∃ es', s = .map es' := by
  induction env generalizing es with
  | nil =>
    cases h
    exact ⟨es, rfl⟩
  | cons v env ih =>
    rw [List.foldlM_cons] at h
    obtain ⟨m, hm, h⟩ := Option.bind_eq_some_iff.1 h
    obtain ⟨es', rfl⟩ := exists_map_add hm
    exact ih h

/-- The settings of an environment are a mapping. -/
theorem exists_map_of_settings? {env : Environment} {s : Setting} (h : env.settings? = some s) :
    ∃ es, s = .map es := by
  rw [settings?_eq] at h
  exact exists_map_of_foldlM h

/-- Two steps agree under a path if the settings before them do. -/
theorem at?_add {p : List String} {m m' : Setting} (hm : m'.at? p = m.at? p)
    {v : String × String} {s : Setting} (h : add m v = some s) :
    ∃ s', add m' v = some s' ∧ s'.at? p = s.at? p := by
  unfold add at h ⊢
  cases hks : keys? v.1 with
  | none =>
    rw [hks] at h
    cases h
    exact ⟨m', rfl, hm⟩
  | some ks =>
    rw [hks] at h
    obtain ⟨u, hu, rfl⟩ := Option.map_eq_some_iff.1 h
    refine ⟨(nest ks u).merge m', by rw [hu]; rfl, ?_⟩
    rw [at?_merge, at?_merge, hm]

/-- A variable that does not concern a path leaves there what was before. -/
theorem at?_add_of_not_concerns {p : List String} {m s : Setting} {v : String × String}
    (hv : concerns p v = false) (h : add m v = some s) : s.at? p = m.at? p := by
  unfold add at h
  unfold concerns at hv
  cases hks : keys? v.1 with
  | none =>
    rw [hks] at h
    cases h
    rfl
  | some ks =>
    rw [hks] at h hv
    obtain ⟨u, -, rfl⟩ := Option.map_eq_some_iff.1 h
    simp only [Option.any_some, Bool.or_eq_false_iff] at hv
    obtain ⟨hat, hblocks⟩ := at?_nest hv.1 hv.2 u
    rw [at?_merge, hat, hblocks]
    rfl

/-- The variables that do not concern a path can be left out. -/
theorem exists_foldlM_filter {p : List String} {env : Environment} {m m' s : Setting}
    (hm : m'.at? p = m.at? p) (h : env.foldlM add m = some s) :
    ∃ s', (env.filter (concerns p)).foldlM add m' = some s' ∧ s'.at? p = s.at? p := by
  induction env generalizing m m' with
  | nil =>
    cases h
    exact ⟨m', rfl, hm⟩
  | cons v env ih =>
    rw [List.foldlM_cons] at h
    obtain ⟨n, hn, h⟩ := Option.bind_eq_some_iff.1 h
    rw [List.filter_cons]
    cases hv : concerns p v with
    | true =>
      obtain ⟨n', hn', hat⟩ := at?_add hm hn
      rw [if_pos rfl, List.foldlM_cons, hn']
      exact ih hat h
    | false =>
      rw [if_neg Bool.false_ne_true]
      exact ih (hm.trans (at?_add_of_not_concerns hv hn).symm) h

/-- What an environment gives under a path is what the variables give that concern it. -/
theorem exists_settings?_filter (p : List String) {env : Environment} {s : Setting}
    (h : env.settings? = some s) :
    ∃ s', Environment.settings? (env.filter (concerns p)) = some s' ∧ s'.at? p = s.at? p := by
  rw [settings?_eq] at h
  exact exists_foldlM_filter rfl h

/-- Environments that agree in the variables that concern a path agree under it. -/
theorem at?_settings?_congr {p : List String} {env env' : Environment} {s s' : Setting}
    (hs : env.settings? = some s) (hs' : env'.settings? = some s')
    (h : env'.filter (concerns p) = env.filter (concerns p)) : s'.at? p = s.at? p := by
  obtain ⟨u, hu, hat⟩ := exists_settings?_filter p hs
  obtain ⟨u', hu', hat'⟩ := exists_settings?_filter p hs'
  rw [h, hu] at hu'
  cases hu'
  rw [← hat, ← hat']

end Environment

end SdlSchema.Cli
