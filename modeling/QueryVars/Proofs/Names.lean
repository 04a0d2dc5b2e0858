import Mathlib.Data.List.Nodup
import Mathlib.Data.List.Perm.Basic
import QueryVars.Drift.Basic

/-!
# The names in an equality map

A name stands in a map as a head, on record as a duplicate of a head, or as
both. The map grows in two ways: a group is opened, or a duplicate is appended
to one. The lemmas say which names that adds, and how drift reads them off.
-/

namespace QueryVars.Equalities

variable {m n : Equalities} {v w d : Var} {ds : List Var} {j k : Nat}

def heads (m : Equalities) : List Var := m.duplicates.keys

def recorded (m : Equalities) : List Var := m.pairs.map (·.2)

def names (m : Equalities) : List Var := m.groups.flatMap (·.2)

theorem mem_heads_iff : v ∈ m.heads ↔ ∃ ds, m.duplicates.get? v = some ds := by
  rw [heads, SortedMap.mem_keys_iff, SortedMap.contains, Option.isSome_iff_exists]

theorem get?_eq_none_iff : m.duplicates.get? v = none ↔ v ∉ m.heads := by
  rw [mem_heads_iff, Option.eq_none_iff_forall_ne_some, not_exists]

theorem mem_heads_of_mem_pairs (h : (v, d) ∈ m.pairs) : v ∈ m.heads := by
  obtain ⟨ds, hds, -⟩ := (m.mem_pairs_iff v d).1 h
  exact mem_heads_iff.2 ⟨ds, hds⟩

theorem mem_recorded_iff : d ∈ m.recorded ↔ ∃ v, (v, d) ∈ m.pairs := by
  simp [recorded]

theorem recorded_eq (m : Equalities) : m.recorded = m.duplicates.toList.flatMap (·.2) := by
  simp [recorded, pairs, List.map_flatMap, Function.comp_def]

theorem names_perm (m : Equalities) : m.names.Perm (m.heads ++ m.recorded) := by
  rw [recorded_eq, names, groups, List.flatMap_map]
  exact (List.map_append_flatMap_perm _ _ _).symm

theorem mem_names_iff : v ∈ m.names ↔ v ∈ m.heads ∨ v ∈ m.recorded := by
  rw [m.names_perm.mem_iff, List.mem_append]

theorem mem_names_of_mem_pairs (h : (v, d) ∈ m.pairs) : v ∈ m.names ∧ d ∈ m.names :=
  ⟨mem_names_iff.2 (.inl (mem_heads_of_mem_pairs h)),
    mem_names_iff.2 (.inr (mem_recorded_iff.2 ⟨v, h⟩))⟩

theorem nodup_heads (m : Equalities) : m.heads.Nodup := m.duplicates.nodup_keys

def Shared (m : Equalities) : Prop := ∃ v ∈ m.recorded, v ∈ m.heads

theorem nodup_names_iff : m.names.Nodup ↔ m.recorded.Nodup ∧ ¬m.Shared := by
  rw [m.names_perm.nodup_iff, List.nodup_append]
  constructor
  · rintro ⟨-, hr, hapart⟩
    refine ⟨hr, ?_⟩
    rintro ⟨v, hv, hh⟩
    exact hapart v hh v hv rfl
  · rintro ⟨hr, hs⟩
    refine ⟨m.nodup_heads, hr, ?_⟩
    rintro v hh w hw rfl
    exact hs ⟨v, hw, hh⟩

-- ---------------------------------------------------------------------------
-- Places in a group
-- ---------------------------------------------------------------------------

/-- The name at index `k` of the group of `v`; at index 0, that is `v`. -/
def nameAt? (m : Equalities) (v : Var) (k : Nat) : Option Var := (m.group? v).bind (·[k]?)

theorem nameAt?_zero (h : m.nameAt? v 0 = some w) : w = v := by
  obtain ⟨group, hgroup, hw⟩ := Option.bind_eq_some_iff.1 h
  obtain ⟨ds, -, rfl⟩ := Option.map_eq_some_iff.1 hgroup
  exact (Option.some.inj hw).symm

theorem nameAt?_succ_iff :
    m.nameAt? v (k + 1) = some d ↔ ∃ ds, m.duplicates.get? v = some ds ∧ ds[k]? = some d := by
  simp [nameAt?, group?, Option.bind_eq_some_iff]

theorem mem_pairs_iff_nameAt? : (v, d) ∈ m.pairs ↔ ∃ k, m.nameAt? v (k + 1) = some d := by
  rw [mem_pairs_iff]
  simp only [nameAt?_succ_iff, List.mem_iff_getElem?]
  constructor
  · rintro ⟨ds, hds, k, hk⟩
    exact ⟨k, ds, hds, hk⟩
  · rintro ⟨k, ds, hds, hk⟩
    exact ⟨ds, hds, k, hk⟩

theorem place_unique (h : m.recorded.Nodup) (hv : m.nameAt? v (j + 1) = some d)
    (hw : m.nameAt? w (k + 1) = some d) : v = w ∧ j = k := by
  have hpair : (v, d) = (w, d) :=
    List.inj_on_of_nodup_map h (mem_pairs_iff_nameAt?.2 ⟨j, hv⟩) (mem_pairs_iff_nameAt?.2 ⟨k, hw⟩) rfl
  obtain rfl : v = w := congrArg Prod.fst hpair
  obtain ⟨ds, hds, hj⟩ := nameAt?_succ_iff.1 hv
  obtain ⟨ds', hds', hk⟩ := nameAt?_succ_iff.1 hw
  obtain rfl := Option.some.inj (hds.symm.trans hds')
  rw [recorded_eq, List.nodup_flatMap] at h
  have hnodup : ds.Nodup := h.1 (v, ds) ((SortedMap.mem_toList_iff ..).2 hds)
  obtain ⟨hlt, -⟩ := List.getElem?_eq_some_iff.1 hj
  exact ⟨rfl, (List.getElem?_inj hlt hnodup).1 (hj.trans hk.symm)⟩

-- ---------------------------------------------------------------------------
-- Opening a group
-- ---------------------------------------------------------------------------

theorem toList_open (ds : List Var) (h : m.duplicates.get? v = none) :
    (m.insert v ds).duplicates.toList.Perm ((v, ds) :: m.duplicates.toList) :=
  SortedMap.place_perm ds h

theorem heads_open (h : m.duplicates.get? v = none) :
    (m.insert v []).heads.Perm (v :: m.heads) :=
  (toList_open [] h).map Prod.fst

theorem pairs_open (h : m.duplicates.get? v = none) : (m.insert v []).pairs.Perm m.pairs :=
  (toList_open [] h).flatMap_right _

theorem recorded_open (h : m.duplicates.get? v = none) :
    (m.insert v []).recorded.Perm m.recorded :=
  (pairs_open h).map Prod.snd

theorem names_open (h : m.duplicates.get? v = none) : (m.insert v []).names.Perm (v :: m.names) := by
  have hparts := (heads_open h).append (recorded_open h)
  exact (names_perm _).trans (hparts.trans (m.names_perm.symm.cons v))

-- ---------------------------------------------------------------------------
-- Appending a duplicate
-- ---------------------------------------------------------------------------

theorem heads_append (h : m.duplicates.get? v = some ds) (d : Var) :
    (m.insert v (ds ++ [d])).heads = m.heads := by
  obtain ⟨before, after, htoList, hplace⟩ := SortedMap.place_split m.duplicates.sorted h
  have hnew : (m.insert v (ds ++ [d])).duplicates.toList = before ++ (v, ds ++ [d]) :: after :=
    hplace _
  simp [heads, SortedMap.keys, hnew, htoList]

theorem pairs_append (h : m.duplicates.get? v = some ds) (d : Var) :
    (m.insert v (ds ++ [d])).pairs.Perm ((v, d) :: m.pairs) := by
  obtain ⟨before, after, htoList, hplace⟩ := SortedMap.place_split m.duplicates.sorted h
  have hnew : (m.insert v (ds ++ [d])).duplicates.toList = before ++ (v, ds ++ [d]) :: after :=
    hplace _
  simp only [pairs, hnew, htoList, List.flatMap_append, List.flatMap_cons, List.map_append,
    List.map_cons, List.map_nil, List.append_assoc, List.singleton_append]
  exact (List.perm_middle.append_left _).trans List.perm_middle

theorem recorded_append (h : m.duplicates.get? v = some ds) (d : Var) :
    (m.insert v (ds ++ [d])).recorded.Perm (d :: m.recorded) :=
  (pairs_append h d).map Prod.snd

theorem names_append (h : m.duplicates.get? v = some ds) (d : Var) :
    (m.insert v (ds ++ [d])).names.Perm (d :: m.names) := by
  have hparts : (m.insert v (ds ++ [d])).names.Perm (m.heads ++ d :: m.recorded) := by
    refine (names_perm _).trans ?_
    rw [heads_append h d]
    exact (recorded_append h d).append_left _
  exact hparts.trans (List.perm_middle.trans (m.names_perm.symm.cons d))

-- ---------------------------------------------------------------------------
-- Drift
-- ---------------------------------------------------------------------------

theorem drift_toList_perm (h : m.recorded.Nodup) :
    m.drift.toList.Perm (m.pairs.map fun e => (e.2, e.1)) := by
  have hkeys : (m.pairs.map fun e => (e.2, e.1)).map (·.1) = m.recorded := by
    simp [recorded, Function.comp_def]
  exact SortedMap.toList_ofList_perm (hkeys.symm ▸ h)

theorem drift_get?_iff (h : m.recorded.Nodup) : m.drift.get? d = some v ↔ (v, d) ∈ m.pairs := by
  rw [Drift.get?, ← SortedMap.mem_toList_iff]
  change (d, v) ∈ m.drift.toList ↔ _
  simp [(drift_toList_perm h).mem_iff]

theorem drift_contains_iff (h : m.recorded.Nodup) : m.drift.contains d ↔ d ∈ m.recorded := by
  rw [Drift.contains, SortedMap.contains, Option.isSome_iff_exists, mem_recorded_iff]
  exact exists_congr fun v => drift_get?_iff h

theorem drift_get?_eq_none_iff (h : m.recorded.Nodup) :
    m.drift.get? d = none ↔ d ∉ m.recorded := by
  rw [← drift_contains_iff h, Drift.contains, SortedMap.contains, Drift.get?]
  cases m.drift.heads.get? d <;> simp

def Grouped (m : Equalities) (v w : Var) : Prop := (w = v ∧ v ∈ m.heads) ∨ (v, w) ∈ m.pairs

/-- The names of a group stand for its head, provided that no head is a
duplicate of another. -/
theorem Grouped.resolve (hn : m.names.Nodup) (h : m.Grouped v w) : m.drift.resolve w = v := by
  obtain ⟨hr, hs⟩ := nodup_names_iff.1 hn
  rcases h with ⟨rfl, hv⟩ | hp
  · have hw : w ∉ m.recorded := fun hw => hs ⟨w, hw, hv⟩
    rw [Drift.resolve, (drift_get?_eq_none_iff hr).2 hw]
    rfl
  · rw [Drift.resolve, (drift_get?_iff hr).2 hp]
    rfl

theorem Grouped.mem_names (h : m.Grouped v w) : w ∈ m.names := by
  rcases h with ⟨rfl, hv⟩ | hp
  · exact mem_names_iff.2 (.inl hv)
  · exact mem_names_iff.2 (.inr (mem_recorded_iff.2 ⟨v, hp⟩))

-- ---------------------------------------------------------------------------
-- Growth
-- ---------------------------------------------------------------------------

/-- `n` has the heads of `m`, and the duplicates of `m` on record for the same
heads. -/
structure Grows (m n : Equalities) : Prop where
  heads : m.heads ⊆ n.heads
  pairs : m.pairs ⊆ n.pairs

theorem Grows.refl (m : Equalities) : m.Grows m := ⟨List.Subset.refl _, List.Subset.refl _⟩

theorem Grows.trans {k : Equalities} (h : m.Grows n) (h' : n.Grows k) : m.Grows k :=
  ⟨List.Subset.trans h.heads h'.heads, List.Subset.trans h.pairs h'.pairs⟩

theorem Grows.recorded (h : m.Grows n) : m.recorded ⊆ n.recorded := List.map_subset _ h.pairs

theorem Grows.grouped (hg : m.Grows n) (h : m.Grouped v w) : n.Grouped v w :=
  h.imp (And.imp_right (hg.heads ·)) (hg.pairs ·)

theorem grows_open (h : m.duplicates.get? v = none) : m.Grows (m.insert v []) :=
  ⟨fun _ hw => (heads_open h).mem_iff.2 (List.mem_cons_of_mem _ hw),
    fun _ hp => (pairs_open h).mem_iff.2 hp⟩

theorem grows_append (h : m.duplicates.get? v = some ds) (d : Var) :
    m.Grows (m.insert v (ds ++ [d])) :=
  ⟨fun _ hw => (heads_append h d).symm ▸ hw,
    fun _ hp => (pairs_append h d).mem_iff.2 (List.mem_cons_of_mem _ hp)⟩

end QueryVars.Equalities
