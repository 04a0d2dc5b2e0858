import Mathlib.Data.List.Pairwise
import QueryVars.Proofs.Intersection

/-!
# Branches that disagree

Two branches disagree if they lead one duplicate to different heads. Intersecting
fails just then, however far apart the two stand and whoever else knows the
duplicate. It reports the first conflict: of the first branch that disagrees with
one before it, the least duplicate on which it does.

The entries seen so far stand for the branches they were merged from, since these
agree. So the head reported from before does not depend on which of them had it.
-/

namespace QueryVars.Drift

variable {seen first union d e : Drift} {earlier branches rest : List Drift} {common : List Var}
  {v w a b : Var} {j k : Nat}

def Disagree (d e : Drift) (v : Var) : Prop := ∃ a b, d.get? v = some a ∧ e.get? v = some b ∧ a ≠ b

theorem consistent_iff : d.Consistent e ↔ ∀ v, ¬d.Disagree e v := by
  constructor
  · rintro h v ⟨a, b, ha, hb, hne⟩
    exact hne (h v a b ha hb)
  · intro h v a b ha hb
    by_contra hne
    exact h v ⟨a, b, ha, hb, hne⟩

theorem Consistent.refl (d : Drift) : d.Consistent d :=
  fun _ _ _ ha hb => Option.some.inj (ha.symm.trans hb)

instance : Std.Symm Consistent := ⟨fun _ _ h v a b ha hb => (h v b a hb ha).symm⟩

theorem pairwise_consistent_iff :
    branches.Pairwise Consistent ↔ ∀ d ∈ branches, ∀ e ∈ branches, d.Consistent e :=
  ⟨fun h _ hd _ he => h.forall_of_forall (fun d _ => .refl d) hd he,
    List.pairwise_of_forall_mem_list⟩

theorem not_pairwise_consistent_iff :
    ¬branches.Pairwise Consistent ↔ ∃ d ∈ branches, ∃ e ∈ branches, ∃ v, d.Disagree e v := by
  simp only [pairwise_consistent_iff, consistent_iff, not_forall, not_not, exists_prop]

-- ---------------------------------------------------------------------------
-- All branches
-- ---------------------------------------------------------------------------

def Known (branches : List Drift) (v a : Var) : Prop := ∃ d ∈ branches, d.get? v = some a

/-- The branch at `j` leads `v` to another head than one before it. -/
def ConflictAt (branches : List Drift) (j : Nat) (v : Var) : Prop :=
  ∃ e a b, branches[j]? = some e ∧ Known (branches.take j) v a ∧ e.get? v = some b ∧ a ≠ b

/-- `j` is the first branch in conflict with those before it, and `v` the least
duplicate on which it is; those before lead `v` to `left` and nowhere else. -/
structure FirstConflict (branches : List Drift) (j : Nat) (v left right : Var) : Prop where
  first : ∀ k < j, ∀ w, ¬ConflictAt branches k w
  least : ∀ w, ConflictAt branches j w → (compare v.name w.name).isLE
  known : ∀ a, Known (branches.take j) v a ↔ a = left
  own : ∃ e, branches[j]? = some e ∧ e.get? v = some right
  ne : left ≠ right

theorem not_conflictAt_zero : ¬ConflictAt branches 0 v := by
  rintro ⟨e, a, b, -, ⟨d, hd, -⟩, -⟩
  cases hd

theorem conflictAt_one_iff : ConflictAt (seen :: first :: rest) 1 v ↔ seen.Disagree first v := by
  simp [ConflictAt, Known, Disagree]

theorem ConflictAt.disagree (h : ConflictAt branches j v) :
    ∃ d ∈ branches, ∃ e ∈ branches, d.Disagree e v := by
  obtain ⟨e, a, b, he, ⟨d, hd, ha⟩, hb, hne⟩ := h
  exact ⟨d, List.mem_of_mem_take hd, e, List.mem_of_getElem? he, a, b, ha, hb, hne⟩

theorem FirstConflict.conflictAt (h : FirstConflict branches j v a b) : ConflictAt branches j v := by
  obtain ⟨e, he, hb⟩ := h.own
  exact ⟨e, a, b, he, (h.known a).2 rfl, hb, h.ne⟩

theorem FirstConflict.unique {left right : Var} (h : FirstConflict branches j v a b)
    (h' : FirstConflict branches k w left right) : v = w ∧ a = left ∧ b = right := by
  have hj : j = k := by
    rcases Nat.lt_trichotomy j k with hlt | heq | hgt
    · exact absurd h.conflictAt (h'.first j hlt v)
    · exact heq
    · exact absurd h'.conflictAt (h.first k hgt w)
  subst hj
  have hv : v = w := by
    have hle := h.least w h'.conflictAt
    have hge := h'.least v h.conflictAt
    exact Var.ext (Std.LawfulEqCmp.eq_of_compare (Std.OrientedCmp.isLE_antisymm hle hge))
  subst hv
  obtain ⟨e, he, hb⟩ := h.own
  obtain ⟨e', he', hb'⟩ := h'.own
  obtain rfl := Option.some.inj (he.symm.trans he')
  exact ⟨rfl, (h'.known a).1 ((h.known a).2 rfl), Option.some.inj (hb.symm.trans hb')⟩

section Union

/-! A map with the entries of two branches that agree stands for both of them. -/

variable (hc : seen.Consistent first)
  (hu : ∀ v a, union.get? v = some a ↔ seen.get? v = some a ∨ first.get? v = some a)

include hu

theorem known_union : Known (union :: earlier) v a ↔ Known (seen :: first :: earlier) v a := by
  simp only [Known, List.mem_cons, exists_eq_or_imp, hu, or_assoc]

theorem conflictAt_union :
    ConflictAt (union :: rest) (j + 1) v ↔ ConflictAt (seen :: first :: rest) (j + 2) v := by
  simp only [ConflictAt, List.getElem?_cons_succ, List.take_succ_cons, known_union hu]

include hc

theorem pairwise_consistent_of_union (h : (union :: rest).Pairwise Consistent) :
    (seen :: first :: rest).Pairwise Consistent := by
  obtain ⟨hunion, hrest⟩ := List.pairwise_cons.1 h
  refine .cons ?_ (.cons ?_ hrest)
  · rintro e (_ | ⟨_, he⟩)
    · exact hc
    · intro v a b ha hb
      exact hunion e he v a b ((hu v a).2 (.inl ha)) hb
  · intro e he v a b ha hb
    exact hunion e he v a b ((hu v a).2 (.inr ha)) hb

theorem FirstConflict.of_union (h : FirstConflict (union :: rest) j v a b) :
    FirstConflict (seen :: first :: rest) (j + 1) v a b := by
  cases j with
  | zero => exact absurd h.conflictAt not_conflictAt_zero
  | succ i =>
    refine ⟨?_, ?_, ?_, h.own, h.ne⟩
    · intro k hk w hw
      match k with
      | 0 => exact not_conflictAt_zero hw
      | 1 => exact consistent_iff.1 hc w (conflictAt_one_iff.1 hw)
      | k + 2 => exact h.first (k + 1) (by omega) w ((conflictAt_union hu).2 hw)
    · intro w hw
      exact h.least w ((conflictAt_union hu).2 hw)
    · intro c
      simpa only [List.take_succ_cons, known_union hu] using h.known c

end Union

theorem mergeAll_conflict (h : ¬(seen :: branches).Pairwise Consistent) :
    ∃ j v a b, mergeAll seen common branches = .error (.inconsistentDrift v a b) ∧
      FirstConflict (seen :: branches) j v a b := by
  induction branches generalizing seen common with
  | nil => exact absurd (List.pairwise_singleton ..) h
  | cons first rest ih =>
    have hspec := merge_spec seen first.heads.sorted
    rw [mergeAll, toList]
    generalize seen.merge first.heads.toList = result at hspec
    cases hspec with
    | @joined union hc hu =>
      have hagree : seen.Consistent first := by
        rw [consistent_iff]
        rintro v ⟨a, b, hv⟩
        exact hc v a b hv
      obtain ⟨j, v, a, b, herr, hconflict⟩ := ih (mt (pairwise_consistent_of_union hagree hu) h)
      exact ⟨j + 1, v, a, b, herr, hconflict.of_union hagree hu⟩
    | @clash v a b hclash hleast =>
      obtain ⟨ha, hb, hne⟩ := hclash
      refine ⟨1, v, a, b, rfl, ?_, ?_, ?_, ⟨first, rfl, hb⟩, hne⟩
      · intro k hk w hw
        obtain rfl : k = 0 := by omega
        exact not_conflictAt_zero hw
      · intro w hw
        obtain ⟨c, d, hclash⟩ := conflictAt_one_iff.1 hw
        rw [← Var.compare_eq]
        exact hleast w c d hclash
      · simp [Known, ha, eq_comm]

def KnownToAll (branches : List Drift) (v : Var) : Prop :=
  branches ≠ [] ∧ ∀ e ∈ branches, e.contains v = true

/-- All that intersecting can come to. -/
inductive Intersected (branches : List Drift) : Except Fault Drift → Prop
  | consistent {vs : List Var} (hp : branches.Pairwise Consistent)
      (hvs : ∀ v, v ∈ vs ↔ KnownToAll branches v) : Intersected branches (.ok (identity vs))
  | conflict {j : Nat} {v left right : Var} (h : FirstConflict branches j v left right) :
      Intersected branches (.error (.inconsistentDrift v left right))

theorem intersect_spec (branches : List Drift) : Intersected branches (intersect branches) := by
  cases branches with
  | nil =>
    have hnone : ∀ v, v ∈ ([] : List Var) ↔ KnownToAll [] v := by simp [KnownToAll]
    exact .consistent .nil hnone
  | cons first rest =>
    by_cases hp : (first :: rest).Pairwise Consistent
    · obtain ⟨hfirst, hrest⟩ := List.pairwise_cons.1 hp
      rw [intersect, mergeAll_ok hfirst hrest]
      refine .consistent hp fun v => ?_
      simp [KnownToAll, mem_keys_iff]
    · obtain ⟨j, v, a, b, herr, hconflict⟩ := mergeAll_conflict hp
      rw [intersect, herr]
      exact .conflict hconflict

theorem FirstConflict.not_consistent (h : FirstConflict branches j v a b) :
    ¬branches.Pairwise Consistent := by
  obtain ⟨d, hd, e, he, hv⟩ := h.conflictAt.disagree
  exact not_pairwise_consistent_iff.2 ⟨d, hd, e, he, v, hv⟩

theorem intersect_eq_ok_iff : intersect branches = .ok d ↔
    branches.Pairwise Consistent ∧ ∀ v a, d.get? v = some a ↔ KnownToAll branches v ∧ a = v := by
  have hspec := intersect_spec branches
  generalize intersect branches = result at hspec
  cases hspec with
  | @consistent vs hp hvs =>
    have hget : ∀ v a, (identity vs).get? v = some a ↔ KnownToAll branches v ∧ a = v := by
      intro v a
      rw [identity_get?_eq_some_iff, hvs]
    constructor
    · intro h
      cases h
      exact ⟨hp, hget⟩
    · rintro ⟨-, hd⟩
      refine congrArg Except.ok (Drift.ext (SortedMap.ext_get? fun v => Option.ext fun a => ?_))
      exact (hget v a).trans (hd v a).symm
  | conflict h =>
    constructor
    · intro he
      cases he
    · rintro ⟨hp, -⟩
      exact absurd hp h.not_consistent

theorem intersect_error_iff : (∃ fault, intersect branches = .error fault) ↔
    ¬branches.Pairwise Consistent := by
  have hspec := intersect_spec branches
  generalize intersect branches = result at hspec
  cases hspec with
  | consistent hp => simp [hp]
  | conflict h => simp [h.not_consistent]

theorem intersect_of_consistent (hp : branches.Pairwise Consistent) :
    ∃ common, intersect branches = .ok common ∧
      ∀ v a, common.get? v = some a ↔ KnownToAll branches v ∧ a = v := by
  cases h : intersect branches with
  | ok common => exact ⟨common, rfl, (intersect_eq_ok_iff.1 h).2⟩
  | error fault => exact absurd hp (intersect_error_iff.1 ⟨fault, h⟩)

-- ---------------------------------------------------------------------------
-- Every list of branches
-- ---------------------------------------------------------------------------

/-- Intersecting fails if two branches disagree and only then. Else it finds the
duplicates that every branch knows, if there is any branch. -/
theorem intersect_decides (branches : List Drift) :
    ((∃ v left right, intersect branches = .error (.inconsistentDrift v left right)) ↔
      ∃ d ∈ branches, ∃ e ∈ branches, ∃ v, d.Disagree e v) ∧
    ((¬∃ d ∈ branches, ∃ e ∈ branches, ∃ v, d.Disagree e v) →
      ∃ common, intersect branches = .ok common ∧
        ∀ v a, common.get? v = some a ↔ KnownToAll branches v ∧ a = v) ∧
    intersect [] = .ok empty := by
  rw [← not_pairwise_consistent_iff, not_not]
  refine ⟨?_, intersect_of_consistent, rfl⟩
  rw [← intersect_error_iff]
  constructor
  · rintro ⟨v, left, right, h⟩
    exact ⟨_, h⟩
  · rintro ⟨fault, h⟩
    have hspec := intersect_spec branches
    rw [h] at hspec
    cases hspec
    exact ⟨_, _, _, h⟩

/-- The fault tells the first conflict, whichever of the branches before it had
the duplicate. -/
theorem intersect_reports (branches : List Drift) (fault : Fault) :
    intersect branches = .error fault ↔
      ∃ j v left right, fault = .inconsistentDrift v left right ∧
        FirstConflict branches j v left right := by
  have hspec := intersect_spec branches
  generalize intersect branches = result at hspec
  constructor
  · rintro rfl
    cases hspec with
    | conflict h => exact ⟨_, _, _, _, rfl, h⟩
  · rintro ⟨j, v, left, right, rfl, h⟩
    cases hspec with
    | consistent hp => exact absurd hp h.not_consistent
    | conflict h' =>
      obtain ⟨rfl, rfl, rfl⟩ := h'.unique h
      rfl

/-- The branch without entries does not know the duplicate at all. -/
example :
    let a : Var := ⟨"?a", .joinCapable, by decide⟩
    let b : Var := ⟨"?b", .joinCapable, by decide⟩
    let c : Var := ⟨"?c", .joinCapable, by decide⟩
    intersect [empty, .ofList [(b, a)], .ofList [(b, c)]] = .error (.inconsistentDrift b a c) :=
  rfl

end QueryVars.Drift
