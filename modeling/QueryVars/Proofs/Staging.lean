import QueryVars.Proofs.Conflicts

/-!
# Reconciling in stages

Which branches there are decides what intersecting comes to, and neither their
order nor how often each is listed. Branches may also be reconciled in two groups
and then the two results with each other. That finds the same duplicates, but the
heads are forgotten in between, so a conflict of one group with the other stays
unseen.
-/

namespace QueryVars.Drift

variable {xs ys : List Drift} {a b d : Drift} {v : Var}

theorem intersect_ok_congr (h : ∀ d, d ∈ xs ↔ d ∈ ys) :
    intersect xs = .ok d ↔ intersect ys = .ok d := by
  have hnil : xs = [] ↔ ys = [] := by simp only [List.eq_nil_iff_forall_not_mem, h]
  simp only [intersect_eq_ok_iff, pairwise_consistent_iff, KnownToAll, ne_eq, hnil, h]

theorem toOption_intersect_congr (h : ∀ d, d ∈ xs ↔ d ∈ ys) :
    (intersect xs).toOption = (intersect ys).toOption := by
  cases hx : intersect xs with
  | ok d => rw [(intersect_ok_congr h).1 hx]
  | error fault =>
    cases hy : intersect ys with
    | ok d =>
      rw [(intersect_ok_congr h).2 hy] at hx
      cases hx
    | error fault => rfl

-- ---------------------------------------------------------------------------
-- Results as branches
-- ---------------------------------------------------------------------------

theorem contains_intersect (h : intersect xs = .ok a) :
    a.contains v = true ↔ KnownToAll xs v := by
  rw [Drift.contains, SortedMap.contains, Option.isSome_iff_exists]
  constructor
  · rintro ⟨w, hw⟩
    exact (((intersect_eq_ok_iff.1 h).2 v w).1 hw).1
  · intro hv
    exact ⟨v, ((intersect_eq_ok_iff.1 h).2 v v).2 ⟨hv, rfl⟩⟩

theorem consistent_intersect (ha : intersect xs = .ok a) (hb : intersect ys = .ok b) :
    a.Consistent b := by
  intro v w u hw hu
  obtain ⟨-, rfl⟩ := ((intersect_eq_ok_iff.1 ha).2 v w).1 hw
  exact (((intersect_eq_ok_iff.1 hb).2 w u).1 hu).2.symm

section Stages

variable (hx : xs ≠ []) (hy : ys ≠ [])

include hx hy

theorem knownToAll_append : KnownToAll (xs ++ ys) v ↔ KnownToAll xs v ∧ KnownToAll ys v := by
  simp [KnownToAll, hx, hy, or_imp, forall_and]

theorem intersect_pair (ha : intersect xs = .ok a) (hb : intersect ys = .ok b) :
    ∃ c, intersect [a, b] = .ok c ∧
      ∀ v w, c.get? v = some w ↔ KnownToAll (xs ++ ys) v ∧ w = v := by
  have hp : [a, b].Pairwise Consistent := List.pairwise_pair.2 (consistent_intersect ha hb)
  obtain ⟨c, hc, hget⟩ := intersect_of_consistent hp
  refine ⟨c, hc, fun v w => ?_⟩
  rw [hget, knownToAll_append hx hy, ← contains_intersect ha, ← contains_intersect hb]
  simp [KnownToAll]

theorem intersect_append (ha : intersect xs = .ok a) (hb : intersect ys = .ok b)
    (h : ∀ d ∈ xs, ∀ e ∈ ys, d.Consistent e) : intersect (xs ++ ys) = intersect [a, b] := by
  obtain ⟨c, hc, hget⟩ := intersect_pair hx hy ha hb
  rw [hc, intersect_eq_ok_iff]
  refine ⟨?_, hget⟩
  exact List.pairwise_append.2 ⟨(intersect_eq_ok_iff.1 ha).1, (intersect_eq_ok_iff.1 hb).1, h⟩

end Stages

/-- The first part is on lists with the same members, such as a list and what
permuting it or repeating some of its branches makes of it. -/
theorem intersect_in_stages (xs ys : List Drift) :
    ((∀ d, d ∈ xs ↔ d ∈ ys) → (intersect xs).toOption = (intersect ys).toOption) ∧
    (xs ≠ [] → ys ≠ [] →
      (∀ d, intersect (xs ++ ys) = .ok d →
        ∃ a b, intersect xs = .ok a ∧ intersect ys = .ok b ∧ intersect [a, b] = .ok d) ∧
      ∀ a b, intersect xs = .ok a → intersect ys = .ok b →
        ∃ c, intersect [a, b] = .ok c ∧
          (intersect (xs ++ ys) = .ok c ∨ ∃ fault, intersect (xs ++ ys) = .error fault) ∧
          ((∃ fault, intersect (xs ++ ys) = .error fault) ↔
            ∃ d ∈ xs, ∃ e ∈ ys, ∃ v, d.Disagree e v)) := by
  refine ⟨toOption_intersect_congr, fun hx hy => ⟨?_, ?_⟩⟩
  · intro d hd
    obtain ⟨hpx, hpy, hacross⟩ := List.pairwise_append.1 (intersect_eq_ok_iff.1 hd).1
    obtain ⟨a, ha, -⟩ := intersect_of_consistent hpx
    obtain ⟨b, hb, -⟩ := intersect_of_consistent hpy
    exact ⟨a, b, ha, hb, intersect_append hx hy ha hb hacross ▸ hd⟩
  · intro a b ha hb
    have hpx := (intersect_eq_ok_iff.1 ha).1
    have hpy := (intersect_eq_ok_iff.1 hb).1
    obtain ⟨c, hc, -⟩ := intersect_pair hx hy ha hb
    have hacross : (∃ d ∈ xs, ∃ e ∈ ys, ∃ v, d.Disagree e v) ↔
        ¬∀ d ∈ xs, ∀ e ∈ ys, d.Consistent e := by
      simp only [consistent_iff, not_forall, not_not, exists_prop]
    have hfails : (∃ fault, intersect (xs ++ ys) = .error fault) ↔
        ¬∀ d ∈ xs, ∀ e ∈ ys, d.Consistent e := by
      rw [intersect_error_iff, List.pairwise_append]
      simp [hpx, hpy]
    refine ⟨c, hc, ?_, hfails.trans hacross.symm⟩
    by_cases h : ∀ d ∈ xs, ∀ e ∈ ys, d.Consistent e
    · exact .inl ((intersect_append hx hy ha hb h).trans hc)
    · exact .inr (hfails.2 h)

/-- Each group is a branch, and both lead `?b` to a head of their own. -/
theorem intersect_in_stages_hides_conflict :
    let a : Var := ⟨"?a", .joinCapable, by decide⟩
    let b : Var := ⟨"?b", .joinCapable, by decide⟩
    let c : Var := ⟨"?c", .joinCapable, by decide⟩
    let left := [Drift.ofList [(b, a)]]
    let right := [Drift.ofList [(b, c)]]
    intersect left = .ok (identity [b]) ∧ intersect right = .ok (identity [b]) ∧
      (∃ d, intersect [identity [b], identity [b]] = .ok d) ∧
      ∃ fault, intersect (left ++ right) = .error fault := by
  intro a b c left right
  have hleft : intersect left = .ok (identity [b]) := rfl
  have hright : intersect right = .ok (identity [b]) := rfl
  have hdisagree : (Drift.ofList [(b, a)]).Disagree (Drift.ofList [(b, c)]) b :=
    ⟨a, c, by decide +kernel, by decide +kernel, by decide +kernel⟩
  obtain ⟨-, hstaged⟩ := intersect_in_stages left right
  obtain ⟨d, hd, -, hfails⟩ := (hstaged (by simp [left]) (by simp [right])).2 _ _ hleft hright
  refine ⟨hleft, hright, ⟨d, hd⟩, hfails.2 ?_⟩
  exact ⟨_, List.mem_singleton_self _, _, List.mem_singleton_self _, b, hdisagree⟩

end QueryVars.Drift
