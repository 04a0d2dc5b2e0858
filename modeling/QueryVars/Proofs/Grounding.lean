import QueryVars.Proofs.Shapes

/-!
# Grounding

Whether a predicate may ground nothing is asked in three ways: by a scan of its
tokens that stops at the first ungrounding one, of the list of its variables, and of
that list once the wildcards are filled. The answers agree, because the scan sees the
variables and nothing else, and because wildcards take the category that it found.
-/

namespace QueryVars

theorem Category.isUngrounding_iff {c : Category} : c.isUngrounding = true ↔ c = .ungrounding := by
  cases c <;> simp [isUngrounding]

theorem TokenKind.allGroundable_eq_false_iff {vs : List Var} :
    allGroundable (vs.map Var.kind) = false ↔ ∃ v ∈ vs, v.category = .ungrounding := by
  simp [allGroundable, isGroundable, isUngrounding, category?, Category.isUngrounding_iff]

namespace Term

variable {g : Generator} {t : Term} {us ls : List Term} {suffixes : List Suffix}

-- ---------------------------------------------------------------------------
-- The scan
-- ---------------------------------------------------------------------------

mutual
/-- To stop early is no different from looking at every leaf. -/
theorem anyUngrounding_eq (t : Term) :
    t.anyUngrounding = t.leaves.any fun leaf => leaf.kind.isUngrounding := by
  cases t with
  | seq items => rw [anyUngrounding, leaves, anyUngroundingAll_eq_leavesAll items]
  | symbol | str | var | literal => simp [anyUngrounding, leaves]
theorem anyUngroundingAll_eq_leavesAll (ts : List Term) :
    anyUngroundingAll ts = (leavesAll ts).any fun leaf => leaf.kind.isUngrounding := by
  cases ts with
  | nil => rfl
  | cons t ts =>
    rw [anyUngroundingAll, leavesAll, List.any_append, anyUngrounding_eq t,
      anyUngroundingAll_eq_leavesAll ts]
end

theorem isUngrounding_kind_iff : t.kind.isUngrounding = true ↔
    ∃ v, t.var? = some v ∧ v.category = .ungrounding := by
  rcases t.kind_cases with ⟨hk, hv⟩ | ⟨v, hk, hv⟩ | ⟨hk, hv⟩ <;>
    simp [hk, hv, TokenKind.isUngrounding, TokenKind.category?, Category.isUngrounding_iff]

theorem anyUngrounding_iff : t.anyUngrounding = true ↔ ∃ v ∈ t.vars, v.category = .ungrounding := by
  simp only [anyUngrounding_eq, List.any_eq_true, isUngrounding_kind_iff, vars, List.mem_filterMap]
  constructor
  · rintro ⟨leaf, hleaf, v, hv, hc⟩
    exact ⟨v, ⟨leaf, hleaf, hv⟩, hc⟩
  · rintro ⟨v, ⟨leaf, hleaf, hv⟩, hc⟩
    exact ⟨leaf, hleaf, v, hv, hc⟩

theorem allGroundable_vars (t : Term) :
    TokenKind.allGroundable (t.vars.map Var.kind) = !t.anyUngrounding := by
  have h : t.anyUngrounding = true ↔ TokenKind.allGroundable (t.vars.map Var.kind) = false :=
    anyUngrounding_iff.trans TokenKind.allGroundable_eq_false_iff.symm
  cases hscan : t.anyUngrounding <;> simp_all

theorem wildcardCategory_eq_ungrounding_iff :
    t.wildcardCategory = .ungrounding ↔ t.anyUngrounding = true := by
  unfold wildcardCategory
  split <;> simp_all

-- ---------------------------------------------------------------------------
-- Filling in
-- ---------------------------------------------------------------------------

/-- Variables of a category that stood there before make no difference. -/
theorem Fills.exists_ungrounding_iff (h : Fills g ls suffixes us)
    (hg : g.category = .ungrounding → ∃ v ∈ ls.filterMap var?, v.category = .ungrounding) :
    (∃ v ∈ us.filterMap var?, v.category = .ungrounding) ↔
      ∃ v ∈ ls.filterMap var?, v.category = .ungrounding := by
  simp only [h.vars_perm.mem_iff, List.mem_append, List.mem_map]
  constructor
  · rintro ⟨v, ⟨s, -, rfl⟩ | hv, hc⟩
    · exact hg hc
    · exact ⟨v, hv, hc⟩
  · rintro ⟨v, hv, hc⟩
    exact ⟨v, .inr hv, hc⟩

theorem anyUngrounding_sanitizePredicate (t : Term) (naming : Naming) (r : Run) :
    ((t.sanitizePredicate naming).run r).1.anyUngrounding = t.anyUngrounding := by
  have hfill := (t.sanitize_fills ⟨t.wildcardCategory, naming⟩ r).2
  rw [Bool.eq_iff_iff, anyUngrounding_iff, anyUngrounding_iff]
  refine hfill.exists_ungrounding_iff fun hc => ?_
  exact anyUngrounding_iff.1 (wildcardCategory_eq_ungrounding_iff.1 hc)

theorem category_fillings (g : Generator) (t : Term) (r : Run) :
    (t.fillings ((t.sanitize g).run r).1).map Var.category =
      List.replicate t.wildcardCount g.category := by
  rw [fillings, (t.sanitize_fills g r).2.fillings, List.map_map, List.eq_replicate_iff]
  refine ⟨?_, List.forall_mem_map.2 fun s _ => g.category_name s⟩
  rw [List.length_map, Strategy.length_suffixes]

/-- Under every naming: what the scan finds is what the variables say, each wildcard
is replaced by a variable of the category that follows from it, and asking again of
the result, by the scan or of the variables, gives the same answer. -/
theorem sanitizePredicate_keeps_grounding (t : Term) (naming : Naming) (r : Run) :
    let u := ((t.sanitizePredicate naming).run r).1
    (t.anyUngrounding = true ↔ ∃ v ∈ t.vars, v.category = .ungrounding) ∧
    (t.anyUngrounding = true ↔ TokenKind.allGroundable (t.vars.map Var.kind) = false) ∧
    (t.wildcardCategory = .ungrounding ↔ t.anyUngrounding = true) ∧
    (t.fillings u).map Var.category = List.replicate t.wildcardCount t.wildcardCategory ∧
    u.wildcardCategory = t.wildcardCategory ∧
    TokenKind.allGroundable (u.vars.map Var.kind) =
      TokenKind.allGroundable (t.vars.map Var.kind) := by
  intro u
  have hscan : u.anyUngrounding = t.anyUngrounding := anyUngrounding_sanitizePredicate t naming r
  refine ⟨anyUngrounding_iff, ?_, wildcardCategory_eq_ungrounding_iff, category_fillings _ t r,
    ?_, ?_⟩
  · rw [allGroundable_vars, Bool.not_eq_false']
  · rw [wildcardCategory, hscan, wildcardCategory]
  · rw [allGroundable_vars, allGroundable_vars, hscan]

end Term

end QueryVars
