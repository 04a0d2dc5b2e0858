import QueryVars.Proofs.RenameSound

/-!
# Categories of renamed slots

A fresh duplicate has the category of the variable that it stands for. A repeated
ungrounding variable is given the last name of its group instead, which an
explicit group may choose freely. The category of a slot is therefore lost in one
case only: the group that its variable came with ends in a groundable name.
-/

namespace QueryVars

namespace Equalities

variable {m n : Equalities} {slots : List (Term × Term)} {v w : Var} {ds : List Var}

/-- `v` is ungrounding, and its group ends in a name that is not. -/
def Misleads (m : Equalities) (v : Var) : Prop :=
  v.category.isGroundable = false ∧
    ∃ ds d, m.duplicates.get? v = some ds ∧ ds.getLast? = some d ∧ d.category.isGroundable = true

theorem misleads_of_last (hv : v.category.isGroundable = false)
    (hds : m.duplicates.get? v = some ds) :
    m.Misleads v ↔ (ds.getLast?.getD v).category.isGroundable = true := by
  constructor
  · rintro ⟨-, ds', d, hds', hd, hg⟩
    obtain rfl := Option.some.inj (hds.symm.trans hds')
    rwa [hd]
  · intro hg
    cases hlast : ds.getLast? with
    | none =>
      rw [hlast, Option.getD_none, hv] at hg
      cases hg
    | some d =>
      rw [hlast] at hg
      exact ⟨hv, ds, d, hds, hlast, hg⟩

end Equalities

theorem Category.eq_iff_of_ungrounding {c d : Category} (hd : d.isGroundable = false) :
    c = d ↔ ¬c.isGroundable = true := by
  cases c <;> cases d <;> simp_all [isGroundable, isUngrounding]

namespace Stage

variable {s next : Stage} {t u : Term} {v : Var}

theorem Visit.category_iff (h : Visit s t u next) (ht : t.var? = some v) :
    ∃ w, u = .var w ∧ (w.category = v.category ↔ ¬s.map.Misleads v) := by
  cases h with
  | constant hc => simp [ht] at hc
  | opened ht' hv =>
    obtain rfl := Option.some.inj (ht.symm.trans ht')
    refine ⟨v, rfl, iff_of_true rfl ?_⟩
    rintro ⟨-, ds, d, hds, -⟩
    simp [hv] at hds
  | repeated ht' hv hg =>
    obtain rfl := Option.some.inj (ht.symm.trans ht')
    refine ⟨_, rfl, iff_of_true (Var.category_extend ..) ?_⟩
    rintro ⟨hg', -⟩
    simp [hg] at hg'
  | kept ht' hv hg =>
    obtain rfl := Option.some.inj (ht.symm.trans ht')
    refine ⟨_, rfl, ?_⟩
    rw [Equalities.misleads_of_last hg hv]
    exact Category.eq_iff_of_ungrounding hg

/-- A group that misleads was there before: no visit adds a name to the group of
an ungrounding variable. -/
theorem Visit.misleads_iff (h : Visit s t u next) (v : Var) :
    next.map.Misleads v ↔ s.map.Misleads v := by
  cases h with
  | constant | kept => rfl
  | @opened w _ hw =>
    by_cases hv : v = w
    · subst hv
      simp [Equalities.Misleads, Equalities.insert, hw]
    · simp [Equalities.Misleads, Equalities.insert, SortedMap.get?_insert_of_ne _ _ hv]
  | @repeated w ds _ _ hg =>
    by_cases hv : v = w
    · subst hv
      simp [Equalities.Misleads, hg]
    · simp [Equalities.Misleads, Equalities.insert, SortedMap.get?_insert_of_ne _ _ hv]

end Stage

theorem Equalities.Trace.category_iff {m n : Equalities} {slots : List (Term × Term)}
    (h : Trace m slots n) : ∀ e ∈ slots, ∀ v, e.1.var? = some v →
      ∃ w, e.2 = .var w ∧ (w.category = v.category ↔ ¬m.Misleads v) := by
  induction h with
  | nil => simp
  | cons hv _ ih =>
    intro e he v hs
    rcases List.mem_cons.1 he with rfl | he
    · exact hv.category_iff hs
    · obtain ⟨w, hw, hiff⟩ := ih e he v hs
      exact ⟨w, hw, hiff.trans (not_congr (hv.misleads_iff v))⟩

namespace Stage

/-- A slot of a run loses its category exactly if the map that the run began with
misleads about its variable. So the maps that keep the categories of all runs are
those that mislead about none. -/
theorem category_kept_iff (m : Equalities) :
    (∀ r calls, ∀ e ∈ rewritten ⟨m, r⟩ calls, ∀ v, e.1.var? = some v →
      ∃ w, e.2 = .var w ∧ (w.category = v.category ↔ ¬m.Misleads v)) ∧
    ((∀ r calls, ∀ e ∈ rewritten ⟨m, r⟩ calls,
      e.2.var?.map Var.category = e.1.var?.map Var.category) ↔ ∀ v, ¬m.Misleads v) := by
  have htrace : ∀ r calls, ∃ n, Equalities.Trace m (rewritten ⟨m, r⟩ calls) n := by
    intro r calls
    rw [rewritten, flatten_outs]
    exact ⟨_, trace ⟨m, r⟩ calls.flatten⟩
  have hslot : ∀ r calls, ∀ e ∈ rewritten ⟨m, r⟩ calls, ∀ v, e.1.var? = some v →
      ∃ w, e.2 = .var w ∧ (w.category = v.category ↔ ¬m.Misleads v) := by
    intro r calls
    obtain ⟨n, h⟩ := htrace r calls
    exact h.category_iff
  refine ⟨hslot, ?_⟩
  constructor
  · intro hkeep v
    -- One call of one slot tells whether the map misleads about `v`.
    let r := Run.start sampleBodies
    obtain ⟨u, hu, -⟩ := visit_spec ⟨m, r⟩ (.var v)
    have he : (.var v, u) ∈ rewritten ⟨m, r⟩ [[.var v]] := by simp [rewritten, outs, hu]
    obtain ⟨w, hw, hiff⟩ := hslot r _ _ he v rfl
    obtain rfl : u = .var w := hw
    exact hiff.1 (by simpa [Term.var?] using hkeep r _ _ he)
  · intro hnone r calls e he
    obtain ⟨n, h⟩ := htrace r calls
    cases hs : e.1.var? with
    | none => rw [h.constant e he hs, hs]
    | some v =>
      obtain ⟨w, hw, hiff⟩ := hslot r calls e he v hs
      rw [hw, Term.var?, Option.map_some, Option.map_some, hiff.2 (hnone v)]

/-- A group that the check lets pass, explicit or as a value: every repetition of
the ungrounding `!!x` comes out as the join-capable `?y`. -/
theorem category_lost :
    ∃ (x y : Var) (m : Equalities), x.name = "!!x" ∧ y.name = "?y" ∧
      Equalities.ofGroups [(x, [x, y])] = .ok m ∧
      Equalities.ofJson (.obj [("!!x", .arr [.str "!!x", .str "?y"])]) = .ok m ∧
      (∀ r, out ⟨m, r⟩ [.symbol "!!x"] = [.var y]) ∧ y.category ≠ x.category :=
  ⟨⟨"!!x", .ungrounding, by decide⟩, ⟨"?y", .joinCapable, by decide⟩, _, rfl, rfl,
    rfl, by decide +kernel, fun _ => rfl, by decide⟩

end Stage

end QueryVars
