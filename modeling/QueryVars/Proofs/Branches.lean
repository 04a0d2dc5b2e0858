import Mathlib.Data.List.OfFn
import Mathlib.Logic.Function.Basic
import QueryVars.Proofs.Freshness
import QueryVars.Proofs.Intersection

/-!
# Branches of a query

Each branch renames against a copy of one map, and all of them draw from one
run, in any order. A branch keeps what the map had on record, and what it adds
is on record in no other branch. Reconciling the branches therefore finds just
the duplicates from before the fork.
-/

namespace QueryVars

structure Fork (n : Nat) where
  maps : Fin n → Equalities
  run : Run

namespace Fork

variable {n : Nat} {m : Equalities} {r : Run} {f : Fork n} {c : Fin n × List Term}
  {calls : List (Fin n × List Term)} {i j : Fin n} {d v : Var}

def copies (n : Nat) (m : Equalities) (r : Run) : Fork n := ⟨fun _ => m, r⟩

def stage (f : Fork n) (i : Fin n) : Stage := ⟨f.maps i, f.run⟩

def call (f : Fork n) (c : Fin n × List Term) : Fork n :=
  ⟨Function.update f.maps c.1 ((f.stage c.1).after c.2).map, ((f.stage c.1).after c.2).run⟩

def names (f : Fork n) : List Var := (List.ofFn f.maps).flatMap Equalities.names

def drifts (f : Fork n) : List Drift := List.ofFn fun i => (f.maps i).drift

/-- No suffix drawn in a call ends a name that the call was handed or that some
branch holds. -/
def Fresh (f : Fork n) (c : Fin n × List Term) : Prop :=
  (f.stage c.1).FreshFor (c.2.filterMap Term.var? ++ f.names) c.2

instance (f : Fork n) (c : Fin n × List Term) : Decidable (f.Fresh c) := by
  unfold Fresh Stage.FreshFor
  infer_instance

theorem mem_names (h : v ∈ (f.maps i).names) : v ∈ f.names :=
  List.mem_flatMap.2 ⟨f.maps i, List.mem_ofFn.2 ⟨i, rfl⟩, h⟩

@[simp] theorem maps_call_self (f : Fork n) (c : Fin n × List Term) :
    (f.call c).maps c.1 = ((f.stage c.1).after c.2).map :=
  Function.update_self ..

theorem maps_call_of_ne (f : Fork n) (h : i ≠ c.1) : (f.call c).maps i = f.maps i :=
  Function.update_of_ne h ..

theorem maps_call_induction {p : Equalities → Prop} (hself : p ((f.stage c.1).after c.2).map)
    (hothers : ∀ i, p (f.maps i)) (i : Fin n) : p ((f.call c).maps i) :=
  (Function.forall_update_iff f.maps fun _ m => p m).2 ⟨hself, fun i _ => hothers i⟩ i

-- ---------------------------------------------------------------------------
-- What calls keep
-- ---------------------------------------------------------------------------

/-- `f` has forked off from `m`: every branch has what `m` had, and no two of
them have put the same duplicate on record since. -/
structure ForkedFrom (m : Equalities) (f : Fork n) : Prop where
  grows : ∀ i, m.Grows (f.maps i)
  nodup : ∀ i, (f.maps i).recorded.Nodup
  apart : ∀ i j, i ≠ j → ∀ d ∈ (f.maps i).recorded, d ∈ (f.maps j).recorded → d ∈ m.recorded

theorem ForkedFrom.copies (h : m.recorded.Nodup) : ForkedFrom m (copies n m r) :=
  ⟨fun _ => .refl m, fun _ => h, fun _ _ _ _ hd _ => hd⟩

theorem ForkedFrom.apart_call (h : ForkedFrom m f) (hf : f.Fresh c) (hj : j ≠ c.1)
    (hd : d ∈ ((f.call c).maps c.1).recorded) (hd' : d ∈ (f.maps j).recorded) : d ∈ m.recorded := by
  rw [maps_call_self] at hd
  rcases Stage.mem_recorded_after hf hd with hold | hnew
  · exact h.apart c.1 j hj.symm d hold hd'
  · have hname : d ∈ f.names := mem_names (Equalities.mem_names_iff.2 (.inr hd'))
    exact absurd (List.mem_append_right _ hname) hnew

theorem ForkedFrom.call (h : ForkedFrom m f) (hf : f.Fresh c) : ForkedFrom m (f.call c) := by
  refine ⟨?_, ?_, ?_⟩
  · refine maps_call_induction (p := m.Grows) ?_ h.grows
    exact (h.grows c.1).trans (Stage.grows_after (f.stage c.1) c.2)
  · refine maps_call_induction (p := fun k => k.recorded.Nodup) ?_ h.nodup
    exact Stage.nodup_recorded_after hf (h.nodup c.1)
  · intro i j hij d hd hd'
    by_cases hi : i = c.1
    · subst hi
      rw [maps_call_of_ne f hij.symm] at hd'
      exact h.apart_call hf hij.symm hd hd'
    · rw [maps_call_of_ne f hi] at hd
      by_cases hj : j = c.1
      · subst hj
        exact h.apart_call hf hi hd' hd
      · rw [maps_call_of_ne f hj] at hd'
        exact h.apart i j hij d hd hd'

theorem forkedFrom_calls (hm : m.recorded.Nodup) (hf : Along call Fresh (copies n m r) calls) :
    ForkedFrom m (calls.foldl call (copies n m r)) :=
  hf.invariant (fun _ _ hc h => h.call hc) (.copies hm)

-- ---------------------------------------------------------------------------
-- Drift of the branches
-- ---------------------------------------------------------------------------

theorem ForkedFrom.consistent (h : ForkedFrom m f) (hij : i ≠ j) :
    (f.maps i).drift.Consistent (f.maps j).drift := by
  intro d a b ha hb
  have ha' := (Equalities.drift_get?_iff (h.nodup i)).1 ha
  have hb' := (Equalities.drift_get?_iff (h.nodup j)).1 hb
  have hdi : d ∈ (f.maps i).recorded := Equalities.mem_recorded_iff.2 ⟨a, ha'⟩
  have hdj : d ∈ (f.maps j).recorded := Equalities.mem_recorded_iff.2 ⟨b, hb'⟩
  have hd : d ∈ m.recorded := h.apart i j hij d hdi hdj
  -- Both branches have kept the head that `d` had in `m`.
  obtain ⟨v, hv⟩ := Equalities.mem_recorded_iff.1 hd
  have hvi := (Equalities.drift_get?_iff (h.nodup i)).2 ((h.grows i).pairs hv)
  have hvj := (Equalities.drift_get?_iff (h.nodup j)).2 ((h.grows j).pairs hv)
  exact Option.some.inj (by rw [← ha, ← hb, hvi, hvj])

theorem ForkedFrom.contains_all_iff (h : ForkedFrom m f) (hn : 2 ≤ n) :
    (∀ i, (f.maps i).drift.contains d = true) ↔ d ∈ m.recorded := by
  constructor
  · intro hall
    have h0 := (Equalities.drift_contains_iff (h.nodup ⟨0, by omega⟩)).1 (hall _)
    have h1 := (Equalities.drift_contains_iff (h.nodup ⟨1, by omega⟩)).1 (hall _)
    exact h.apart _ _ (by simp) d h0 h1
  · intro hd i
    exact (Equalities.drift_contains_iff (h.nodup i)).2 ((h.grows i).recorded hd)

theorem reconcile_branches (hm : m.Reachable) (hn : 2 ≤ n)
    (hf : Along call Fresh (copies n m r) calls) :
    let final := calls.foldl call (copies n m r)
    ((Drift.reconcile final.drifts).run final.run).1 = .ok (.identity m.drift.keys) ∧
    (∀ d a, (Drift.identity m.drift.keys).get? d = some a ↔ m.drift.contains d = true ∧ a = d) ∧
    ∀ i d, (final.maps i).drift.contains d = true → ¬m.drift.contains d = true →
      ¬(Drift.identity m.drift.keys).contains d = true ∧
        ∀ j, j ≠ i → ¬(final.maps j).drift.contains d = true := by
  intro final
  have hr : m.recorded.Nodup := hm.nodup_recorded
  have hfork : ForkedFrom m final := forkedFrom_calls hr hf
  refine ⟨?_, ?_, ?_⟩
  · rw [Drift.reconcile_result]
    refine Drift.intersect_ok ?_ ?_ ?_
    · intro he
      have hlen := congrArg List.length he
      simp only [drifts, List.length_ofFn, List.length_nil] at hlen
      omega
    · refine List.pairwise_ofFn.2 fun i j hij => hfork.consistent hij.ne
    · intro d
      rw [drifts, List.forall_mem_ofFn_iff, hfork.contains_all_iff hn, Drift.mem_keys_iff,
        Equalities.drift_contains_iff hr]
  · intro d a
    rw [Drift.identity_get?_eq_some_iff, Drift.mem_keys_iff]
  · intro i d hd hnew
    refine ⟨?_, ?_⟩
    · rw [Drift.identity_contains, decide_eq_true_iff, Drift.mem_keys_iff]
      exact hnew
    · intro j hj hd'
      rw [Equalities.drift_contains_iff (hfork.nodup i)] at hd
      rw [Equalities.drift_contains_iff (hfork.nodup j)] at hd'
      exact hnew ((Equalities.drift_contains_iff hr).2 (hfork.apart i j hj.symm d hd hd'))

def sampleTurns : List (Fin 2 × List Term) :=
  [(0, [.symbol "?a", .str "?c"]), (1, [.symbol ("?a__" ++ sampleBodies 0), .symbol "?a"]),
    (0, [.symbol "?b", .symbol "?b"])]

theorem reconcile_branches_preloaded :
    let final := sampleTurns.foldl call (copies 2 sampleMap (Run.start sampleBodies))
    sampleMap.Reachable ∧ 2 ≤ 2 ∧
      Along call Fresh (copies 2 sampleMap (Run.start sampleBodies)) sampleTurns ∧
      ((Drift.reconcile final.drifts).run final.run).1 = .ok (.identity sampleMap.drift.keys) :=
  have hm : sampleMap.Reachable := .initial (.ofGroups ofGroups_sampleGroups)
  have hf : Along call Fresh (copies 2 sampleMap (Run.start sampleBodies)) sampleTurns := by
    decide +kernel
  ⟨hm, Nat.le_refl 2, hf, (reconcile_branches hm (Nat.le_refl 2) hf).1⟩

end Fork

end QueryVars
