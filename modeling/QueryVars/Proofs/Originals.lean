import QueryVars.Proofs.Sharing

/-!
# Duplicates that become originals

Drift is meant to lead from duplicates to originals in one step. It does so as
long as no duplicate on record comes back as a slot twice: the first time opens
a group for it, and the second time gives it a duplicate of its own. Each of the
three ways to say that duplicates are no originals is matched with the slots
that break it.
-/

namespace QueryVars

namespace Equalities

variable {m : Equalities} {v d : Var}

def Chained (m : Equalities) : Prop := ∃ v ∈ m.recorded, ∃ d, (v, d) ∈ m.pairs

theorem Chained.shared (h : m.Chained) : m.Shared := by
  obtain ⟨v, hv, d, hd⟩ := h
  exact ⟨v, hv, mem_heads_of_mem_pairs hd⟩

theorem group?_eq_none_iff : m.group? v = none ↔ v ∉ m.heads := by
  rw [← get?_eq_none_iff, group?, Option.map_eq_none_iff]

-- ---------------------------------------------------------------------------
-- What drift makes of it
-- ---------------------------------------------------------------------------

theorem drift_key_no_head_iff (hr : m.recorded.Nodup) :
    (∀ d, m.drift.contains d = true → m.group? d = none) ↔ ¬m.Shared := by
  simp only [drift_contains_iff hr, group?_eq_none_iff, Shared, not_exists, not_and]

theorem drift_value_no_key_iff (hr : m.recorded.Nodup) :
    (∀ d v, m.drift.get? d = some v → ¬m.drift.contains v = true) ↔ ¬m.Chained := by
  simp only [drift_get?_iff hr, drift_contains_iff hr]
  constructor
  · rintro h ⟨v, hv, d, hd⟩
    exact h d v hd hv
  · intro h d v hd hv
    exact h ⟨v, hv, d, hd⟩

/-- One step of drift is all there is to take, provided that no name is its own
duplicate. -/
theorem resolve_idempotent_iff (hr : m.recorded.Nodup) (hself : ∀ v, (v, v) ∉ m.pairs) :
    (∀ v, m.drift.resolve (m.drift.resolve v) = m.drift.resolve v) ↔ ¬m.Chained := by
  have hstep : ∀ {v d}, (v, d) ∈ m.pairs → m.drift.resolve d = v := fun h => by
    rw [Drift.resolve, (drift_get?_iff hr).2 h]
    rfl
  have hstay : ∀ {v}, v ∉ m.recorded → m.drift.resolve v = v := fun h => by
    rw [Drift.resolve, (drift_get?_eq_none_iff hr).2 h]
    rfl
  constructor
  · rintro h ⟨v, hv, d, hd⟩
    obtain ⟨o, ho⟩ := mem_recorded_iff.1 hv
    have hsame : o = v := by
      have := h d
      rwa [hstep hd, hstep ho] at this
    exact hself v (hsame ▸ ho)
  · intro h d
    by_cases hd : d ∈ m.recorded
    · obtain ⟨v, hv⟩ := mem_recorded_iff.1 hd
      rw [hstep hv]
      exact hstay fun hm => h ⟨v, hm, d, hv⟩
    · rw [hstay hd, hstay hd]

end Equalities

namespace Stage

variable {known : List Var} {s next : Stage} {t u : Term} {slots : List Term} {v : Var}

/-- The slot repeats a duplicate on record, which is a head by now. -/
def repeatsDuplicate (s : Stage) (t : Term) : Bool := s.map.namesDuplicate t && s.map.repeats t

def AvoidsRepeats (s : Stage) (slots : List Term) : Prop :=
  Along visit (fun s t => ¬s.repeatsDuplicate t = true) s slots

instance (s : Stage) (slots : List Term) : Decidable (s.AvoidsRepeats slots) := by
  unfold AvoidsRepeats
  infer_instance

theorem Visit.chained_iff (hn : s.NewFor known t) (h : Visit s t u next) :
    next.map.Chained ↔ s.map.Chained ∨ s.repeatsDuplicate t = true := by
  cases h with
  | constant ht => simp [repeatsDuplicate, Equalities.namesDuplicate, ht]
  | @opened v ht hv =>
    have hno : s.map.repeats t = false := by simp [Equalities.repeats, ht, SortedMap.contains, hv]
    simp only [Equalities.Chained, (Equalities.recorded_open hv).mem_iff,
      (Equalities.pairs_open hv).mem_iff, repeatsDuplicate, hno, Bool.and_false, Bool.false_eq_true,
      or_false]
  | @repeated v ds ht hv hg =>
    have hr := Equalities.recorded_append hv (s.duplicate v)
    have hp := Equalities.pairs_append hv (s.duplicate v)
    have hnew := (hn.duplicate_notMem ht hv hg).2
    have hhead : s.duplicate v ∉ s.map.heads := fun hh =>
      hnew (Equalities.mem_names_iff.2 (.inl hh))
    have hv' : v ∈ s.map.heads := Equalities.mem_heads_iff.2 ⟨ds, hv⟩
    rw [repeatsDuplicate, repeats_eq_true ht hv hg, Bool.and_true, namesDuplicate_of_var ht]
    constructor
    · rintro ⟨w, hw, d, hd⟩
      rcases List.mem_cons.1 (hr.mem_iff.1 hw) with rfl | hw
      -- The new duplicate heads no group, so it cannot be in the middle.
      · rcases List.mem_cons.1 (hp.mem_iff.1 hd) with he | hd
        · rw [(Prod.mk.inj he).1] at hhead
          exact absurd hv' hhead
        · exact absurd (Equalities.mem_heads_of_mem_pairs hd) hhead
      · rcases List.mem_cons.1 (hp.mem_iff.1 hd) with he | hd
        · exact .inr ((Prod.mk.inj he).1 ▸ hw)
        · exact .inl ⟨w, hw, d, hd⟩
    · rintro (⟨w, hw, d, hd⟩ | hw)
      · exact ⟨w, hr.mem_iff.2 (List.mem_cons_of_mem _ hw), d,
          hp.mem_iff.2 (List.mem_cons_of_mem _ hd)⟩
      · exact ⟨v, hr.mem_iff.2 (List.mem_cons_of_mem _ hw), _, hp.mem_iff.2 List.mem_cons_self⟩
  | kept ht hv hg => simp [repeatsDuplicate, Equalities.repeats, ht, hg]

theorem chained_after_iff (hf : s.FreshFor known slots) :
    (s.after slots).map.Chained ↔ s.map.Chained ∨ ¬s.AvoidsRepeats slots := by
  rw [after_eq_foldl]
  refine Along.flaw_iff (fun s => s.map.Chained) (fun s t hn => ?_) hf
  obtain ⟨u, -, h⟩ := s.visit_spec t
  exact h.chained_iff hn

theorem chained_calls_iff {calls : List (List Term)} (hf : Along after Fresh s calls) :
    (calls.foldl after s).map.Chained ↔ s.map.Chained ∨ ¬Along after AvoidsRepeats s calls := by
  rw [foldl_after, chained_after_iff (freshFor_flatten hf)]
  exact or_congr_right (not_congr along_calls.symm)

theorem Visit.irreflexive (hn : s.NewFor known t) (h : Visit s t u next)
    (hs : ∀ v, (v, v) ∉ s.map.pairs) : ∀ v, (v, v) ∉ next.map.pairs := by
  cases h with
  | constant | kept => exact hs
  | opened _ hv =>
    intro w hw
    exact hs w ((Equalities.pairs_open hv).mem_iff.1 hw)
  | @repeated v ds ht hv hg =>
    intro w hw
    rcases List.mem_cons.1 ((Equalities.pairs_append hv _).mem_iff.1 hw) with he | hw
    · obtain ⟨rfl, hd⟩ := Prod.mk.inj he
      have hw : w ∈ s.map.names :=
        Equalities.mem_names_iff.2 (.inl (Equalities.mem_heads_iff.2 ⟨ds, hv⟩))
      exact (hn.duplicate_notMem ht hv hg).2 (hd ▸ hw)
    · exact hs w hw

theorem irreflexive_calls {calls : List (List Term)} (hf : Along after Fresh s calls)
    (hs : ∀ v, (v, v) ∉ s.map.pairs) : ∀ v, (v, v) ∉ (calls.foldl after s).map.pairs := by
  rw [foldl_after]
  exact visit_induction (I := fun s => ∀ v, (v, v) ∉ s.map.pairs) (freshFor_flatten hf)
    (fun _ _ _ _ hn h => h.irreflexive hn) hs

-- ---------------------------------------------------------------------------
-- Whole runs
-- ---------------------------------------------------------------------------

theorem originals_apart_iff {m : Equalities} {r : Run} {calls : List (List Term)} (hm : m.Initial)
    (hf : Along after Fresh ⟨m, r⟩ calls) :
    let final := (calls.foldl after ⟨m, r⟩).map
    ((∀ d, final.drift.contains d = true → final.group? d = none) ↔
      Along after AvoidsDuplicates ⟨m, r⟩ calls) ∧
    ((∀ d v, final.drift.get? d = some v → ¬final.drift.contains v = true) ↔
      Along after AvoidsRepeats ⟨m, r⟩ calls) ∧
    ((∀ v, final.drift.resolve (final.drift.resolve v) = final.drift.resolve v) ↔
      Along after AvoidsRepeats ⟨m, r⟩ calls) := by
  intro final
  obtain ⟨hr, hshared⟩ := Equalities.nodup_names_iff.1 hm.nodup_names
  have hrecorded : final.recorded.Nodup := nodup_recorded_calls hf hr
  have hself : ∀ v, (v, v) ∉ final.pairs := by
    refine irreflexive_calls hf fun v hv => hshared ⟨v, ?_, Equalities.mem_heads_of_mem_pairs hv⟩
    exact Equalities.mem_recorded_iff.2 ⟨v, hv⟩
  have hheads : ¬final.Shared ↔ Along after AvoidsDuplicates ⟨m, r⟩ calls := by
    rw [shared_calls_iff hf]
    simp [hshared]
  have hchains : ¬final.Chained ↔ Along after AvoidsRepeats ⟨m, r⟩ calls := by
    have hnone : ¬m.Chained := fun h => hshared h.shared
    rw [chained_calls_iff hf]
    simp [hnone]
  refine ⟨?_, ?_, ?_⟩
  · rw [Equalities.drift_key_no_head_iff hrecorded, hheads]
  · rw [Equalities.drift_value_no_key_iff hrecorded, hchains]
  · rw [Equalities.resolve_idempotent_iff hrecorded hself, hchains]

theorem originals_apart_fails_on_return :
    let start : Stage := ⟨sampleMap, Run.start sampleBodies⟩
    let final := (returningCalls.foldl after start).map
    Along after Fresh start returningCalls ∧
      ¬(∀ d, final.drift.contains d = true → final.group? d = none) ∧
      ¬(∀ d v, final.drift.get? d = some v → ¬final.drift.contains v = true) ∧
      ¬∀ v, final.drift.resolve (final.drift.resolve v) = final.drift.resolve v := by
  intro start final
  have hf : Along after Fresh start returningCalls := by decide +kernel
  have hd : ¬Along after AvoidsDuplicates start returningCalls := by decide +kernel
  have hr : ¬Along after AvoidsRepeats start returningCalls := by decide +kernel
  obtain ⟨hkeys, hvalues, hresolve⟩ :=
    originals_apart_iff (.ofGroups ofGroups_sampleGroups) hf
  exact ⟨hf, mt hkeys.1 hd, mt hvalues.1 hr, mt hresolve.1 hr⟩

/-- The names involved: `?b` is on record for `?a` and heads a group, and what
resolves to `?b` does not resolve to it twice. -/
theorem duplicate_turns_original :
    let final := (after ⟨sampleMap, Run.start sampleBodies⟩ [.symbol "?b", .symbol "?b"]).map
    ∃ a b d : Var, a.name = "?a" ∧ b.name = "?b" ∧ d = b.extend ⟨sampleBodies 0⟩ ∧
      final.group? b = some [b, d] ∧ final.drift.get? b = some a ∧
      final.drift.resolve d = b ∧ final.drift.resolve b = a :=
  ⟨⟨"?a", .joinCapable, by decide⟩, ⟨"?b", .joinCapable, by decide⟩, _, rfl, rfl, rfl,
    by decide +kernel, by decide +kernel, by decide +kernel, by decide +kernel⟩

end Stage

end QueryVars
