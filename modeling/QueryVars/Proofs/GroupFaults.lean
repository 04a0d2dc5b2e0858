import QueryVars.Proofs.Groups

/-!
# Faults in explicit groups

A group is flawed if it is empty, if its first name is not its key, or if one of
its names stands in an earlier group or earlier in the group itself; the rules are
tried in this order. `ofGroups` goes from pair to pair, with the names of the
groups before, and reports the flaw of the first pair that has one. A family in
which no pair has one makes up the map, whatever its order.
-/

namespace QueryVars.Equalities

variable {m : Equalities} {earlier group : List Var} {key v : Var} {fault : Fault}
  {gs rest others : List (Var × List Var)} {i : Nat}

-- ---------------------------------------------------------------------------
-- One pair
-- ---------------------------------------------------------------------------

/-- What is wrong with the group of `key`, after groups with the names `earlier`. -/
inductive Flaw (earlier : List Var) (key : Var) : List Var → Fault → Prop
  | empty : Flaw earlier key [] (.emptyGroup key)
  | mismatch {first : Var} {rest : List Var} (h : first ≠ key) :
      Flaw earlier key (first :: rest) (.groupMismatch key first)
  | shared {rest : List Var} {v : Var} (h : FirstRepeated earlier (key :: rest) v) :
      Flaw earlier key (key :: rest) (.sharedMember v)

theorem checkGroup_error_iff :
    checkGroup earlier key group = .error fault ↔ Flaw earlier key group fault := by
  constructor
  · intro h
    unfold checkGroup at h
    split at h
    next =>
      cases h
      exact .empty
    next first rest =>
      split at h
      next hk =>
        obtain rfl := hk
        split at h
        next v hv =>
          cases h
          exact .shared (firstShared_eq_some_iff.1 hv)
        next => cases h
      next hk =>
        cases h
        exact .mismatch hk
  · intro h
    cases h with
    | empty => rfl
    | mismatch h => simp [checkGroup, h]
    | shared h => simp [checkGroup, firstShared_eq_some_iff.2 h]

-- ---------------------------------------------------------------------------
-- All pairs
-- ---------------------------------------------------------------------------

/-- The pair at `i` is flawed, by itself or after the names before it: `earlier`
and those of the pairs before. -/
def FaultAt (earlier : List Var) (gs : List (Var × List Var)) (i : Nat) (fault : Fault) : Prop :=
  ∃ key group, gs[i]? = some (key, group) ∧
    Flaw (earlier ++ (gs.take i).flatMap (·.2)) key group fault

theorem faultAt_zero :
    FaultAt earlier ((key, group) :: rest) 0 fault ↔ Flaw earlier key group fault := by
  simp [FaultAt]

theorem faultAt_succ :
    FaultAt earlier ((key, group) :: rest) (i + 1) fault ↔
      FaultAt (earlier ++ group) rest i fault := by
  simp [FaultAt]

theorem addGroups_error_iff (m : Equalities) :
    addGroups earlier m gs = .error fault ↔
      ∃ i, FaultAt earlier gs i fault ∧ ∀ k < i, ∀ f, ¬FaultAt earlier gs k f := by
  induction gs generalizing earlier m with
  | nil => simp [addGroups, FaultAt]
  | cons e rest ih =>
    obtain ⟨key, group⟩ := e
    simp only [addGroups]
    cases hc : checkGroup earlier key group with
    | error f =>
      have hf : FaultAt earlier ((key, group) :: rest) 0 f :=
        faultAt_zero.2 (checkGroup_error_iff.1 hc)
      constructor
      · rintro ⟨⟩
        exact ⟨0, hf, by simp⟩
      · rintro ⟨i, hi, hfirst⟩
        cases i with
        | zero => rw [← hc, checkGroup_error_iff.2 (faultAt_zero.1 hi)]
        | succ i => exact absurd hf (hfirst 0 i.succ_pos f)
    | ok ds =>
      have hnone : ∀ f, ¬FaultAt earlier ((key, group) :: rest) 0 f := by
        intro f hf
        rw [checkGroup_error_iff.2 (faultAt_zero.1 hf)] at hc
        cases hc
      simp only [ih]
      constructor
      · rintro ⟨i, hi, hfirst⟩
        refine ⟨i + 1, faultAt_succ.2 hi, ?_⟩
        rintro (_ | k) hk f hf
        · exact hnone f hf
        · exact hfirst k (by omega) f (faultAt_succ.1 hf)
      · rintro ⟨_ | i, hi, hfirst⟩
        · exact absurd hi (hnone fault)
        · exact ⟨i, faultAt_succ.1 hi, fun k hk f hf =>
            hfirst (k + 1) (by omega) f (faultAt_succ.2 hf)⟩

theorem exists_ofGroups_iff : (∃ m, ofGroups gs = .ok m) ↔
    (∀ e ∈ gs, e.2.head? = some e.1) ∧ (gs.flatMap (·.2)).Nodup := by
  constructor
  · rintro ⟨m, h⟩
    obtain ⟨hperm, hnodup⟩ := ofGroups_ok h
    refine ⟨?_, hnodup⟩
    intro e he
    obtain ⟨f, -, rfl⟩ := List.mem_map.1 (hperm.mem_iff.2 he)
    rfl
  · rintro ⟨hhead, hnodup⟩
    have hh : ∀ e ∈ gs, ∃ ds, e.2 = e.1 :: ds := fun e he => List.head?_eq_some_iff.1 (hhead e he)
    rcases addGroups_headed hh [] empty with hok | ⟨v, -, hcount⟩
    · exact hok
    · have := List.nodup_iff_count_le_one.1 hnodup v
      rw [List.nil_append] at hcount
      omega

theorem ofGroups_perm (h : ofGroups gs = .ok m) (hp : others.Perm gs) : ofGroups others = .ok m := by
  obtain ⟨hhead, hnodup⟩ := exists_ofGroups_iff.1 ⟨m, h⟩
  obtain ⟨n, hn⟩ : ∃ n, ofGroups others = .ok n :=
    exists_ofGroups_iff.2 ⟨fun e he => hhead e (hp.mem_iff.1 he),
      (hp.flatMap_right _).nodup_iff.2 hnodup⟩
  have hgroups : n.groups.Perm m.groups :=
    (ofGroups_ok hn).1.trans (hp.trans (ofGroups_ok h).1.symm)
  rw [hn, eq_of_groups_perm hgroups]

/-- A family is accepted if every group begins with its key and no name stands in
the groups twice. The map then has these groups and no others, in whatever order
they came. Else the fault is that of the first pair that is flawed. -/
theorem ofGroups_decides (gs : List (Var × List Var)) :
    ((∃ m, ofGroups gs = .ok m) ↔
      (∀ e ∈ gs, e.2.head? = some e.1) ∧ (gs.flatMap (·.2)).Nodup) ∧
    (∀ m, ofGroups gs = .ok m →
      m.size = gs.length ∧
      (∀ key group, m.group? key = some group ↔ (key, group) ∈ gs) ∧
      ∀ others, others.Perm gs → ofGroups others = .ok m) ∧
    ∀ fault, ofGroups gs = .error fault ↔
      ∃ i, FaultAt [] gs i fault ∧ ∀ k < i, ∀ f, ¬FaultAt [] gs k f := by
  refine ⟨exists_ofGroups_iff, ?_, fun fault => addGroups_error_iff empty⟩
  intro m h
  have hperm := (ofGroups_ok h).1
  refine ⟨?_, ?_, fun others => ofGroups_perm h⟩
  · rw [← hperm.length_eq, groups, List.length_map]
    rfl
  · intro key group
    rw [← mem_groups_iff, hperm.mem_iff]

end QueryVars.Equalities
