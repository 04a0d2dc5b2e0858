import QueryVars.Proofs.Freshness

/-!
# Duplicates that come back

A slot may name a duplicate that is already on record. Renaming looks for it
among the heads only and so may open a group for it, which leaves one name in
two groups. Nothing else does that, and no later call undoes it.
-/

namespace QueryVars

def Equalities.namesDuplicate (m : Equalities) (t : Term) : Bool :=
  t.var?.any fun v => decide (v ∈ m.recorded)

theorem Equalities.namesDuplicate_iff {m : Equalities} {t : Term} :
    m.namesDuplicate t = true ↔ ∃ v, t.var? = some v ∧ v ∈ m.recorded := by
  unfold namesDuplicate
  cases t.var? <;> simp

namespace Stage

variable {known : List Var} {s next : Stage} {t u : Term} {slots : List Term} {v w : Var}

/-- No slot names a duplicate that is on record by then. -/
def AvoidsDuplicates (s : Stage) (slots : List Term) : Prop :=
  Along visit (fun s t => ¬s.map.namesDuplicate t = true) s slots

instance (s : Stage) (slots : List Term) : Decidable (s.AvoidsDuplicates slots) := by
  unfold AvoidsDuplicates
  infer_instance

theorem namesDuplicate_of_var (ht : t.var? = some v) :
    s.map.namesDuplicate t = true ↔ v ∈ s.map.recorded := by
  simp [Equalities.namesDuplicate_iff, ht]

theorem Visit.shared_iff (hn : s.NewFor known t) (h : Visit s t u next) :
    next.map.Shared ↔ s.map.Shared ∨ s.map.namesDuplicate t = true := by
  cases h with
  | constant ht => simp [Equalities.namesDuplicate, ht]
  | @opened v ht hv =>
    have hr := Equalities.recorded_open hv
    have hh := Equalities.heads_open hv
    rw [namesDuplicate_of_var ht]
    constructor
    · rintro ⟨w, hw, hm⟩
      rcases List.mem_cons.1 (hh.mem_iff.1 hm) with rfl | hm
      · exact .inr (hr.mem_iff.1 hw)
      · exact .inl ⟨w, hr.mem_iff.1 hw, hm⟩
    · rintro (⟨w, hw, hm⟩ | hv)
      · exact ⟨w, hr.mem_iff.2 hw, hh.mem_iff.2 (List.mem_cons_of_mem _ hm)⟩
      · exact ⟨v, hr.mem_iff.2 hv, hh.mem_iff.2 List.mem_cons_self⟩
  | @repeated v ds ht hv hg =>
    have hr := Equalities.recorded_append hv (s.duplicate v)
    have hh := Equalities.heads_append hv (s.duplicate v)
    have hnew := (hn.duplicate_notMem ht hv hg).2
    have hv' : v ∈ s.map.heads := Equalities.mem_heads_iff.2 ⟨ds, hv⟩
    rw [namesDuplicate_of_var ht]
    constructor
    · rintro ⟨w, hw, hm⟩
      rw [hh] at hm
      rcases List.mem_cons.1 (hr.mem_iff.1 hw) with rfl | hw
      · exact absurd (Equalities.mem_names_iff.2 (.inl hm)) hnew
      · exact .inl ⟨w, hw, hm⟩
    · rintro (⟨w, hw, hm⟩ | hw)
      · exact ⟨w, hr.mem_iff.2 (List.mem_cons_of_mem _ hw), hh ▸ hm⟩
      · exact ⟨v, hr.mem_iff.2 (List.mem_cons_of_mem _ hw), hh ▸ hv'⟩
  | @kept v ds ht hv _ =>
    rw [namesDuplicate_of_var ht]
    -- `v` is a head already, so nothing is shared that was not before.
    exact ⟨.inl, fun h => h.elim id fun hr => ⟨v, hr, Equalities.mem_heads_iff.2 ⟨ds, hv⟩⟩⟩

theorem shared_after_iff (hf : s.FreshFor known slots) :
    (s.after slots).map.Shared ↔ s.map.Shared ∨ ¬s.AvoidsDuplicates slots := by
  rw [after_eq_foldl]
  refine Along.flaw_iff (fun s => s.map.Shared) (fun s t hn => ?_) hf
  obtain ⟨u, -, h⟩ := s.visit_spec t
  exact h.shared_iff hn

theorem shared_calls_iff {calls : List (List Term)} (hf : Along after Fresh s calls) :
    (calls.foldl after s).map.Shared ↔ s.map.Shared ∨ ¬Along after AvoidsDuplicates s calls := by
  rw [foldl_after, shared_after_iff (freshFor_flatten hf)]
  exact or_congr_right (not_congr along_calls.symm)

/-- No name gets into two places unless a slot names a duplicate on record. -/
theorem nodup_names_after_iff (hf : s.FreshFor known slots) (hs : s.map.names.Nodup) :
    (s.after slots).map.names.Nodup ↔ s.AvoidsDuplicates slots := by
  obtain ⟨hr, hnot⟩ := Equalities.nodup_names_iff.1 hs
  rw [Equalities.nodup_names_iff, shared_after_iff hf]
  simp [hnot, nodup_recorded_after hf hr]

theorem nodup_names_calls_iff {calls : List (List Term)} (hf : Along after Fresh s calls)
    (hs : s.map.names.Nodup) :
    (calls.foldl after s).map.names.Nodup ↔ Along after AvoidsDuplicates s calls := by
  rw [foldl_after, nodup_names_after_iff (freshFor_flatten hf) hs]
  exact along_calls.symm

/-- A call whose slots name no duplicate when it starts comes upon none: those
that it makes itself are new to its slots. -/
theorem avoidsDuplicates_of_start (hf : s.FreshFor known slots)
    (hk : ∀ t ∈ slots, ∀ v, t.var? = some v → v ∈ known)
    (hs : ∀ t ∈ slots, ¬s.map.namesDuplicate t = true) : s.AvoidsDuplicates slots := by
  induction slots generalizing s with
  | nil => trivial
  | cons t ts ih =>
    refine ⟨hs t List.mem_cons_self, ih hf.2 (fun t ht => hk t (List.mem_cons_of_mem _ ht)) ?_⟩
    intro t' ht' hd
    obtain ⟨v, hv, hm⟩ := Equalities.namesDuplicate_iff.1 hd
    obtain ⟨u, -, h⟩ := s.visit_spec t
    rcases h.mem_recorded hf.1 hm with hm | ⟨hnew, -⟩
    · exact hs t' (List.mem_cons_of_mem _ ht') ((namesDuplicate_of_var hv).2 hm)
    · exact hnew (hk t' (List.mem_cons_of_mem _ ht') v hv)

end Stage

def returningCalls : List (List Term) := [[.symbol "?a"], [.symbol "?b", .str "?b"]]

end QueryVars
