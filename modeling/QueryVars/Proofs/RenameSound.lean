import QueryVars.Proofs.Sharing
import QueryVars.Proofs.Traces

/-!
# Renaming is sound over whole runs

A run that is never handed a duplicate on record leaves no accidental join: the
names it gives to groundable variables differ from slot to slot. No source
variable is lost either, since drift leads from every name that was given back
to the variable that stood in its slot. Both hold for any number of calls.
-/

namespace QueryVars

/-- The slot names a variable whose repetition would be a join. -/
def Term.namesGroundable (t : Term) : Bool := t.var?.any (·.category.isGroundable)

theorem Term.namesGroundable_iff {t : Term} :
    t.namesGroundable = true ↔ ∃ v, t.var? = some v ∧ v.category.isGroundable = true := by
  unfold namesGroundable
  cases t.var? <;> simp

namespace Equalities.Trace

variable {m n : Equalities} {slots : List (Term × Term)}

/-- Seen from the end: a map in which no name has two places got every name of a
groundable slot only once. -/
theorem new_names (h : Trace m slots n) (hn : n.names.Nodup) :
    ∀ e ∈ slots, e.1.namesGroundable = true → ∀ w, e.2 = .var w → w ∉ m.names := by
  induction h with
  | nil => simp
  | cons hv h ih =>
    have hnext := h.nodup_names hn
    intro e he hg w hw hm
    rcases hv.names_perm with ⟨hplain, hp⟩ | ⟨w', hu, hp⟩
    · rcases List.mem_cons.1 he with rfl | he
      · obtain ⟨v, hs, hgv⟩ := Term.namesGroundable_iff.1 hg
        simp [hplain v hs] at hgv
      · exact ih hn e he hg w hw (hp.mem_iff.2 hm)
    · rcases List.mem_cons.1 he with rfl | he
      · obtain rfl := Term.var.inj (hu.symm.trans hw)
        exact (List.nodup_cons.1 (hp.nodup_iff.1 hnext)).1 hm
      · exact ih hn e he hg w hw (hp.mem_iff.2 (List.mem_cons_of_mem _ hm))

theorem distinct (h : Trace m slots n) (hn : n.names.Nodup) :
    slots.Pairwise fun e f =>
      e.1.namesGroundable = true → f.1.namesGroundable = true → e.2.text? ≠ f.2.text? := by
  induction h with
  | nil => exact .nil
  | cons hv h ih =>
    refine List.pairwise_cons.2 ⟨?_, ih hn⟩
    intro f hf he hg heq
    obtain ⟨v, hs, -⟩ := Term.namesGroundable_iff.1 he
    obtain ⟨w, rfl, hw⟩ := hv.grouped hs
    obtain ⟨v', hs', -⟩ := Term.namesGroundable_iff.1 hg
    obtain ⟨w', hw', -⟩ := h.grouped f hf v' hs'
    have hsame : w = w' := Var.ext (by simpa [hw', Term.text?] using heq)
    exact h.new_names hn f hf hg w' hw' (hsame ▸ hw.mem_names)

end Equalities.Trace

-- ---------------------------------------------------------------------------
-- Soundness
-- ---------------------------------------------------------------------------

namespace Stage

def rewritten (s : Stage) (calls : List (List Term)) : List (Term × Term) :=
  calls.flatten.zip (s.outs calls).flatten

def finalDrift (s : Stage) (calls : List (List Term)) : Drift := (calls.foldl after s).map.drift

structure Sound (s : Stage) (calls : List (List Term)) : Prop where
  shape : (s.outs calls).map List.length = calls.map List.length
  distinct : (s.rewritten calls).Pairwise fun e f =>
    e.1.namesGroundable = true → f.1.namesGroundable = true → e.2.text? ≠ f.2.text?
  resolved : ∀ e ∈ s.rewritten calls, ∀ v, e.1.var? = some v →
    ∃ w, e.2 = .var w ∧ (s.finalDrift calls).resolve w = v
  /-- Two slots lead to one original exactly if they named one variable. -/
  joined : ∀ e ∈ s.rewritten calls, ∀ f ∈ s.rewritten calls, ∀ v w,
    e.1.var? = some v → f.1.var? = some w →
      (e.2.var?.map (s.finalDrift calls).resolve = f.2.var?.map (s.finalDrift calls).resolve ↔ v = w)
  constant : ∀ e ∈ s.rewritten calls, e.1.var? = none → e.2 = e.1

theorem rename_sound {m : Equalities} {r : Run} {calls : List (List Term)} (hm : m.Initial)
    (hf : Along after Fresh ⟨m, r⟩ calls)
    (hd : Along after (fun s slots => ∀ t ∈ slots, ¬s.map.namesDuplicate t = true) ⟨m, r⟩ calls) :
    Sound ⟨m, r⟩ calls := by
  have hflat : FreshFor [] ⟨m, r⟩ calls.flatten := freshFor_flatten hf
  have hall : AvoidsDuplicates ⟨m, r⟩ calls.flatten := by
    refine along_calls.1 ((hf.and hd).mono ?_)
    rintro s slots ⟨hf, hd⟩
    exact avoidsDuplicates_of_start hf (fun t ht v hv => List.mem_filterMap.2 ⟨t, ht, hv⟩) hd
  have hnodup := (nodup_names_after_iff hflat hm.nodup_names).2 hall
  have hslots : rewritten ⟨m, r⟩ calls = calls.flatten.zip (out ⟨m, r⟩ calls.flatten) := by
    rw [rewritten, flatten_outs]
  have hresolved : ∀ e ∈ rewritten ⟨m, r⟩ calls, ∀ v, e.1.var? = some v →
      ∃ w, e.2 = .var w ∧ (finalDrift ⟨m, r⟩ calls).resolve w = v := by
    rw [hslots, finalDrift, foldl_after]
    intro e he v hv
    obtain ⟨w, hu, hw⟩ := (trace _ _).grouped e he v hv
    exact ⟨w, hu, hw.resolve hnodup⟩
  refine ⟨length_outs _ calls, ?_, hresolved, ?_, ?_⟩
  · rw [hslots]
    exact (trace _ _).distinct hnodup
  · intro e he f hf v w hv hw
    obtain ⟨v', hv', rfl⟩ := hresolved e he v hv
    obtain ⟨w', hw', rfl⟩ := hresolved f hf w hw
    simp [hv', hw', Term.var?]
  · rw [hslots]
    exact (trace _ _).constant

theorem rename_sound_preloaded :
    Along after Fresh ⟨sampleMap, Run.start sampleBodies⟩ sampleCalls ∧
      Along after (fun s slots => ∀ t ∈ slots, ¬s.map.namesDuplicate t = true)
        ⟨sampleMap, Run.start sampleBodies⟩ sampleCalls ∧
      Sound ⟨sampleMap, Run.start sampleBodies⟩ sampleCalls :=
  have hf : Along after Fresh ⟨sampleMap, Run.start sampleBodies⟩ sampleCalls := by decide +kernel
  have hd : Along after (fun s slots => ∀ t ∈ slots, ¬s.map.namesDuplicate t = true)
      ⟨sampleMap, Run.start sampleBodies⟩ sampleCalls := by decide +kernel
  ⟨hf, hd, rename_sound (.ofGroups ofGroups_sampleGroups) hf hd⟩

end Stage

end QueryVars
