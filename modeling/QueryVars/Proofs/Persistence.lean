import QueryVars.Proofs.MapCodec
import QueryVars.Proofs.Sharing

/-!
# Running maps that can be stored

The JSON form of a map spells its groups, and reading it back checks them like
any others. A running map therefore reads back exactly as long as no duplicate
on record has come back as a slot. Once one has, neither this map nor any later
one of the run can be read again.
-/

namespace QueryVars

namespace Equalities

variable {m n : Equalities} {v : Var}

theorem ofJson_toJson_iff : ofJson m.toJson = .ok m ↔ m.names.Nodup := by
  rw [ofJson_toJson, Decoded.ofFault_eq_ok_iff]
  exact ofGroups_groups_iff

/-- A name stands twice in a map only as a head that is on record, provided that
nothing is on record twice. -/
theorem shared_of_count (hr : m.recorded.Nodup) (h : 2 ≤ m.names.count v) :
    v ∈ m.heads ∧ v ∈ m.recorded := by
  rw [m.names_perm.count_eq, List.count_append] at h
  have hheads := List.nodup_iff_count_le_one.1 m.nodup_heads v
  have hrecorded := List.nodup_iff_count_le_one.1 hr v
  exact ⟨List.count_pos_iff.1 (by omega), List.count_pos_iff.1 (by omega)⟩

theorem Shared.ofJson_toJson (hs : m.Shared) (hr : m.recorded.Nodup) :
    ∃ v, ofJson m.toJson = .error (.rejected (.sharedMember v)) ∧ v ∈ m.heads ∧ v ∈ m.recorded := by
  rcases m.ofGroups_groups with hok | ⟨v, herr, hcount⟩
  · exact absurd hs (nodup_names_iff.1 (nodup_names_of_ofGroups hok)).2
  · refine ⟨v, ?_, shared_of_count hr hcount⟩
    rw [Equalities.ofJson_toJson, herr]
    rfl

theorem Shared.grows (hs : m.Shared) (hg : m.Grows n) : n.Shared := by
  obtain ⟨v, hr, hh⟩ := hs
  exact ⟨v, hg.recorded hr, hg.heads hh⟩

end Equalities

namespace Stage

/-- The later calls may be none, which leaves the map itself. -/
theorem persists_iff {m : Equalities} {r : Run} {calls : List (List Term)} (hm : m.Initial)
    (hf : Along after Fresh ⟨m, r⟩ calls) :
    let final := calls.foldl after ⟨m, r⟩
    (Equalities.ofJson final.map.toJson = .ok final.map ↔
      Along after AvoidsDuplicates ⟨m, r⟩ calls) ∧
    (¬Along after AvoidsDuplicates ⟨m, r⟩ calls →
      ∀ later, Along after Fresh final later →
        let last := (later.foldl after final).map
        ∃ v, Equalities.ofJson last.toJson = .error (.rejected (.sharedMember v)) ∧
          v ∈ last.heads ∧ v ∈ last.recorded) := by
  intro final
  obtain ⟨hr, -⟩ := Equalities.nodup_names_iff.1 hm.nodup_names
  refine ⟨?_, ?_⟩
  · rw [Equalities.ofJson_toJson_iff]
    exact nodup_names_calls_iff hf hm.nodup_names
  · intro hback later hlater
    have hshared : final.map.Shared := (shared_calls_iff hf).2 (.inr hback)
    have hrecorded : (later.foldl after final).map.recorded.Nodup :=
      nodup_recorded_calls hlater (nodup_recorded_calls hf hr)
    exact (hshared.grows (grows_calls final later)).ofJson_toJson hrecorded

theorem persists_fails_on_return :
    let start : Stage := ⟨sampleMap, Run.start sampleBodies⟩
    let final := returningCalls.foldl after start
    let later := [[.symbol "?c"], [.str "?b"]]
    let last := (later.foldl after final).map
    Along after Fresh start returningCalls ∧ Along after Fresh final later ∧
      ¬Equalities.ofJson final.map.toJson = .ok final.map ∧
      ∃ v, Equalities.ofJson last.toJson = .error (.rejected (.sharedMember v)) ∧
        v ∈ last.heads ∧ v ∈ last.recorded := by
  intro start final later last
  have hf : Along after Fresh start returningCalls := by decide +kernel
  have hl : Along after Fresh final later := by decide +kernel
  have hd : ¬Along after AvoidsDuplicates start returningCalls := by decide +kernel
  obtain ⟨hiff, hlater⟩ := persists_iff (.ofGroups ofGroups_sampleGroups) hf
  exact ⟨hf, hl, mt hiff.1 hd, hlater hd later hl⟩

end Stage

end QueryVars
