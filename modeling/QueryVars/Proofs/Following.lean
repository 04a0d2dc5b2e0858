import Mathlib.Algebra.GroupWithZero.Nat
import Mathlib.Logic.Function.Iterate
import QueryVars.Proofs.Sharing

/-!
# Following drift

Drift has an entry for every duplicate on record, and only one, since nothing is on
record twice. Where a duplicate has come back as a slot it may be a head as well, so
that one step need not lead to the end. But every step leads to a name that was in
the map before: a rank that falls along the steps is kept by every visit, and with it
drift has no cycle, and its steps come to an end.
-/

namespace QueryVars

namespace Equalities

variable {m : Equalities} {v w d : Var} {ds : List Var} {rank : Var → Nat} {n : Nat}

-- ---------------------------------------------------------------------------
-- Entries
-- ---------------------------------------------------------------------------

theorem length_pairs (m : Equalities) :
    m.pairs.length = (m.groups.map fun e => e.2.length - 1).sum := by
  simp [pairs, groups, List.length_flatMap, Function.comp_def]

theorem drift_size (h : m.recorded.Nodup) : m.drift.size = m.pairs.length :=
  (drift_toList_perm h).length_eq.trans (List.length_map _)

theorem notMem_pairs_of_alone (h : m.group? v = some [v]) (d : Var) : (v, d) ∉ m.pairs := by
  rw [mem_pairs_iff_nameAt?]
  rintro ⟨k, hk⟩
  simp [nameAt?, h] at hk

/-- The entries of drift are the places behind the heads, and no name has two of
these. -/
theorem drift_entries (h : m.Reachable) :
    (∀ d v, m.drift.get? d = some v ↔ ∃ k, m.nameAt? v (k + 1) = some d) ∧
    (∀ d v w j k, m.nameAt? v (j + 1) = some d → m.nameAt? w (k + 1) = some d → v = w ∧ j = k) ∧
    m.drift.size = m.pairs.length ∧
    m.pairs.length = (m.groups.map fun e => e.2.length - 1).sum ∧
    ∀ v, m.group? v = some [v] → (∀ d, (v, d) ∉ m.pairs) ∧ ∀ d, m.drift.get? d ≠ some v := by
  have hr := h.nodup_recorded
  refine ⟨?_, ?_, drift_size hr, m.length_pairs, ?_⟩
  · intro d v
    rw [drift_get?_iff hr, mem_pairs_iff_nameAt?]
  · intro d v w j k
    exact place_unique hr
  · intro v hv
    refine ⟨notMem_pairs_of_alone hv, fun d hd => ?_⟩
    exact notMem_pairs_of_alone hv d ((drift_get?_iff hr).1 hd)

theorem reachable_on_return :
    Reachable (returningCalls.foldl Stage.after ⟨sampleMap, Run.start sampleBodies⟩).map :=
  .calls (.initial (.ofGroups ofGroups_sampleGroups)) (by decide +kernel)

/-- `?b` stands behind `?a` and heads a group of its own. -/
theorem drift_entries_on_return :
    let final := (returningCalls.foldl Stage.after ⟨sampleMap, Run.start sampleBodies⟩).map
    final.Reachable ∧ final.groups.map (fun e => e.2.length) = [3, 2] ∧ final.drift.size = 3 ∧
      ∀ d v, final.drift.get? d = some v ↔ ∃ k, final.nameAt? v (k + 1) = some d := by
  intro final
  have h : final.Reachable := reachable_on_return
  obtain ⟨hentries, -, hsize, hlength, -⟩ := drift_entries h
  refine ⟨h, by decide +kernel, ?_, hentries⟩
  rw [hsize, hlength]
  decide +kernel

-- ---------------------------------------------------------------------------
-- Ranks
-- ---------------------------------------------------------------------------

/-- The rank falls from a duplicate to its head, and is no more than the number of
duplicates. -/
structure Ranked (m : Equalities) (rank : Var → Nat) : Prop where
  falls : ∀ v d, (v, d) ∈ m.pairs → rank v < rank d
  bounded : ∀ v, rank v ≤ m.recorded.length

theorem ranked_of_nodup (h : m.names.Nodup) :
    m.Ranked fun v => if v ∈ m.recorded then 1 else 0 := by
  obtain ⟨-, hs⟩ := nodup_names_iff.1 h
  constructor
  · intro v d hd
    have hhead : v ∉ m.recorded := fun hv => hs ⟨v, hv, mem_heads_of_mem_pairs hd⟩
    have hdup : d ∈ m.recorded := mem_recorded_iff.2 ⟨v, hd⟩
    simp [hhead, hdup]
  · intro v
    split
    next hv => exact List.length_pos_of_mem hv
    next => exact Nat.zero_le _

theorem Ranked.opened (h : m.Ranked rank) (hv : m.duplicates.get? v = none) :
    (m.insert v []).Ranked rank := by
  constructor
  · exact fun w d hd => h.falls w d ((pairs_open hv).mem_iff.1 hd)
  · rw [(recorded_open hv).length_eq]
    exact h.bounded

/-- A new duplicate goes on top of its head: nothing in the map leads to it. -/
theorem Ranked.appended (h : m.Ranked rank) (hv : m.duplicates.get? v = some ds)
    (hd : d ∉ m.names) :
    (m.insert v (ds ++ [d])).Ranked fun w => if w = d then rank v + 1 else rank w := by
  have hold : ∀ w ∈ m.names, w ≠ d := fun w hw he => hd (he ▸ hw)
  have hhead : v ≠ d := hold v (mem_names_iff.2 (.inl (mem_heads_iff.2 ⟨ds, hv⟩)))
  constructor
  · intro w e he
    rcases List.mem_cons.1 ((pairs_append hv d).mem_iff.1 he) with hnew | hpair
    · obtain ⟨rfl, rfl⟩ := Prod.mk.inj hnew
      simp [hhead]
    · obtain ⟨hw, he⟩ := (mem_names_of_mem_pairs hpair).imp (hold w) (hold e)
      simpa [hw, he] using h.falls w e hpair
  · intro w
    rw [(recorded_append hv d).length_eq, List.length_cons]
    have hw := h.bounded w
    have hv := h.bounded v
    split <;> omega

end Equalities

namespace Stage

theorem Visit.ranked {known : List Var} {s next : Stage} {t u : Term} (hn : s.NewFor known t)
    (h : Visit s t u next) (hs : ∃ rank, s.map.Ranked rank) : ∃ rank, next.map.Ranked rank := by
  obtain ⟨rank, hrank⟩ := hs
  cases h with
  | constant | kept => exact ⟨rank, hrank⟩
  | opened _ hv => exact ⟨rank, hrank.opened hv⟩
  | repeated ht hv hg => exact ⟨_, hrank.appended hv (hn.duplicate_notMem ht hv hg).2⟩

end Stage

namespace Equalities

variable {m : Equalities} {v d : Var} {rank : Var → Nat} {n : Nat}

theorem Reachable.ranked (h : m.Reachable) : ∃ rank, m.Ranked rank := by
  induction h with
  | initial h => exact ⟨_, ranked_of_nodup h.nodup_names⟩
  | call _ hf ih =>
    exact Stage.visit_induction (I := fun s => ∃ rank, s.map.Ranked rank) hf
      (fun _ _ _ _ hn h => h.ranked hn) ih

-- ---------------------------------------------------------------------------
-- Steps
-- ---------------------------------------------------------------------------

theorem Ranked.resolve_lt (h : m.Ranked rank) (hr : m.recorded.Nodup)
    (hv : m.drift.contains v = true) : rank (m.drift.resolve v) < rank v := by
  obtain ⟨w, hw⟩ := mem_recorded_iff.1 ((drift_contains_iff hr).1 hv)
  rw [Drift.resolve, (drift_get?_iff hr).2 hw]
  exact h.falls w v hw

theorem Ranked.resolve_le (h : m.Ranked rank) (hr : m.recorded.Nodup) (v : Var) :
    rank (m.drift.resolve v) ≤ rank v := by
  by_cases hv : v ∈ m.recorded
  · exact (h.resolve_lt hr ((drift_contains_iff hr).2 hv)).le
  · rw [Drift.resolve, (drift_get?_eq_none_iff hr).2 hv]
    exact Nat.le_refl _

theorem Ranked.iterate_le (h : m.Ranked rank) (hr : m.recorded.Nodup) (v : Var) (n : Nat) :
    rank (m.drift.resolve^[n] v) ≤ rank v := by
  induction n generalizing v with
  | zero => exact Nat.le_refl _
  | succ n ih => exact (ih (m.drift.resolve v)).trans (h.resolve_le hr v)

/-- The steps that lead on are no more than the rank that they start from. -/
theorem Ranked.iterate_add_le (h : m.Ranked rank) (hr : m.recorded.Nodup)
    (hn : ∀ k < n, m.drift.contains (m.drift.resolve^[k] v) = true) :
    rank (m.drift.resolve^[n] v) + n ≤ rank v := by
  induction n with
  | zero => exact Nat.le_refl _
  | succ n ih =>
    have hbefore := ih fun k hk => hn k (hk.trans n.lt_succ_self)
    have hstep := h.resolve_lt hr (hn n n.lt_succ_self)
    rw [Function.iterate_succ_apply']
    omega

theorem Ranked.exists_end (h : m.Ranked rank) (hr : m.recorded.Nodup) (v : Var) :
    ∃ n ≤ rank v, ¬m.drift.contains (m.drift.resolve^[n] v) = true := by
  by_contra hno
  have hall : ∀ k < rank v + 1, m.drift.contains (m.drift.resolve^[k] v) = true := by
    intro k hk
    by_contra hend
    exact hno ⟨k, Nat.le_of_lt_succ hk, hend⟩
  have := h.iterate_add_le hr hall
  omega

/-- From every name the steps of drift come to an end, in no more of them than drift
has entries, and from no duplicate do they lead back to it. -/
theorem following_ends (h : m.Reachable) :
    (∀ v, ∃ n ≤ m.drift.size, ¬m.drift.contains (m.drift.resolve^[n] v) = true) ∧
    ∀ d, m.drift.contains d = true → ∀ n, 0 < n → m.drift.resolve^[n] d ≠ d := by
  have hr := h.nodup_recorded
  obtain ⟨rank, hrank⟩ := h.ranked
  refine ⟨?_, ?_⟩
  · intro v
    obtain ⟨n, hn, hend⟩ := hrank.exists_end hr v
    have hsize : m.drift.size = m.recorded.length := by rw [drift_size hr, recorded, List.length_map]
    exact ⟨n, hsize ▸ hn.trans (hrank.bounded v), hend⟩
  · rintro d hd (_ | n) hn hback
    · cases hn
    · have hlt := hrank.resolve_lt hr hd
      have hle := hrank.iterate_le hr (m.drift.resolve d) n
      rw [Function.iterate_succ_apply] at hback
      rw [hback] at hle
      omega

/-- What `?b` was renamed to the second time leads to `?b`, and this to `?a`. -/
theorem following_ends_on_return :
    let final := (returningCalls.foldl Stage.after ⟨sampleMap, Run.start sampleBodies⟩).map
    ∃ d : Var, d.name = "?b__" ++ sampleBodies 1 ∧
      final.Reachable ∧ final.drift.contains d = true ∧
      final.drift.contains (final.drift.resolve d) = true ∧
      (∃ n ≤ final.drift.size, ¬final.drift.contains (final.drift.resolve^[n] d) = true) ∧
      ∀ n, 0 < n → final.drift.resolve^[n] d ≠ d := by
  intro final
  have h : final.Reachable := reachable_on_return
  obtain ⟨hends, hback⟩ := following_ends h
  let d : Var := ⟨"?b__" ++ sampleBodies 1, .joinCapable, by decide⟩
  have hd : final.drift.contains d = true := by decide +kernel
  exact ⟨d, rfl, h, hd, by decide +kernel, hends d, hback d hd⟩

end Equalities

end QueryVars
