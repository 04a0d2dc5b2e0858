import QueryVars.Proofs.Categories
import QueryVars.Proofs.Logs

/-!
# A second pass

Renaming the repeats of a slot list on its own causes drift if and only if a groundable
variable is repeated. Where none is, all that happens is that raw tokens are written as
the variables that they name. What comes out of a first pass is of that kind: its
groundable names differ from slot to slot, also where a name of the source looks like a
generated one. So a second pass finds nothing left to do.
-/

namespace QueryVars

def Term.respellSlot (t : Term) : Term := (t.var?.map .var).getD t

/-- No groundable variable is named by two slots, be it raw or in canonical form. -/
def Unrepeated (slots : List Term) : Prop :=
  slots.Pairwise fun t u =>
    ∀ v, v.category.isGroundable = true → t.var? = some v → u.var? ≠ some v

-- ---------------------------------------------------------------------------
-- When there is drift
-- ---------------------------------------------------------------------------

theorem renamedSlots_eq_nil_iff {known : List Var} {ts us : List Term}
    (hlength : us.length = ts.length) : renamedSlots known (ts.zip us) = [] ↔
      (∀ t ∈ ts, ∀ v ∈ known, v.category.isGroundable = true → t.var? ≠ some v) ∧
        Unrepeated ts := by
  induction ts generalizing known us with
  | nil => simp [renamedSlots, Unrepeated]
  | cons t ts ih =>
    obtain ⟨u, us, rfl⟩ := List.exists_cons_of_length_eq_add_one hlength
    have hrest := Nat.succ.inj hlength
    rw [List.zip_cons_cons, Unrepeated, List.pairwise_cons, ← Unrepeated, List.forall_mem_cons]
    cases ht : t.var? with
    | none =>
      rw [renamedSlots_cons_of_none u _ ht, ih hrest]
      simp
    | some v =>
      rw [renamedSlots_cons_of_some u _ ht]
      by_cases hrepeat : v.category.isGroundable = true ∧ v ∈ known
      · rw [if_pos hrepeat]
        refine iff_of_false (List.cons_ne_nil _ _) ?_
        rintro ⟨⟨hfirst, -⟩, -⟩
        exact hfirst v hrepeat.2 hrepeat.1 rfl
      · rw [if_neg hrepeat, ih hrest]
        constructor
        · rintro ⟨hknown, hlater⟩
          refine ⟨⟨?_, fun u hu w hw => hknown u hu w (List.mem_cons_of_mem _ hw)⟩, ?_, hlater⟩
          · rintro w hw hg ⟨⟩
            exact hrepeat ⟨hg, hw⟩
          · rintro u hu w hg ⟨⟩
            exact hknown u hu v List.mem_cons_self hg
        · rintro ⟨⟨-, hknown⟩, hfirst, hlater⟩
          refine ⟨fun u hu w hw hg => ?_, hlater⟩
          rcases List.mem_cons.1 hw with rfl | hw
          · exact hfirst u hu w hg rfl
          · exact hknown u hu w hw hg

theorem Equalities.isEmpty_drift_iff {m : Equalities} :
    m.drift.isEmpty = true ↔ m.pairs = [] := by
  rw [drift, Drift.isEmpty, Drift.ofList, SortedMap.isEmpty_ofList, List.map_eq_nil_iff]

theorem Stage.pairs_after_eq_nil_iff (r : Run) (slots : List Term) :
    (after ⟨.empty, r⟩ slots).map.pairs = [] ↔ Unrepeated slots := by
  let s : Stage := ⟨.empty, r⟩
  have hpairs : (s.after slots).map.pairs.Perm (renamings (slots.zip (s.out slots))) :=
    (s.after_accounts slots).pairs
  have hslots : renamedSlots [] (slots.zip (s.out slots)) =
      (renamings (slots.zip (s.out slots))).map fun e => (e.1, .var e.2) :=
    s.renamedSlots_out (fun _ => Iff.rfl) slots
  calc (s.after slots).map.pairs = []
      ↔ renamings (slots.zip (s.out slots)) = [] := by
        rw [← List.length_eq_zero_iff, hpairs.length_eq, List.length_eq_zero_iff]
    _ ↔ renamedSlots [] (slots.zip (s.out slots)) = [] := by rw [hslots, List.map_eq_nil_iff]
    _ ↔ Unrepeated slots := by
        rw [renamedSlots_eq_nil_iff (s.length_out slots)]
        simp

-- ---------------------------------------------------------------------------
-- Nothing to rename
-- ---------------------------------------------------------------------------

namespace Equalities

variable {m : Equalities} {v w : Var} {ds : List Var} {ts : List Term}

theorem duplicates_eq_nil (hm : m.pairs = []) (hv : m.duplicates.get? v = some ds) : ds = [] := by
  refine List.eq_nil_iff_forall_not_mem.2 fun d hd => ?_
  have hpair : (v, d) ∈ m.pairs := (m.mem_pairs_iff v d).2 ⟨ds, hv, hd⟩
  simp [hm] at hpair

/-- Where no duplicate is on record, a variable that is new or ungrounding is recorded as
itself. -/
theorem record_unrepeated (hm : m.pairs = [])
    (hv : v ∈ m.heads → v.category.isGroundable = false) :
    ∃ next : Equalities, next.pairs = [] ∧ (∀ w ∈ next.heads, w = v ∨ w ∈ m.heads) ∧
      m.record v = pure (v, next) := by
  cases hget : m.duplicates.get? v with
  | none =>
    refine ⟨m.insert v [], List.perm_nil.1 (hm ▸ pairs_open hget), ?_, record_first hget⟩
    exact fun w hw => List.mem_cons.1 ((heads_open hget).mem_iff.1 hw)
  | some ds =>
    obtain rfl := duplicates_eq_nil hm hget
    exact ⟨m, hm, fun w => .inr, record_ungrounding hget (hv (mem_heads_iff.2 ⟨[], hget⟩))⟩

theorem rename_unrepeated (hm : m.pairs = [])
    (hknown : ∀ t ∈ ts, ∀ v ∈ m.heads, v.category.isGroundable = true → t.var? ≠ some v)
    (hts : Unrepeated ts) :
    ∃ n : Equalities, n.pairs = [] ∧ m.rename ts = pure (ts.map Term.respellSlot, n) := by
  induction ts generalizing m with
  | nil => exact ⟨m, hm, rfl⟩
  | cons t ts ih =>
    obtain ⟨hfirst, hlater⟩ := List.pairwise_cons.1 hts
    obtain ⟨ht, hrest⟩ := List.forall_mem_cons.1 hknown
    cases hvar : t.var? with
    | none =>
      obtain ⟨n, hn, hrun⟩ := ih hm hrest hlater
      refine ⟨n, hn, ?_⟩
      rw [rename_cons_of_none ts hvar, hrun]
      simp [Term.respellSlot, hvar]
    | some v =>
      have hv : v ∈ m.heads → v.category.isGroundable = false :=
        fun hv => Bool.eq_false_iff.2 fun hg => ht v hv hg hvar
      obtain ⟨next, hnext, hheads, hrecord⟩ := record_unrepeated hm hv
      have hknown' : ∀ u ∈ ts, ∀ w ∈ next.heads, w.category.isGroundable = true →
          u.var? ≠ some w := by
        intro u hu w hw hg
        rcases hheads w hw with rfl | hw
        · exact hfirst u hu w hg hvar
        · exact hrest u hu w hw hg
      obtain ⟨n, hn, hrun⟩ := ih hnext hknown' hlater
      refine ⟨n, hn, ?_⟩
      rw [rename_cons_of_some ts hvar]
      simp [hrecord, hrun, Term.respellSlot, hvar]

end Equalities

theorem renameRepeats_unrepeated {slots : List Term} (h : Unrepeated slots) :
    renameRepeats slots = pure (slots.map Term.respellSlot, .empty) := by
  obtain ⟨n, hn, hrun⟩ := Equalities.rename_unrepeated (m := .empty) rfl nofun h
  have hdrift : n.drift = .empty := by
    rw [Equalities.drift, hn]
    rfl
  simp [renameRepeats, hrun, hdrift]

-- ---------------------------------------------------------------------------
-- After a first pass
-- ---------------------------------------------------------------------------

namespace Stage

variable {s next : Stage} {t u : Term} {r : Run} {slots : List Term}

theorem Visit.respellSlot (h : Visit s t u next) : u.respellSlot = u := by
  cases h with
  | constant ht => simp [Term.respellSlot, ht]
  | opened | repeated | kept => rfl

theorem respellSlot_out (s : Stage) (slots : List Term) :
    (s.out slots).map Term.respellSlot = s.out slots := by
  induction slots generalizing s with
  | nil => rfl
  | cons t ts ih =>
    obtain ⟨u, hout, h⟩ := s.out_cons t ts
    rw [hout, List.map_cons, h.respellSlot, ih]

theorem namesGroundable_of_out {e : Term × Term} {v : Var}
    (he : e ∈ slots.zip (out ⟨.empty, r⟩ slots)) (hv : e.2.var? = some v)
    (hg : v.category.isGroundable = true) : e.2 = .var v ∧ e.1.namesGroundable = true := by
  cases ht : e.1.var? with
  | none =>
    rw [(trace _ _).constant e he ht, ht] at hv
    cases hv
  | some w =>
    obtain ⟨w', hw', hcategory⟩ := (trace ⟨.empty, r⟩ slots).category_iff e he w ht
    have hempty : ¬Equalities.empty.Misleads w := by
      rintro ⟨-, ds, d, hds, -⟩
      cases hds
    rw [hw'] at hv
    obtain rfl := Option.some.inj hv
    exact ⟨hw', Term.namesGroundable_iff.2 ⟨w, ht, hcategory.2 hempty ▸ hg⟩⟩

theorem unrepeated_out (hf : Fresh ⟨.empty, r⟩ slots) : Unrepeated (out ⟨.empty, r⟩ slots) := by
  have havoids : AvoidsDuplicates ⟨.empty, r⟩ slots := by
    refine avoidsDuplicates_of_start hf
      (fun t ht v hv => List.mem_filterMap.2 ⟨t, ht, hv⟩) fun t _ hd => ?_
    obtain ⟨v, -, hv⟩ := Equalities.namesDuplicate_iff.1 hd
    cases hv
  have hzip : (slots.zip (out ⟨.empty, r⟩ slots)).map Prod.snd = out ⟨.empty, r⟩ slots :=
    List.map_snd_zip (length_out _ _).le
  rw [Unrepeated, ← hzip, List.pairwise_map]
  have hnodup := (nodup_names_after_iff hf .nil).2 havoids
  refine ((trace _ slots).distinct hnodup).imp_of_mem fun he hf hdistinct v hg hv hw => ?_
  obtain ⟨hfirst, hgroundable⟩ := namesGroundable_of_out he hv hg
  obtain ⟨hlater, hgroundable'⟩ := namesGroundable_of_out hf hw hg
  exact hdistinct hgroundable hgroundable' (by rw [hfirst, hlater])

end Stage

/-- In every run: there is no drift if and only if no groundable variable is named by
two slots, and then the variables are written in canonical form and nothing is drawn.
Whatever the slots are, if the suffixes drawn for them were fresh, what has come out
passes through any later run unchanged: without drift, and without a draw. -/
theorem second_pass_is_idle (slots : List Term) (r : Run) :
    let (out, drift) := ((renameRepeats slots).run r).1
    (drift.isEmpty = true ↔ Unrepeated slots) ∧
    (drift.isEmpty = true → renameRepeats slots = pure (slots.map Term.respellSlot, .empty)) ∧
    (Stage.Fresh ⟨.empty, r⟩ slots → renameRepeats out = pure (out, .empty)) := by
  let s : Stage := ⟨.empty, r⟩
  have hdrift : (s.after slots).map.drift.isEmpty = true ↔ Unrepeated slots :=
    Equalities.isEmpty_drift_iff.trans (Stage.pairs_after_eq_nil_iff r slots)
  refine ⟨hdrift, fun h => renameRepeats_unrepeated (hdrift.1 h), fun hf => ?_⟩
  have hsecond := renameRepeats_unrepeated (Stage.unrepeated_out hf)
  rwa [Stage.respellSlot_out] at hsecond

def lookalikes : List Term :=
  [.symbol "?x", .symbol "!!u", .str "?x", .symbol "?x__4f1e2d3c4b5a49788796a5b4c3d2e1f0",
    .symbol "!!u", .literal (.int 3)]

theorem second_pass_is_idle_lookalikes :
    let r := Run.start sampleBodies
    let out := ((renameRepeats lookalikes).run r).1.1
    Stage.Fresh ⟨.empty, r⟩ lookalikes ∧ renameRepeats out = pure (out, .empty) :=
  have hf : Stage.Fresh ⟨.empty, Run.start sampleBodies⟩ lookalikes := by decide +kernel
  ⟨hf, (second_pass_is_idle lookalikes (Run.start sampleBodies)).2.2 hf⟩

end QueryVars
