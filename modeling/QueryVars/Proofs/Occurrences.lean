import QueryVars.Proofs.Traces

/-!
# Occurrences of one variable

What becomes of a slot depends on all the slots before it, but only on those that
name its variable. So the group of a variable and the outputs of its occurrences
follow from the group that it had, whatever stands in between. The order of the
slots matters for the suffixes alone: they are handed out from left to right, one
to every slot that is renamed.
-/

namespace QueryVars

namespace Var

def occurrences (v : Var) (slots : List (Term × Term)) : List Term :=
  (slots.filter fun e => e.1.var? = some v).map Prod.snd

theorem occurrences_cons {v : Var} {t : Term} (u : Term) (slots : List (Term × Term))
    (ht : t.var? = some v) : v.occurrences ((t, u) :: slots) = u :: v.occurrences slots := by
  simp [occurrences, ht]

theorem occurrences_cons_of_ne {v : Var} {t : Term} (u : Term) (slots : List (Term × Term))
    (ht : t.var? ≠ some v) : v.occurrences ((t, u) :: slots) = v.occurrences slots := by
  simp [occurrences, ht]

/-- The group of `v` before, what its occurrences came out as, and its group
afterwards. -/
inductive Effect (v : Var) : Option (List Var) → List Var → Option (List Var) → Prop
  | unnamed {old} : Effect v old [] old
  | joined {group outs} : v.category.isGroundable = true →
      Effect v (some group) outs (some (group ++ outs))
  | opened {outs} : v.category.isGroundable = true → Effect v none (v :: outs) (some (v :: outs))
  | kept {group outs} : v.category.isGroundable = false →
      (∀ w ∈ outs, group.getLast? = some w) → Effect v (some group) outs (some group)
  | alone {outs} : v.category.isGroundable = false → (∀ w ∈ outs, w = v) →
      Effect v none (v :: outs) (some [v])

namespace Effect

variable {v w : Var} {group outs : List Var} {new : Option (List Var)}

/-- The first occurrence opens the group, and the others find it opened. -/
theorem first (h : v.Effect (some [v]) outs new) : v.Effect none (v :: outs) new := by
  cases h with
  | unnamed =>
    cases hg : v.category.isGroundable with
    | true => exact .opened hg
    | false => exact .alone hg (by simp)
  | joined hg => exact .opened hg
  | kept hg hall =>
    refine .alone hg fun w hw => ?_
    simpa using (hall w hw).symm

theorem duplicate (hg : v.category.isGroundable = true)
    (h : v.Effect (some (group ++ [w])) outs new) : v.Effect (some group) (w :: outs) new := by
  cases h with
  | unnamed => exact .joined hg
  | joined =>
    have hjoined : v.Effect (some group) (w :: outs) (some (group ++ w :: outs)) := .joined hg
    simpa using hjoined
  | kept hg' => simp [hg] at hg'

theorem last (hg : v.category.isGroundable = false) (hw : group.getLast? = some w)
    (h : v.Effect (some group) outs new) : v.Effect (some group) (w :: outs) new := by
  cases h with
  | unnamed => exact .kept hg (by simpa using hw)
  | joined hg' => simp [hg] at hg'
  | kept _ hall => exact .kept hg (List.forall_mem_cons.2 ⟨hw, hall⟩)

end Effect

end Var

namespace Stage

variable {s next : Stage} {t u : Term} {v : Var} {outs : List Var} {new : Option (List Var)}

theorem Visit.group?_of_ne (h : Visit s t u next) (hv : t.var? ≠ some v) :
    next.map.group? v = s.map.group? v := by
  rw [Equalities.group?, h.get?_of_ne hv, Equalities.group?]

/-- The slot in front of the others that name `v`. -/
theorem Visit.effect (h : Visit s t u next) (ht : t.var? = some v)
    (hrest : v.Effect (next.map.group? v) outs new) :
    ∃ w, u = .var w ∧ v.Effect (s.map.group? v) (w :: outs) new := by
  cases h with
  | constant hc => simp [ht] at hc
  | opened ht' hv =>
    obtain rfl := Option.some.inj (ht.symm.trans ht')
    refine ⟨v, rfl, ?_⟩
    rw [Equalities.group?, hv]
    exact .first (by simpa [Equalities.group?_insert] using hrest)
  | @repeated _ ds ht' hv hg =>
    obtain rfl := Option.some.inj (ht.symm.trans ht')
    refine ⟨s.duplicate v, rfl, ?_⟩
    rw [Equalities.group?, hv]
    exact .duplicate hg (by simpa [Equalities.group?_insert] using hrest)
  | @kept _ ds ht' hv hg =>
    obtain rfl := Option.some.inj (ht.symm.trans ht')
    refine ⟨_, rfl, ?_⟩
    rw [Equalities.group?, hv] at hrest ⊢
    exact hrest.last hg List.getLast?_cons

end Stage

theorem Equalities.Trace.effect {m n : Equalities} {slots : List (Term × Term)}
    (h : Trace m slots n) (v : Var) :
    ∃ outs : List Var, v.occurrences slots = outs.map .var ∧
      v.Effect (m.group? v) outs (n.group? v) := by
  induction h with
  | nil => exact ⟨[], rfl, .unnamed⟩
  | @cons m r t u next slots n hvisit _ ih =>
    obtain ⟨outs, houts, hrest⟩ := ih
    by_cases ht : t.var? = some v
    · obtain ⟨w, rfl, heffect⟩ := hvisit.effect ht hrest
      refine ⟨w :: outs, ?_, heffect⟩
      rw [Var.occurrences_cons _ _ ht, houts, List.map_cons]
    · refine ⟨outs, ?_, hvisit.group?_of_ne ht ▸ hrest⟩
      rw [Var.occurrences_cons_of_ne _ _ ht, houts]

-- ---------------------------------------------------------------------------
-- Renamed slots
-- ---------------------------------------------------------------------------

namespace Supply

def upcoming (s : Supply) (k : Nat) : Suffix := ⟨s.source (s.issued + k)⟩

def issue (s : Supply) (k : Nat) : Supply := { s with issued := s.issued + k }

theorem upcoming_advance (s : Supply) (k : Nat) :
    (s.advance .random).upcoming k = s.upcoming (k + 1) := by
  simp [upcoming, advance, Nat.add_assoc, Nat.add_comm 1 k]

theorem issue_advance (s : Supply) (k : Nat) : (s.advance .random).issue k = s.issue (k + 1) := by
  simp [issue, advance, Nat.add_assoc, Nat.add_comm 1 k]

end Supply

/-- The slots that are renamed, as their variables beside what they came out as:
the variable is groundable, and it was `known` before or is named by a slot in
front. -/
def renamedSlots (known : List Var) : List (Term × Term) → List (Var × Term)
  | [] => []
  | (t, u) :: rest =>
    match t.var? with
    | none => renamedSlots known rest
    | some v =>
      if v.category.isGroundable = true ∧ v ∈ known then (v, u) :: renamedSlots (v :: known) rest
      else renamedSlots (v :: known) rest

theorem renamedSlots_cons_of_none {known : List Var} {t : Term} (u : Term)
    (slots : List (Term × Term)) (ht : t.var? = none) :
    renamedSlots known ((t, u) :: slots) = renamedSlots known slots := by
  simp [renamedSlots, ht]

theorem renamedSlots_cons_of_some {known : List Var} {t : Term} {v : Var} (u : Term)
    (slots : List (Term × Term)) (ht : t.var? = some v) :
    renamedSlots known ((t, u) :: slots) =
      if v.category.isGroundable = true ∧ v ∈ known then (v, u) :: renamedSlots (v :: known) slots
      else renamedSlots (v :: known) slots := by
  simp [renamedSlots, ht]

theorem renamedSlots_occurrences {v : Var} (hg : v.category.isGroundable = true)
    (known : List Var) (slots : List (Term × Term)) :
    ((renamedSlots known slots).filter fun e => e.1 = v).map Prod.snd =
      if v ∈ known then v.occurrences slots else (v.occurrences slots).tail := by
  induction slots generalizing known with
  | nil => simp [renamedSlots, Var.occurrences]
  | cons e rest ih =>
    obtain ⟨t, u⟩ := e
    cases ht : t.var? with
    | none =>
      rw [renamedSlots_cons_of_none u rest ht, Var.occurrences_cons_of_ne u rest (by simp [ht]), ih]
    | some w =>
      have hrest := ih (w :: known)
      rw [renamedSlots_cons_of_some u rest ht]
      by_cases hw : w = v
      · subst hw
        rw [Var.occurrences_cons u rest ht]
        by_cases hk : w ∈ known
        · simpa [hg, hk] using hrest
        · simpa [hk] using hrest
      · rw [Var.occurrences_cons_of_ne u rest (by simp [ht, hw])]
        have hkeep : v ∈ w :: known ↔ v ∈ known := by simp [Ne.symm hw]
        simp only [hkeep] at hrest
        split
        next => simpa [hw] using hrest
        next => exact hrest

-- ---------------------------------------------------------------------------
-- Renamings
-- ---------------------------------------------------------------------------

/-- The variable of a slot and the name that it came out under, when it is groundable
and the two differ. -/
def Term.renaming? (t u : Term) : Option (Var × Var) :=
  match t.var?, u.var? with
  | some v, some w => if v.category.isGroundable = true ∧ v ≠ w then some (v, w) else none
  | _, _ => none

namespace Term

variable {t : Term} {v : Var}

theorem renaming?_of_none (ht : t.var? = none) (u : Term) : t.renaming? u = none := by
  simp [renaming?, ht]

theorem renaming?_same (ht : t.var? = some v) : t.renaming? (.var v) = none := by
  simp [renaming?, ht]

theorem renaming?_ungrounding (ht : t.var? = some v) (hg : v.category.isGroundable = false)
    (w : Var) : t.renaming? (.var w) = none := by
  simp [renaming?, ht, hg]

theorem renaming?_extend (ht : t.var? = some v) (hg : v.category.isGroundable = true)
    (suffix : Suffix) : t.renaming? (.var (v.extend suffix)) = some (v, v.extend suffix) := by
  simp [renaming?, ht, hg, (v.extend_ne suffix).symm]

end Term

def renamings (slots : List (Term × Term)) : List (Var × Var) :=
  slots.filterMap fun e => e.1.renaming? e.2

theorem renamings_cons (t u : Term) (slots : List (Term × Term)) :
    renamings ((t, u) :: slots) = (t.renaming? u).toList ++ renamings slots := by
  cases h : t.renaming? u <;> simp [renamings, h]

namespace Stage

variable {s next : Stage} {t u : Term} {known : List Var}

/-- Whatever a visit does to its slot, a suffix is drawn if and only if it renames. -/
theorem Visit.renaming (h : Visit s t u next) :
    (t.renaming? u = none ∧ next.run = s.run) ∨
      ∃ v, t.renaming? u = some (v, s.duplicate v) ∧ next.run =
        ⟨s.run.supply.advance .random, s.run.log ++ [.renamed v (s.duplicate v)]⟩ := by
  cases h with
  | constant ht => exact .inl ⟨Term.renaming?_of_none ht _, rfl⟩
  | opened ht => exact .inl ⟨Term.renaming?_same ht, rfl⟩
  | repeated ht _ hg => exact .inr ⟨_, Term.renaming?_extend ht hg _, rfl⟩
  | kept ht _ hg => exact .inl ⟨Term.renaming?_ungrounding ht hg _, rfl⟩

theorem Visit.renamedSlots_cons (h : Visit s t u next) (hk : ∀ v, v ∈ known ↔ v ∈ s.map.heads)
    (rest : List (Term × Term)) : ∃ later, (∀ v, v ∈ later ↔ v ∈ next.map.heads) ∧
      renamedSlots known ((t, u) :: rest) =
        (t.renaming? u).toList.map (fun e => (e.1, .var e.2)) ++ renamedSlots later rest := by
  cases h with
  | constant ht =>
    refine ⟨known, hk, ?_⟩
    rw [renamedSlots_cons_of_none _ _ ht, Term.renaming?_of_none ht]
    rfl
  | @opened v ht hv =>
    have hnew : v ∉ known := by
      rw [hk]
      exact Equalities.get?_eq_none_iff.1 hv
    refine ⟨v :: known, fun w => ?_, ?_⟩
    · rw [(Equalities.heads_open hv).mem_iff, List.mem_cons, List.mem_cons, hk]
    · rw [renamedSlots_cons_of_some _ _ ht, if_neg fun h => hnew h.2, Term.renaming?_same ht]
      rfl
  | @repeated v ds ht hv hg =>
    have hold : v ∈ known := (hk v).2 (Equalities.mem_heads_iff.2 ⟨ds, hv⟩)
    refine ⟨v :: known, fun w => ?_, ?_⟩
    · rw [Equalities.heads_append hv, ← hk, List.mem_cons, or_iff_right_of_imp]
      rintro rfl
      exact hold
    · rw [renamedSlots_cons_of_some _ _ ht, if_pos ⟨hg, hold⟩, duplicate,
        Term.renaming?_extend ht hg]
      rfl
  | @kept v ds ht hv hg =>
    have hold : v ∈ known := (hk v).2 (Equalities.mem_heads_iff.2 ⟨ds, hv⟩)
    refine ⟨v :: known, fun w => ?_, ?_⟩
    · rw [← hk, List.mem_cons, or_iff_right_of_imp]
      rintro rfl
      exact hold
    · rw [renamedSlots_cons_of_some _ _ ht, if_neg (by simp [hg]),
        Term.renaming?_ungrounding ht hg]
      rfl

theorem renamedSlots_out (s : Stage) (hk : ∀ v, v ∈ known ↔ v ∈ s.map.heads) (slots : List Term) :
    renamedSlots known (slots.zip (s.out slots)) =
      (renamings (slots.zip (s.out slots))).map fun e => (e.1, .var e.2) := by
  induction slots generalizing s known with
  | nil => rfl
  | cons t ts ih =>
    obtain ⟨u, hout, hv⟩ := s.out_cons t ts
    obtain ⟨later, hlater, hfirst⟩ := hv.renamedSlots_cons hk (ts.zip ((s.visit t).out ts))
    rw [hout, List.zip_cons_cons, hfirst, ih _ hlater, renamings_cons, List.map_append]

theorem renamings_out (s : Stage) (slots : List Term) :
    let renamed := renamings (slots.zip (s.out slots))
    renamed.map Prod.snd = renamed.mapIdx (fun k e => e.1.extend (s.run.supply.upcoming k)) ∧
      (s.after slots).run.supply = s.run.supply.issue renamed.length := by
  induction slots generalizing s with
  | nil => exact ⟨rfl, rfl⟩
  | cons t ts ih =>
    obtain ⟨u, hout, hv⟩ := s.out_cons t ts
    obtain ⟨houts, hsupply⟩ := ih (s.visit t)
    rw [hout, List.zip_cons_cons, after_cons]
    rcases hv.renaming with ⟨hnone, hrun⟩ | ⟨v, hsome, hrun⟩
    · rw [hrun] at houts hsupply
      rw [renamings_cons, hnone]
      exact ⟨houts, hsupply⟩
    · simp only [hrun, Supply.upcoming_advance] at houts
      rw [hrun] at hsupply
      rw [renamings_cons, hsome, Option.toList_some, List.singleton_append]
      refine ⟨?_, ?_⟩
      · rw [List.map_cons, List.mapIdx_cons]
        exact congrArg (s.duplicate v :: ·) houts
      · rw [hsupply, Supply.issue_advance, List.length_cons]

/-- For every map, every run and all slots: what becomes of constants, of the
group and the occurrences of every variable, and of the suffixes. -/
theorem rename_effect (s : Stage) (slots : List Term) :
    let pairs := slots.zip (s.out slots)
    let next := s.after slots
    let renamed := renamedSlots s.map.heads pairs
    (s.out slots).length = slots.length ∧
    (∀ e ∈ pairs, e.1.var? = none → e.2 = e.1) ∧
    (∀ v : Var, ∃ outs : List Var, v.occurrences pairs = outs.map .var ∧
      v.Effect (s.map.group? v) outs (next.map.group? v)) ∧
    (∀ v : Var, v.category.isGroundable = true → (renamed.filter fun e => e.1 = v).map Prod.snd =
      if v ∈ s.map.heads then v.occurrences pairs else (v.occurrences pairs).tail) ∧
    renamed.map Prod.snd = renamed.mapIdx (fun k e => .var (e.1.extend (s.run.supply.upcoming k))) ∧
    (∀ k e, renamed[k]? = some e → ∃ w, e.2 = .var w ∧
      w.name = e.1.name ++ (s.run.supply.upcoming k).text ∧ w.category = e.1.category) ∧
    next.run.supply = s.run.supply.issue renamed.length := by
  intro pairs next renamed
  have htrace := s.trace slots
  have hrenamed : renamed = (renamings pairs).map fun e => (e.1, .var e.2) :=
    s.renamedSlots_out (fun _ => Iff.rfl) slots
  obtain ⟨houts, hsupply⟩ := s.renamings_out slots
  have hextended : renamed.map Prod.snd =
      renamed.mapIdx fun k e => .var (e.1.extend (s.run.supply.upcoming k)) := by
    rw [hrenamed]
    refine List.ext_getElem? fun k => ?_
    have hk := congrArg (fun ws => ws[k]?.map Term.var) houts
    simpa [Function.comp_def] using hk
  refine ⟨s.length_out slots, htrace.constant, htrace.effect,
    fun v hg => renamedSlots_occurrences hg _ _, hextended, ?_, ?_⟩
  · intro k e he
    have hk := congrArg (fun us => us[k]?) hextended
    rw [List.getElem?_map, List.getElem?_mapIdx, he] at hk
    exact ⟨_, Option.some.inj hk, rfl, rfl⟩
  · rw [hrenamed, List.length_map]
    exact hsupply

end Stage

end QueryVars
