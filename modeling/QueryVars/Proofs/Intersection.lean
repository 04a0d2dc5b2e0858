import QueryVars.Drift.Intersect

/-!
# Intersecting drift maps

Reconciling adds branch after branch to the entries seen so far, and entry after
entry of a branch: `merge_spec` says what that comes to. It goes through if no two
branches lead one duplicate to different heads, and what it returns then depends on
the keys alone: those of every branch.
-/

namespace QueryVars.Drift

variable {seen next d e : Drift} {branches : List Drift} {entries rest : List (Var × Var)}
  {common vs ws : List Var} {v w a b head : Var}

/-- No duplicate leads to different heads in the two maps. -/
def Consistent (d e : Drift) : Prop := ∀ v a b, d.get? v = some a → e.get? v = some b → a = b

-- ---------------------------------------------------------------------------
-- One branch
-- ---------------------------------------------------------------------------

theorem get?_insert (d : Drift) (v w head : Var) :
    Drift.get? ⟨d.heads.insert v head⟩ w = if w = v then some head else d.get? w := by
  simp only [Drift.get?, SortedMap.get?_insert, Std.LawfulEqOrd.compare_eq_iff_eq]

theorem lookup_cons (v w head : Var) (rest : List (Var × Var)) :
    SortedMap.lookup v ((w, head) :: rest) =
      if v = w then some head else SortedMap.lookup v rest := by
  simp only [SortedMap.lookup, Std.LawfulEqOrd.compare_eq_iff_eq]

theorem lt_of_lookup (hs : ((w, head) :: rest).Pairwise fun a b => compare a.1 b.1 = .lt)
    (h : SortedMap.lookup v rest = some b) : compare w v = .lt := by
  obtain ⟨hfirst, hrest⟩ := List.pairwise_cons.1 hs
  have hmem : (v, b) ∈ rest := (SortedMap.mem_iff_lookup hrest v b).2 h
  exact hfirst (v, b) hmem

theorem ne_of_lookup (hs : ((w, head) :: rest).Pairwise fun a b => compare a.1 b.1 = .lt)
    (h : SortedMap.lookup v rest = some b) : v ≠ w := by
  rintro rfl
  simpa using lt_of_lookup hs h

/-- What is seen leads `v` to `a`, and the entries lead it to another head, `b`. -/
def Clash (seen : Drift) (entries : List (Var × Var)) (v a b : Var) : Prop :=
  seen.get? v = some a ∧ SortedMap.lookup v entries = some b ∧ a ≠ b

theorem merge_cons (seen : Drift) (w head : Var) (rest : List (Var × Var)) :
    (∃ known, seen.get? w = some known ∧ known ≠ head ∧
      seen.merge ((w, head) :: rest) = .error (.inconsistentDrift w known head)) ∨
    ∃ next : Drift, seen.merge ((w, head) :: rest) = next.merge rest ∧
      (∀ known, seen.get? w = some known → known = head) ∧
      ∀ v, next.get? v = if v = w then some head else seen.get? v := by
  rw [merge]
  split
  next hw =>
    refine .inr ⟨_, rfl, ?_, fun v => get?_insert seen w v head⟩
    intro known hk
    rw [hw] at hk
    cases hk
  next known hw =>
    by_cases hk : known = head
    · refine .inr ⟨seen, if_pos hk, ?_, ?_⟩
      · intro k h
        rw [hw] at h
        exact (Option.some.inj h).symm.trans hk
      · intro v
        split
        next hv => rw [hv, hw, hk]
        next => rfl
    · exact .inl ⟨known, hw, hk, if_neg hk⟩

theorem clash_cons_iff (hs : ((w, head) :: rest).Pairwise fun a b => compare a.1 b.1 = .lt)
    (hw : ∀ known, seen.get? w = some known → known = head)
    (hnext : ∀ v, next.get? v = if v = w then some head else seen.get? v) :
    seen.Clash ((w, head) :: rest) v a b ↔ next.Clash rest v a b := by
  unfold Clash
  rw [lookup_cons, hnext]
  by_cases hv : v = w
  · subst hv
    rw [if_pos rfl, if_pos rfl]
    constructor
    · rintro ⟨ha, hb, hne⟩
      exact absurd ((hw a ha).trans (Option.some.inj hb)) hne
    · rintro ⟨-, hb, -⟩
      exact absurd rfl (ne_of_lookup hs hb)
  · rw [if_neg hv, if_neg hv]

/-- All that merging can come to: what is seen is joined with the entries, or the
least clash is reported. -/
inductive Merged (seen : Drift) (entries : List (Var × Var)) : Except Fault Drift → Prop
  | joined {union : Drift} (hc : ∀ v a b, ¬seen.Clash entries v a b)
      (hu : ∀ v a, union.get? v = some a ↔
        seen.get? v = some a ∨ SortedMap.lookup v entries = some a) :
      Merged seen entries (.ok union)
  | clash {v a b : Var} (h : seen.Clash entries v a b)
      (hleast : ∀ w c d, seen.Clash entries w c d → (compare v w).isLE) :
      Merged seen entries (.error (.inconsistentDrift v a b))

theorem merge_spec (seen : Drift) (hs : entries.Pairwise fun a b => compare a.1 b.1 = .lt) :
    Merged seen entries (seen.merge entries) := by
  induction entries generalizing seen with
  | nil => exact .joined (by simp [Clash, SortedMap.lookup]) (by simp [SortedMap.lookup])
  | cons entry rest ih =>
    obtain ⟨w, head⟩ := entry
    rcases merge_cons seen w head rest with ⟨known, hw, hne, hmerge⟩ | ⟨next, hmerge, hw, hnext⟩
    · rw [hmerge]
      refine .clash ⟨hw, by rw [lookup_cons, if_pos rfl], hne⟩ ?_
      rintro v c d ⟨-, hv, -⟩
      rw [lookup_cons] at hv
      split at hv
      next he => simp [he]
      next => simp [lt_of_lookup hs hv]
    · have hclash : ∀ v a b, seen.Clash ((w, head) :: rest) v a b ↔ next.Clash rest v a b :=
        fun v a b => clash_cons_iff hs hw hnext
      have hrest := ih next (List.pairwise_cons.1 hs).2
      rw [hmerge]
      generalize next.merge rest = result at hrest
      cases hrest with
      | joined hc hu =>
        refine .joined (by simpa only [hclash] using hc) fun v a => ?_
        rw [hu, hnext, lookup_cons]
        by_cases hv : v = w
        · obtain rfl := hv
          have hno : ¬SortedMap.lookup v rest = some a := fun h => ne_of_lookup hs h rfl
          have hknown : seen.get? v = some a → head = a := fun h => (hw a h).symm
          simpa [hno] using hknown
        · rw [if_neg hv, if_neg hv]
      | clash h hleast => exact .clash ((hclash ..).2 h) (by simpa only [hclash] using hleast)

theorem merge_ok (h : seen.Consistent e) : ∃ union, seen.merge e.toList = .ok union ∧
    ∀ v a, union.get? v = some a ↔ seen.get? v = some a ∨ e.get? v = some a := by
  have hspec := merge_spec seen e.heads.sorted
  rw [toList]
  generalize seen.merge e.heads.toList = result at hspec
  cases hspec with
  | joined hc hu => exact ⟨_, rfl, hu⟩
  | clash hclash => exact absurd (h _ _ _ hclash.1 hclash.2.1) hclash.2.2

-- ---------------------------------------------------------------------------
-- All branches
-- ---------------------------------------------------------------------------

theorem mergeAll_ok (hseen : ∀ e ∈ branches, seen.Consistent e)
    (hp : branches.Pairwise Consistent) :
    mergeAll seen common branches =
      .ok (common.filter fun v => branches.all fun e => e.contains v) := by
  induction branches generalizing seen common with
  | nil =>
    have hall : (common.filter fun v => ([] : List Drift).all fun e => e.contains v) = common :=
      List.filter_eq_self.2 fun _ _ => rfl
    rw [hall]
    rfl
  | cons first rest ih =>
    obtain ⟨hfirst, hrest⟩ := List.pairwise_cons.1 hp
    obtain ⟨d, hd, hget⟩ := merge_ok (hseen first List.mem_cons_self)
    have hnext : ∀ e ∈ rest, d.Consistent e := by
      intro e he v a b ha hb
      rcases (hget v a).1 ha with ha | ha
      · exact hseen e (List.mem_cons_of_mem _ he) v a b ha hb
      · exact hfirst e he v a b ha hb
    simp only [mergeAll, hd]
    rw [ih hnext hrest, List.filter_filter]
    simp only [List.all_cons, Bool.and_comm]

theorem identity_get? (vs : List Var) (v : Var) :
    (identity vs).get? v = if v ∈ vs then some v else none := by
  have go : ∀ m : SortedMap Var Var,
      ((vs.map fun v => (v, v)).foldl (fun m e => m.insert e.1 e.2) m).get? v =
        if v ∈ vs then some v else m.get? v := by
    induction vs with
    | nil => simp
    | cons w rest ih =>
      intro m
      simp only [List.map_cons, List.foldl_cons, ih, SortedMap.get?_insert,
        Std.LawfulEqOrd.compare_eq_iff_eq, List.mem_cons]
      by_cases hv : v = w
      · simp [hv]
      · simp [hv]
  exact go .empty

theorem identity_get?_eq_some_iff : (identity vs).get? v = some a ↔ v ∈ vs ∧ a = v := by
  rw [identity_get?]
  by_cases hv : v ∈ vs <;> simp [hv, eq_comm]

@[simp] theorem identity_contains (vs : List Var) (v : Var) :
    (identity vs).contains v = decide (v ∈ vs) := by
  have h := identity_get? vs v
  unfold Drift.get? at h
  rw [Drift.contains, SortedMap.contains, h]
  by_cases hv : v ∈ vs <;> simp [hv]

theorem identity_congr (h : ∀ v, v ∈ vs ↔ v ∈ ws) : identity vs = identity ws := by
  refine Drift.ext (SortedMap.ext_get? fun v => ?_)
  change (identity vs).get? v = (identity ws).get? v
  simp only [identity_get?, h]

theorem mem_keys_iff : v ∈ d.keys ↔ d.contains v = true := d.heads.mem_keys_iff v

theorem intersect_ok (hne : branches ≠ []) (hp : branches.Pairwise Consistent)
    (hvs : ∀ v, v ∈ vs ↔ ∀ e ∈ branches, e.contains v = true) :
    intersect branches = .ok (identity vs) := by
  cases branches with
  | nil => exact absurd rfl hne
  | cons first rest =>
    obtain ⟨hfirst, hrest⟩ := List.pairwise_cons.1 hp
    rw [intersect, mergeAll_ok hfirst hrest]
    refine congrArg Except.ok (identity_congr fun v => ?_)
    rw [hvs, List.mem_filter, mem_keys_iff, List.all_eq_true, List.forall_mem_cons]

-- ---------------------------------------------------------------------------
-- Reconciling
-- ---------------------------------------------------------------------------

theorem reconcile_result (branches : List Drift) (r : Run) :
    ((reconcile branches).run r).1 = intersect branches := by
  cases branches with
  | nil => rfl
  | cons first rest =>
    rw [reconcile, intersect]
    cases mergeAll first first.keys rest <;> rfl

theorem reconcile_error {fault : Fault} (h : intersect branches = .error fault) (r : Run) :
    (reconcile branches).run r = (.error fault, r) := by
  cases branches with
  | nil => cases h
  | cons first rest =>
    rw [intersect] at h
    rw [reconcile]
    cases hm : mergeAll first first.keys rest with
    | ok common =>
      rw [hm] at h
      cases h
    | error fault =>
      rw [hm] at h
      cases h
      rfl

theorem mergeAll_sublist (h : mergeAll seen common branches = .ok vs) : vs.Sublist common := by
  induction branches generalizing seen common with
  | nil =>
    cases h
    exact .refl _
  | cons branch rest ih =>
    rw [mergeAll] at h
    split at h
    next => cases h
    next => exact (ih h).trans List.filter_sublist

theorem identity_size (h : vs.Nodup) : (identity vs).size = vs.length := by
  have hkeys : ((vs.map fun v => (v, v)).map (·.1)).Nodup := by
    simpa [Function.comp_def] using h
  exact (SortedMap.toList_ofList_perm hkeys).length_eq.trans (List.length_map _)

/-- No two of the duplicates that are counted become one entry of the map. -/
theorem reconcile_ok (hne : branches ≠ []) (h : intersect branches = .ok d) (r : Run) :
    (reconcile branches).run r =
      (.ok d, { r with log := r.log ++ [.intersected branches.length d.size] }) := by
  cases branches with
  | nil => exact absurd rfl hne
  | cons first rest =>
    rw [intersect] at h
    rw [reconcile]
    cases hm : mergeAll first first.keys rest with
    | error fault =>
      rw [hm] at h
      cases h
    | ok common =>
      rw [hm] at h
      obtain rfl := Except.ok.inj h
      rw [identity_size ((mergeAll_sublist hm).nodup first.heads.nodup_keys)]
      rfl

end QueryVars.Drift
