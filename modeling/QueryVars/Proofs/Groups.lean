import QueryVars.Proofs.Names

/-!
# Explicit groups

`ofGroups` accepts a family of groups only if no name stands in it twice, and
the map that it builds has exactly these groups. Groups that are headed by
their keys are rejected for no other reason than a name that stands twice.
-/

namespace QueryVars.Equalities

variable {m n : Equalities} {members group ds : List Var} {key v w : Var}
  {gs : List (Var × List Var)}

def AllNew (members group : List Var) : Prop := group.Nodup ∧ ∀ v ∈ group, v ∉ members

theorem allNew_cons_iff :
    AllNew members (w :: group) ↔ w ∉ members ∧ AllNew (w :: members) group := by
  simp only [AllNew, List.nodup_cons, List.mem_cons, not_or, forall_eq_or_imp]
  constructor
  · rintro ⟨⟨hself, hnodup⟩, hw, hrest⟩
    refine ⟨hw, hnodup, fun v hv => ⟨?_, hrest v hv⟩⟩
    rintro rfl
    exact hself hv
  · rintro ⟨hw, hnodup, hrest⟩
    exact ⟨⟨fun h => (hrest w h).1 rfl, hnodup⟩, hw, fun v hv => (hrest v hv).2⟩

/-- Going through `group`, `v` is the first name that is among `members` or has
been met before. -/
def FirstRepeated (members group : List Var) (v : Var) : Prop :=
  ∃ front back, group = front ++ v :: back ∧ AllNew members front ∧ (v ∈ members ∨ v ∈ front)

theorem firstRepeated_cons_iff :
    FirstRepeated members (w :: group) v ↔
      (w = v ∧ w ∈ members) ∨ (w ∉ members ∧ FirstRepeated (w :: members) group v) := by
  constructor
  · rintro ⟨_ | ⟨u, front⟩, back, heq, hnew, hv⟩
    · obtain ⟨rfl, rfl⟩ := List.cons.inj heq
      exact .inl ⟨rfl, by simpa using hv⟩
    · obtain ⟨rfl, rfl⟩ := List.cons.inj heq
      obtain ⟨hw, hnew⟩ := allNew_cons_iff.1 hnew
      exact .inr ⟨hw, front, back, rfl, hnew, by simpa [or_assoc, or_left_comm] using hv⟩
  · rintro (⟨rfl, hw⟩ | ⟨hw, front, back, rfl, hnew, hv⟩)
    · exact ⟨[], group, rfl, ⟨.nil, by simp⟩, .inl hw⟩
    · exact ⟨w :: front, back, rfl, allNew_cons_iff.2 ⟨hw, hnew⟩,
        by simpa [or_assoc, or_left_comm] using hv⟩

theorem firstShared_none (h : firstShared members group = none) : AllNew members group := by
  induction group generalizing members with
  | nil => simp [AllNew]
  | cons v rest ih =>
    unfold firstShared at h
    split at h
    next => cases h
    next hv => exact allNew_cons_iff.2 ⟨hv, ih h⟩

theorem firstShared_eq_some_iff :
    firstShared members group = some v ↔ FirstRepeated members group v := by
  induction group generalizing members with
  | nil => simp [firstShared, FirstRepeated]
  | cons w rest ih =>
    rw [firstShared, firstRepeated_cons_iff, ← ih]
    split <;> simp [*]

theorem firstShared_some (h : firstShared members group = some v) :
    2 ≤ (members ++ group).count v := by
  obtain ⟨front, back, rfl, -, hv⟩ := firstShared_eq_some_iff.1 h
  have hpos : 0 < (members ++ front).count v := List.count_pos_iff.2 (List.mem_append.2 hv)
  rw [← List.append_assoc, List.count_append, List.count_cons_self]
  omega

theorem checkGroup_ok (h : checkGroup members key group = .ok ds) :
    group = key :: ds ∧ firstShared members group = none := by
  unfold checkGroup at h
  split at h
  next => cases h
  next first rest =>
    split at h
    next hk =>
      split at h
      next => cases h
      next hs =>
        obtain rfl := Except.ok.inj h
        exact ⟨by rw [hk], hs⟩
    next => cases h

theorem checkGroup_headed (members : List Var) (key : Var) (ds : List Var) :
    checkGroup members key (key :: ds) = .ok ds ∨
      ∃ v, checkGroup members key (key :: ds) = .error (.sharedMember v) ∧
        2 ≤ (members ++ key :: ds).count v := by
  cases hs : firstShared members (key :: ds) with
  | none => exact .inl (by simp [checkGroup, hs])
  | some v => exact .inr ⟨v, by simp [checkGroup, hs], firstShared_some hs⟩

theorem groups_open (h : m.duplicates.get? v = none) :
    (m.insert v ds).groups.Perm ((v, v :: ds) :: m.groups) :=
  (toList_open ds h).map _

/-- `members` holds all names of the groups added so far. -/
theorem addGroups_ok (hm : ∀ v ∈ m.names, v ∈ members) (hn : members.Nodup)
    (h : addGroups members m gs = .ok n) :
    n.groups.Perm (m.groups ++ gs) ∧ (members ++ gs.flatMap (·.2)).Nodup := by
  induction gs generalizing members m with
  | nil =>
    obtain rfl := Except.ok.inj h
    simpa using hn
  | cons e rest ih =>
    obtain ⟨key, group⟩ := e
    simp only [addGroups] at h
    split at h
    next => cases h
    next ds hc =>
      obtain ⟨rfl, hs⟩ := checkGroup_ok hc
      obtain ⟨hnodup, hnew⟩ := firstShared_none hs
      have hkey : m.duplicates.get? key = none := by
        rw [get?_eq_none_iff]
        intro hh
        exact hnew key List.mem_cons_self (hm key (mem_names_iff.2 (.inl hh)))
      have hopen : (m.insert key ds).groups.Perm ((key, key :: ds) :: m.groups) := groups_open hkey
      have hall : (members ++ (key :: ds)).Nodup :=
        List.nodup_append.2 ⟨hn, hnodup, by
          rintro v hv w hw rfl
          exact hnew v hw hv⟩
      have hnames : ∀ v ∈ (m.insert key ds).names, v ∈ members ++ (key :: ds) := by
        intro v hv
        rw [names, (hopen.flatMap_right _).mem_iff] at hv
        rcases List.mem_append.1 hv with hv | hv
        · exact List.mem_append_right _ hv
        · exact List.mem_append_left _ (hm v hv)
      obtain ⟨hperm, hflat⟩ := ih hnames hall h
      refine ⟨hperm.trans ((hopen.append_right rest).trans List.perm_middle.symm), ?_⟩
      simpa using hflat

theorem ofGroups_ok (h : ofGroups gs = .ok m) : m.groups.Perm gs ∧ (gs.flatMap (·.2)).Nodup := by
  have hnone : ∀ v ∈ empty.names, v ∈ ([] : List Var) := fun _ hv => hv
  exact addGroups_ok hnone .nil h

theorem nodup_names_of_ofGroups (h : ofGroups gs = .ok m) : m.names.Nodup := by
  obtain ⟨hperm, hnodup⟩ := ofGroups_ok h
  exact (hperm.flatMap_right _).nodup_iff.2 hnodup

theorem addGroups_headed (hh : ∀ e ∈ gs, ∃ ds, e.2 = e.1 :: ds) (members : List Var)
    (m : Equalities) :
    (∃ n, addGroups members m gs = .ok n) ∨
      ∃ v, addGroups members m gs = .error (.sharedMember v) ∧
        2 ≤ (members ++ gs.flatMap (·.2)).count v := by
  induction gs generalizing members m with
  | nil => exact .inl ⟨m, rfl⟩
  | cons e rest ih =>
    obtain ⟨key, group⟩ := e
    obtain ⟨ds, rfl⟩ : ∃ ds, group = key :: ds := hh _ List.mem_cons_self
    have hrest : ∀ e ∈ rest, ∃ ds, e.2 = e.1 :: ds := fun e he => hh e (List.mem_cons_of_mem _ he)
    rcases checkGroup_headed members key ds with hc | ⟨v, hc, hv⟩
    · rcases ih hrest (members ++ key :: ds) (m.insert key ds) with ⟨n, hn⟩ | ⟨v, hn, hv⟩
      · exact .inl ⟨n, by simpa [addGroups, hc] using hn⟩
      · exact .inr ⟨v, by simpa [addGroups, hc] using hn, by simpa using hv⟩
    · refine .inr ⟨v, by simp [addGroups, hc], Nat.le_trans hv ?_⟩
      rw [List.flatMap_cons, ← List.append_assoc]
      exact (List.sublist_append_left _ _).count_le v

theorem eq_of_groups_perm (h : n.groups.Perm m.groups) : n = m := by
  refine ext (SortedMap.ext_get? fun v => ?_)
  have hsome : ∀ ds, n.duplicates.get? v = some ds ↔ m.duplicates.get? v = some ds := by
    intro ds
    have := h.mem_iff (a := (v, v :: ds))
    simpa [mem_groups_iff, group?] using this
  exact Option.ext hsome

theorem ofGroups_groups (m : Equalities) :
    ofGroups m.groups = .ok m ∨
      ∃ v, ofGroups m.groups = .error (.sharedMember v) ∧ 2 ≤ m.names.count v := by
  have hh : ∀ e ∈ m.groups, ∃ ds, e.2 = e.1 :: ds := by
    intro e he
    obtain ⟨f, -, rfl⟩ := List.mem_map.1 he
    exact ⟨f.2, rfl⟩
  rcases addGroups_headed hh [] empty with ⟨n, hn⟩ | hv
  · obtain rfl := eq_of_groups_perm (ofGroups_ok hn).1
    exact .inl hn
  · exact .inr hv

theorem ofGroups_groups_iff : ofGroups m.groups = .ok m ↔ m.names.Nodup := by
  constructor
  · exact nodup_names_of_ofGroups
  · intro h
    rcases m.ofGroups_groups with hok | ⟨v, -, hcount⟩
    · exact hok
    · have := List.nodup_iff_count_le_one.1 h v
      omega

end QueryVars.Equalities
