import QueryVars.Fault
import QueryVars.SortedMap

/-!
# Equality groups

A group is the list of names that must be joined with one another: its head,
then the duplicates of the head in the order in which they arose. Only the
duplicates are stored, so every group is non-empty and headed by its key.
`ofGroups` reads explicit groups and insists that no name stands in two places.
-/

namespace QueryVars

structure Equalities where
  duplicates : SortedMap Var (List Var)
  deriving DecidableEq

namespace Equalities

@[ext] theorem ext {m n : Equalities} (h : m.duplicates = n.duplicates) : m = n := by
  cases m; cases n; cases h; rfl

def empty : Equalities := ⟨.empty⟩

instance : Inhabited Equalities := ⟨empty⟩

def insert (m : Equalities) (head : Var) (duplicates : List Var) : Equalities :=
  ⟨m.duplicates.insert head duplicates⟩

/-- The names that stand for `v`, itself first. -/
def group? (m : Equalities) (v : Var) : Option (List Var) :=
  (m.duplicates.get? v).map (v :: ·)

def groups (m : Equalities) : List (Var × List Var) :=
  m.duplicates.toList.map fun e => (e.1, e.1 :: e.2)

def size (m : Equalities) : Nat := m.duplicates.size

def isEmpty (m : Equalities) : Bool := m.duplicates.isEmpty

def pairs (m : Equalities) : List (Var × Var) :=
  m.duplicates.toList.flatMap fun e => e.2.map fun duplicate => (e.1, duplicate)

/-- The first name of `group` that is among `members` or stands earlier in
`group`. -/
def firstShared (members : List Var) : List Var → Option Var
  | [] => none
  | v :: rest => if v ∈ members then some v else firstShared (v :: members) rest

/-- The duplicates in `group`, once it is known to be headed by `key` and to
share no name with `members`. -/
def checkGroup (members : List Var) (key : Var) (group : List Var) : Except Fault (List Var) :=
  match group with
  | [] => .error (.emptyGroup key)
  | first :: duplicates =>
    if first = key then
      match firstShared members (first :: duplicates) with
      | some shared => .error (.sharedMember shared)
      | none => .ok duplicates
    else .error (.groupMismatch key first)

def addGroups (members : List Var) (m : Equalities) :
    List (Var × List Var) → Except Fault Equalities
  | [] => .ok m
  | (key, group) :: rest =>
    match checkGroup members key group with
    | .error fault => .error fault
    | .ok duplicates => addGroups (members ++ group) (m.insert key duplicates) rest

/-- The groups are checked in the order given; the first one that breaks a rule
against itself or those before it decides the fault. -/
def ofGroups (groups : List (Var × List Var)) : Except Fault Equalities :=
  addGroups [] empty groups

@[simp] theorem group?_empty (v : Var) : empty.group? v = none := rfl

theorem group?_insert (m : Equalities) (head v : Var) (duplicates : List Var) :
    (m.insert head duplicates).group? v =
      if v = head then some (head :: duplicates) else m.group? v := by
  unfold group? insert
  split
  next h => subst h; simp
  next h => rw [SortedMap.get?_insert_of_ne _ _ h]

theorem mem_groups_iff (m : Equalities) (v : Var) (group : List Var) :
    (v, group) ∈ m.groups ↔ m.group? v = some group := by
  simp only [groups, List.mem_map, Prod.mk.injEq, Prod.exists, group?, Option.map_eq_some_iff]
  constructor
  · rintro ⟨_, ds, h, rfl, rfl⟩
    exact ⟨ds, (SortedMap.mem_toList_iff ..).1 h, rfl⟩
  · rintro ⟨ds, h, rfl⟩
    exact ⟨v, ds, (SortedMap.mem_toList_iff ..).2 h, rfl, rfl⟩

theorem mem_pairs_iff (m : Equalities) (head duplicate : Var) :
    (head, duplicate) ∈ m.pairs ↔
      ∃ ds, m.duplicates.get? head = some ds ∧ duplicate ∈ ds := by
  simp only [pairs, List.mem_flatMap, List.mem_map, Prod.mk.injEq, Prod.exists]
  constructor
  · rintro ⟨_, ds, h, d, hd, rfl, rfl⟩
    exact ⟨ds, (SortedMap.mem_toList_iff ..).1 h, hd⟩
  · rintro ⟨ds, h, hd⟩
    exact ⟨head, ds, (SortedMap.mem_toList_iff ..).2 h, duplicate, hd, rfl, rfl⟩

end Equalities

end QueryVars
