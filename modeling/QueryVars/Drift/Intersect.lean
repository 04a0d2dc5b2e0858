import QueryVars.Drift.Basic

/-!
# Reconciling branches

The drift maps of several branches of a query have in common the duplicates
that every branch knows. Two branches that lead one duplicate to different heads
break the renaming contract, also where a third branch does not know that
duplicate.
-/

namespace QueryVars.Drift

def merge (seen : Drift) : List (Var × Var) → Except Fault Drift
  | [] => .ok seen
  | (duplicate, head) :: rest =>
    match seen.get? duplicate with
    | none => merge ⟨seen.heads.insert duplicate head⟩ rest
    | some known =>
      if known = head then seen.merge rest
      else .error (.inconsistentDrift duplicate known head)

/-- `common` holds the duplicates that every branch so far knows. -/
def mergeAll (seen : Drift) (common : List Var) : List Drift → Except Fault (List Var)
  | [] => .ok common
  | branch :: rest =>
    match seen.merge branch.toList with
    | .error fault => .error fault
    | .ok seen => mergeAll seen (common.filter branch.contains) rest

def identity (common : List Var) : Drift := .ofList (common.map fun v => (v, v))

/-- The duplicates known to every branch, each leading to itself. -/
def intersect : List Drift → Except Fault Drift
  | [] => .ok empty
  | first :: rest => (mergeAll first first.keys rest).map identity

/-- Intersection as a step of a run: success over at least one branch is logged,
with what is counted before the map is made. -/
def reconcile : List Drift → RunM (Except Fault Drift)
  | [] => pure (.ok empty)
  | first :: rest =>
    match mergeAll first first.keys rest with
    | .error fault => pure (.error fault)
    | .ok common => do
      Run.emit (.intersected (rest.length + 1) common.length)
      return .ok (identity common)

end QueryVars.Drift
