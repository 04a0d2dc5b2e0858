import QueryVars.Equality.Basic
import QueryVars.Supply.Generator
import QueryVars.Term.Basic

/-!
# Renaming repeated variables

The slots of a predicate are visited from left to right. The first
occurrence of a variable opens its group; a later occurrence of a groundable
variable becomes a fresh duplicate, which joins the group; a later occurrence
of an ungrounding variable becomes the last name of its group and records
nothing. The map is threaded through every predicate of a query.
-/

namespace QueryVars.Equalities

def record (m : Equalities) (v : Var) : RunM (Var × Equalities) :=
  match m.duplicates.get? v with
  | none => pure (v, m.insert v [])
  | some duplicates =>
    if v.category.isGroundable then do
      let duplicate ← v.uniquify .random
      Run.emit (.renamed v duplicate)
      return (duplicate, m.insert v (duplicates ++ [duplicate]))
    else pure (duplicates.getLast?.getD v, m)

theorem record_first {m : Equalities} {v : Var} (h : m.duplicates.get? v = none) :
    m.record v = pure (v, m.insert v []) := by
  simp [record, h]

theorem record_groundable {m : Equalities} {v : Var} {duplicates : List Var}
    (h : m.duplicates.get? v = some duplicates) (hv : v.category.isGroundable) (r : Run) :
    (m.record v).run r =
      let duplicate := v.extend (r.supply.suffix .random)
      ((duplicate, m.insert v (duplicates ++ [duplicate])),
        ⟨r.supply.advance .random, r.log ++ [.renamed v duplicate]⟩) := by
  simp only [record, h, hv, if_true]
  rfl

theorem record_ungrounding {m : Equalities} {v : Var} {duplicates : List Var}
    (h : m.duplicates.get? v = some duplicates) (hv : v.category.isGroundable = false) :
    m.record v = pure (duplicates.getLast?.getD v, m) := by
  simp [record, h, hv]

def rename (m : Equalities) : List Term → RunM (List Term × Equalities)
  | [] => pure ([], m)
  | t :: ts =>
    match t.var? with
    | none => do
      let (rest, m) ← m.rename ts
      return (t :: rest, m)
    | some v => do
      let (w, m) ← m.record v
      let (rest, m) ← m.rename ts
      return (.var w :: rest, m)

theorem rename_cons_of_none {m : Equalities} {t : Term} (ts : List Term) (h : t.var? = none) :
    m.rename (t :: ts) = (do let (rest, m) ← m.rename ts; return (t :: rest, m)) := by
  simp [rename, h]

theorem rename_cons_of_some {m : Equalities} {t : Term} {v : Var} (ts : List Term)
    (h : t.var? = some v) :
    m.rename (t :: ts) =
      (do
        let (w, m) ← m.record v
        let (rest, m) ← m.rename ts
        return (.var w :: rest, m)) := by
  simp [rename, h]

end QueryVars.Equalities
