import QueryVars.Equality.Rename
import QueryVars.Term.Sanitize

/-!
# Query bodies

The predicates of a query body pass one after another through sanitizing and
renaming, over one equality map. The first item of a predicate is its operator
and is never renamed; the slots are what follows it.
-/

namespace QueryVars

/-- The sanitized predicate together with its renamed slots. -/
structure Prepared where
  sanitized : Term
  slots : List Term

/-- What follows the operator of a non-empty sequence. -/
def Term.slots : Term → List Term
  | .seq (_ :: slots) => slots
  | _ => []

namespace Equalities

def prepare (m : Equalities) (t : Term) (naming : Naming) : RunM (Prepared × Equalities) := do
  let sanitized ← t.sanitizePredicate naming
  let (slots, m) ← m.rename sanitized.slots
  return (⟨sanitized, slots⟩, m)

def prepareBody (m : Equalities) :
    List (Term × Naming) → RunM (List Prepared × Equalities)
  | [] => pure ([], m)
  | (t, naming) :: rest => do
    let (first, m) ← m.prepare t naming
    let (out, m) ← m.prepareBody rest
    return (first :: out, m)

end Equalities

end QueryVars
