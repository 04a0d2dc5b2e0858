import QueryVars.Supply.Generator
import QueryVars.Term.Basic

/-!
# Canonical terms

Sanitizing turns every token that names a variable into that variable and
every wildcard into a fresh one, and leaves the rest of the tree alone. In a
whole predicate the wildcards take one category, read off the predicate as it
was handed over.
-/

namespace QueryVars.Term

/-- The canonical form of a single token. A sequence is no token and stays. -/
def canonical (g : Generator) (t : Term) : RunM Term :=
  match t.kind with
  | .wildcard => .var <$> g.fresh
  | .var _ => pure ((t.var?.map .var).getD t)
  | .constant => pure t

mutual
def sanitize (g : Generator) : Term → RunM Term
  | .seq items => .seq <$> sanitizeAll g items
  | t => canonical g t
def sanitizeAll (g : Generator) : List Term → RunM (List Term)
  | [] => pure []
  | t :: ts => do
    let first ← sanitize g t
    let rest ← sanitizeAll g ts
    return first :: rest
end

/-- The wildcards of a predicate take the category that it had before. -/
def sanitizePredicate (t : Term) (naming : Naming) : RunM Term := do
  let out ← t.sanitize ⟨t.wildcardCategory, naming⟩
  Run.emit (.sanitized t.wildcardCategory naming.config.baseName)
  return out

end QueryVars.Term
