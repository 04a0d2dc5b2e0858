import QueryVars.Var.Token

/-!
# Predicate terms

A predicate is a tree of nested sequences over raw tokens, canonical variables
and scalar literals. Symbols and strings are raw tokens: both may name a
variable. `vars` reads the variables off in reading order and `leaves` the
nodes that are no sequence.
-/

namespace QueryVars

inductive Literal
  | null
  | bool (value : Bool)
  | int (value : Int64)
  | float (value : Float)

/-- Floats compare as numbers: zeros of both signs are equal, and a NaN
differs from itself. -/
def Literal.eqv : Literal → Literal → Bool
  | .null, .null => true
  | .bool a, .bool b => a == b
  | .int a, .int b => a == b
  | .float a, .float b => a == b
  | _, _ => false

instance : BEq Literal := ⟨Literal.eqv⟩

inductive Term
  | seq (items : List Term)
  /-- A bare symbol, such as an operator name. -/
  | symbol (text : String)
  | str (text : String)
  /-- A variable in canonical form. -/
  | var (v : Var)
  | literal (value : Literal)

instance : Inhabited Term := ⟨.seq []⟩

namespace Term

mutual
def eqv : Term → Term → Bool
  | .seq xs, .seq ys => eqvAll xs ys
  | .symbol a, .symbol b => a == b
  | .str a, .str b => a == b
  | .var v, .var w => v == w
  | .literal a, .literal b => a == b
  | _, _ => false
def eqvAll : List Term → List Term → Bool
  | [], [] => true
  | x :: xs, y :: ys => eqv x y && eqvAll xs ys
  | _, _ => false
end

instance : BEq Term := ⟨eqv⟩

def text? : Term → Option String
  | .symbol text | .str text => some text
  | .var v => some v.name
  | .seq _ | .literal _ => none

def kind (t : Term) : TokenKind := TokenKind.ofText? t.text?

/-- The variable a node refers to, whether canonical or still a raw token. -/
def var? : Term → Option Var
  | .var v => some v
  | .symbol text | .str text => Var.ofText? text
  | .seq _ | .literal _ => none

@[simp] theorem var?_var (v : Var) : (Term.var v).var? = some v := rfl

mutual
def leaves : Term → List Term
  | .seq items => leavesAll items
  | t => [t]
def leavesAll : List Term → List Term
  | [] => []
  | t :: ts => leaves t ++ leavesAll ts
end

/-- Every variable occurrence, depth first and left to right. -/
def vars (t : Term) : List Var := t.leaves.filterMap var?

mutual
def anyUngrounding : Term → Bool
  | .seq items => anyUngroundingAll items
  | t => t.kind.isUngrounding
def anyUngroundingAll : List Term → Bool
  | [] => false
  | t :: ts => anyUngrounding t || anyUngroundingAll ts
end

/-- The category of the variables that stand in for wildcards: they may ground
nothing as soon as some variable of the predicate may. -/
def wildcardCategory (t : Term) : Category :=
  if t.anyUngrounding then .ungrounding else .optional

theorem leavesAll_eq (ts : List Term) : leavesAll ts = ts.flatMap leaves := by
  induction ts with
  | nil => rfl
  | cons t ts ih => simp [leavesAll, ih]

end Term

end QueryVars
