import QueryVars.Var.Basic

/-!
# Token classification

What a token is follows from its text alone: the wildcard, a variable of some
category, or a constant. Whatever has no text is a constant, so classification
never fails.
-/

namespace QueryVars

def wildcard : String := "_"

inductive TokenKind
  | var (category : Category)
  | wildcard
  | constant
  deriving DecidableEq, Repr

namespace TokenKind

def of (text : String) : TokenKind :=
  if text = QueryVars.wildcard then .wildcard
  else
    match Category.of? text with
    | some category => .var category
    | none => .constant

def ofText? (text : Option String) : TokenKind :=
  match text with
  | some text => of text
  | none => .constant

def category? : TokenKind → Option Category
  | .var category => some category
  | .wildcard | .constant => none

def isJoinCapable (kind : TokenKind) : Bool := kind.category?.any Category.isJoinCapable

def isOptional (kind : TokenKind) : Bool := kind.category?.any Category.isOptional

def isUngrounding (kind : TokenKind) : Bool := kind.category?.any Category.isUngrounding

/-- Constants and wildcards count as groundable. -/
def isGroundable (kind : TokenKind) : Bool := !kind.isUngrounding

def isVar (kind : TokenKind) : Bool := kind.category?.isSome

def isWildcard (kind : TokenKind) : Bool := kind == .wildcard

def allGroundable (kinds : List TokenKind) : Bool := kinds.all isGroundable

@[simp] theorem of_wildcard : of QueryVars.wildcard = .wildcard := rfl

@[simp] theorem category?_of (text : String) : (of text).category? = Category.of? text := by
  unfold of
  split
  next h => subst h; decide
  next => split <;> simp_all [category?]

end TokenKind

def Var.kind (v : Var) : TokenKind := TokenKind.of v.name

@[simp] theorem Var.kind_eq (v : Var) : v.kind = .var v.category := by
  unfold Var.kind TokenKind.of
  split
  next h =>
    have hv := v.announced
    rw [h, show Category.of? QueryVars.wildcard = none by decide] at hv
    cases hv
  next => simp [v.announced]

end QueryVars
