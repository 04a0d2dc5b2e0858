import QueryVars.Var.Basic

/-!
# Faults

The ways in which a caller can break a rule of the library. Classification and
sanitizing never fail; a fault arises only where a name, a base name, a family
of groups or a list of branches is handed over.
-/

namespace QueryVars

inductive Fault
  | notAVariable (text : String)
  | invalidBaseName (baseName : String)
  | emptyGroup (key : Var)
  | groupMismatch (key first : Var)
  | sharedMember (member : Var)
  | inconsistentDrift (duplicate left right : Var)
  deriving DecidableEq

def Fault.message : Fault → String
  | .notAVariable text =>
    "`" ++ text ++ "` is not a logic variable (expected a `?`, `!` or `!!` prefix)"
  | .invalidBaseName baseName => "invalid generator base name `" ++ baseName ++ "`"
  | .emptyGroup key => "equality group for `" ++ key.name ++ "` is empty"
  | .groupMismatch key first =>
    "equality group for `" ++ key.name ++ "` must start with `" ++ key.name ++
      "`, found `" ++ first.name ++ "`"
  | .sharedMember member => "`" ++ member.name ++ "` appears in more than one equality group"
  | .inconsistentDrift duplicate left right =>
    "duplicate `" ++ duplicate.name ++ "` drifts to `" ++ left.name ++
      "` in one branch and to `" ++ right.name ++ "` in another"

def Var.parse (text : String) : Except Fault Var :=
  match Var.ofText? text with
  | some v => .ok v
  | none => .error (.notAVariable text)

@[simp] theorem Var.parse_name (v : Var) : Var.parse v.name = .ok v := by simp [Var.parse]

theorem Var.parse_eq_ok_iff {text : String} {v : Var} : Var.parse text = .ok v ↔ v.name = text := by
  rw [← ofText?_eq_some_iff, Var.parse]
  cases ofText? text <;> simp

/-- The way that decoded names take: their category is read off here. -/
def Var.ofName (name : String) : Except Fault Var :=
  match h : Category.of? name with
  | some category => .ok ⟨name, category, h⟩
  | none => .error (.notAVariable name)

@[simp] theorem Var.ofName_eq_parse (name : String) : Var.ofName name = Var.parse name := by
  cases hname : Var.ofText? name with
  | some v =>
    obtain rfl := ofText?_eq_some_iff.1 hname
    rw [parse_name, ofName]
    split
    next => exact congrArg Except.ok (ext rfl)
    next h => simp [v.announced] at h
  | none =>
    rw [parse, hname, ofName]
    split
    next h => simp [ofText?_eq_none_iff.1 hname] at h
    next => rfl

end QueryVars
