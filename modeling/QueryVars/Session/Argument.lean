import QueryVars.Session.Basic

/-!
# Arguments of commands

Each kind of argument is read in the order in which it is written down, and
the first fault wins.
-/

namespace QueryVars.Session

def readVars (names : List String) : Except Fault (List Var) := names.mapM Var.parse

/-- All names are read before the groups are looked at as groups. -/
def readGroups (groups : List (String × List String)) : Except Fault Equalities := do
  let groups ← groups.mapM fun e => do
    let key ← Var.parse e.1
    return (key, ← readVars e.2)
  Equalities.ofGroups groups

def readEqualities : Option Json → Decoded Equalities
  | none => .ok .empty
  | some j => Equalities.ofJson j

def readNaming : Option Json → SessionM Naming
  | none => pure Naming.default
  | some j => do ofFault (← ofDecoded (Config.ofJson j)).naming

inductive GeneratorArg
  | default (category : Category)
  | described (category : Json) (config : Option Json)

def GeneratorArg.read : GeneratorArg → SessionM Generator
  | .default category => pure (Generator.ofCategory category)
  | .described category config => do
    let category ← ofDecoded (Category.ofJson category)
    match config with
    | none => return Generator.ofCategory category
    | some j => do ofFault (Generator.withConfig category (← ofDecoded (Config.ofJson j)))

/-- A drift map is written as an object, or as a list of pairs of names in
which the last pair of a repeated duplicate wins. -/
inductive DriftArg
  | object (value : Json)
  | pairs (entries : List (String × String))

def DriftArg.read : DriftArg → SessionM Drift
  | .object value => ofDecoded (Drift.ofJson value)
  | .pairs entries => ofFault do
    let entries ← entries.mapM fun e => do
      let duplicate ← Var.parse e.1
      return (duplicate, ← Var.parse e.2)
    return Drift.ofList entries

end QueryVars.Session
