import QueryVars.Session.Question

/-!
# Commands

What a session can be asked to do. Every command reads all of its arguments
before it draws a suffix, emits an event or stores a map.
-/

namespace QueryVars

open Session

inductive Command
  | suffixes (strategy : Json) (count : Nat)
  | fresh (generator : GeneratorArg)
  | freshMany (generator : GeneratorArg) (count : Nat)
  | uniquify (name : String) (generator : Option GeneratorArg)
  | canonical (generator : GeneratorArg) (term : Json)
  | sanitize (generator : GeneratorArg) (term : Json)
  | sanitizePredicate (term : Json) (config : Option Json)
  | rename (slots : Json) (equalities : Option Json)
  | renameRepeats (slots : Json)
  | intersect (branches : List DriftArg)
  | clearEqualities (target : String)
  | loadGroups (groups : List (String × List String)) (target : String)
  | copyEqualities (source target : String)
  | sameEqualities (left right : String)
  | renameIn (slots : Json) (target : String)
  | prepareIn (term : Json) (config : Option Json) (target : String)
  | inspectEqualities (names : List String) (source : String)
  | recodeEqualities (target : String)
  | driftOf (source target : String)
  | loadDrift (value : DriftArg) (target : String)
  | intersectNamed (sources : List String) (target : String)
  | inspectDrift (source : String) (names : List String)
  | sameDrift (left right : String)
  | ask (question : Question)

inductive Reply
  | done
  | truth (value : Bool)
  | suffixes (suffixes : List Suffix)
  | var (v : Var)
  | vars (vs : List Var)
  | term (t : Term)
  | renamed (slots : List Term) (m : Equalities)
  | drifted (slots : List Term) (d : Drift)
  | prepared (result : Prepared) (m : Equalities)
  | equalities (m : Equalities)
  | drift (d : Drift)
  | equalitiesInfo (m : Equalities) (names : List Var)
  | driftInfo (d : Drift) (names : List Var)
  | found (finding : Finding)

namespace Command

def exec : Command → SessionM Reply
  | .suffixes strategy count => do
    let strategy ← ofDecoded (Strategy.ofJson strategy)
    return .suffixes (← perform (strategy.suffixes count))
  | .fresh generator => do
    let g ← generator.read
    return .var (← perform g.fresh)
  | .freshMany generator count => do
    let g ← generator.read
    return .vars (← perform (g.freshMany count))
  | .uniquify name generator => do
    let v ← ofFault (Var.parse name)
    match generator with
    | none => return .var (← perform (v.uniquify .random))
    | some generator => do
      let g ← generator.read
      return .var (← perform (g.uniquify v))
  | .canonical generator term => do
    let g ← generator.read
    let t ← ofDecoded (Term.ofJson term)
    return .term (← perform (t.canonical g))
  | .sanitize generator term => do
    let g ← generator.read
    let t ← ofDecoded (Term.ofJson term)
    return .term (← perform (t.sanitize g))
  | .sanitizePredicate term config => do
    let t ← ofDecoded (Term.ofJson term)
    let naming ← readNaming config
    return .term (← perform (t.sanitizePredicate naming))
  | .rename slots equalities => do
    let slots ← ofDecoded (Term.listOfJson slots)
    let m ← ofDecoded (readEqualities equalities)
    let (out, m) ← perform (m.rename slots)
    return .renamed out m
  | .renameRepeats slots => do
    let slots ← ofDecoded (Term.listOfJson slots)
    let (out, d) ← perform (QueryVars.renameRepeats slots)
    return .drifted out d
  | .intersect branches => do
    let branches ← branches.mapM DriftArg.read
    return .drift (← ofFault (← perform (Drift.reconcile branches)))
  | .clearEqualities target => do
    setEqualities target .empty
    return .done
  | .loadGroups groups target => do
    let m ← ofFault (readGroups groups)
    setEqualities target m
    return .equalities m
  | .copyEqualities source target => do
    setEqualities target (← getEqualities source)
    return .done
  | .sameEqualities left right => do
    return .truth ((← getEqualities left) == (← getEqualities right))
  | .renameIn slots target => do
    let slots ← ofDecoded (Term.listOfJson slots)
    let m ← getEqualities target
    let (out, m) ← perform (m.rename slots)
    setEqualities target m
    return .renamed out m
  | .prepareIn term config target => do
    let t ← ofDecoded (Term.ofJson term)
    let naming ← readNaming config
    let m ← getEqualities target
    let (result, m) ← perform (m.prepare t naming)
    setEqualities target m
    return .prepared result m
  | .inspectEqualities names source => do
    let names ← ofFault (readVars names)
    return .equalitiesInfo (← getEqualities source) names
  | .recodeEqualities target => do
    let m ← getEqualities target
    let recoded ← ofDecoded (Equalities.ofJson m.toJson)
    setEqualities target recoded
    return .truth (recoded == m)
  | .driftOf source target => do
    let d := (← getEqualities source).drift
    setDrift target d
    return .drift d
  | .loadDrift value target => do
    let d ← value.read
    setDrift target d
    return .drift d
  | .intersectNamed sources target => do
    let branches ← sources.mapM getDrift
    let d ← ofFault (← perform (Drift.reconcile branches))
    setDrift target d
    return .drift d
  | .inspectDrift source names => do
    let d ← getDrift source
    return .driftInfo d (← ofFault (readVars names))
  | .sameDrift left right => do
    return .truth ((← getDrift left) == (← getDrift right))
  | .ask question => return .found (← question.ask)

/-- Executes commands in turn; a failure does not keep the later ones from
running. -/
def execAll : List Command → StateM Session (List (Except Failure Reply))
  | [] => pure []
  | c :: cs => do
    let answer ← c.exec.run
    let answers ← execAll cs
    return answer :: answers

end Command

end QueryVars
