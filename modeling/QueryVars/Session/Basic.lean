import QueryVars.Codec.Config
import QueryVars.Codec.Maps
import QueryVars.Codec.Term
import QueryVars.Drift.Intersect
import QueryVars.Query.Body

/-!
# Sessions

A session keeps equality maps and drift maps under names, next to the run that
all of its commands share. Arguments are handed over as they were received and
are read by the command itself, so that reading can fail like everything else.
The monad keeps the state that a failing command had reached; that this is the
state it began with is a property of the commands. The lemmas give the effect
of each primitive on a session.
-/

namespace QueryVars

inductive Failure
  | fault (fault : Fault)
  | decode (error : DecodeError)
  | unknownMap (name : String)

structure Session where
  run : Run
  equalities : SortedMap String Equalities
  drifts : SortedMap String Drift

abbrev SessionM := ExceptT Failure (StateM Session)

namespace Session

def start (source : Nat → String) : Session := ⟨Run.start source, .empty, .empty⟩

def perform (m : RunM α) : SessionM α := ExceptT.mk fun s =>
  let (a, run) := m.run s.run
  (.ok a, { s with run })

def ofFault (result : Except Fault α) : SessionM α :=
  match result with
  | .ok a => pure a
  | .error fault => throw (.fault fault)

def ofDecoded (result : Decoded α) : SessionM α :=
  match result with
  | .ok a => pure a
  | .error error => throw (.decode error)

def getEqualities (name : String) : SessionM Equalities := do
  match (← get).equalities.get? name with
  | some m => return m
  | none => throw (.unknownMap name)

def setEqualities (name : String) (m : Equalities) : SessionM Unit :=
  modify fun s => { s with equalities := s.equalities.insert name m }

def getDrift (name : String) : SessionM Drift := do
  match (← get).drifts.get? name with
  | some d => return d
  | none => throw (.unknownMap name)

def setDrift (name : String) (d : Drift) : SessionM Unit :=
  modify fun s => { s with drifts := s.drifts.insert name d }

@[simp] theorem pure_run (a : α) (s : Session) :
    (pure a : SessionM α).run.run s = (.ok a, s) := rfl

theorem bind_run (m : SessionM α) (f : α → SessionM β) (s : Session) :
    (m >>= f).run.run s = match m.run.run s with
      | (.ok a, next) => (f a).run.run next
      | (.error failure, next) => (.error failure, next) := by
  change (ExceptT.bindCont f (m.run.run s).1).run (m.run.run s).2 = _
  cases m.run.run s with
  | mk result next => cases result <;> rfl

@[simp] theorem perform_run (m : RunM α) (s : Session) :
    (perform m).run.run s = (.ok (m.run s.run).1, { s with run := (m.run s.run).2 }) := rfl

@[simp] theorem ofFault_run (result : Except Fault α) (s : Session) :
    (ofFault result).run.run s = (result.mapError .fault, s) := by
  cases result <;> rfl

@[simp] theorem ofDecoded_run (result : Decoded α) (s : Session) :
    (ofDecoded result).run.run s = (result.mapError .decode, s) := by
  cases result <;> rfl

theorem getEqualities_run (name : String) (s : Session) :
    (getEqualities name).run.run s = match s.equalities.get? name with
      | some m => (.ok m, s)
      | none => (.error (.unknownMap name), s) := by
  change (match s.equalities.get? name with
    | some m => (pure m : SessionM Equalities)
    | none => throw (Failure.unknownMap name)).run.run s = _
  cases s.equalities.get? name <;> rfl

theorem getDrift_run (name : String) (s : Session) :
    (getDrift name).run.run s = match s.drifts.get? name with
      | some d => (.ok d, s)
      | none => (.error (.unknownMap name), s) := by
  change (match s.drifts.get? name with
    | some d => (pure d : SessionM Drift)
    | none => throw (Failure.unknownMap name)).run.run s = _
  cases s.drifts.get? name <;> rfl

@[simp] theorem setEqualities_run (name : String) (m : Equalities) (s : Session) :
    (setEqualities name m).run.run s =
      (.ok (), { s with equalities := s.equalities.insert name m }) := rfl

@[simp] theorem setDrift_run (name : String) (d : Drift) (s : Session) :
    (setDrift name d).run.run s = (.ok (), { s with drifts := s.drifts.insert name d }) := rfl

end Session

end QueryVars
