import QueryVars.Supply.Basic
import QueryVars.Var.Basic

/-!
# Runs

Everything that generates names runs against one supply of suffixes and one
log. The lemmas give the effect of each primitive on a run, so that later
proofs need not look inside the monad.
-/

namespace QueryVars

inductive Event
  | sanitized (wildcards : Category) (baseName : String)
  | renamed (repeated duplicate : Var)
  | intersected (branches common : Nat)
  deriving DecidableEq

structure Run where
  supply : Supply
  log : List Event

abbrev RunM := StateM Run

namespace Run

def start (source : Nat → String) : Run := ⟨Supply.start source, []⟩

def draw (strategy : Strategy) : RunM Suffix :=
  fun r => (r.supply.suffix strategy, { r with supply := r.supply.advance strategy })

def emit (event : Event) : RunM Unit :=
  fun r => ((), { r with log := r.log ++ [event] })

@[simp] theorem draw_run (strategy : Strategy) (r : Run) :
    (draw strategy).run r =
      (r.supply.suffix strategy, { r with supply := r.supply.advance strategy }) := rfl

@[simp] theorem emit_run (event : Event) (r : Run) :
    (emit event).run r = ((), { r with log := r.log ++ [event] }) := rfl

theorem run_pure (a : α) (r : Run) : (pure a : RunM α).run r = (a, r) := rfl

theorem run_bind (m : RunM α) (f : α → RunM β) (r : Run) :
    (m >>= f).run r = (f (m.run r).1).run (m.run r).2 := rfl

theorem run_map (f : α → β) (m : RunM α) (r : Run) :
    (f <$> m).run r = (f (m.run r).1, (m.run r).2) := rfl

end Run

def Strategy.suffixes (strategy : Strategy) : Nat → RunM (List Suffix)
  | 0 => pure []
  | n + 1 => do
    let first ← Run.draw strategy
    let rest ← strategy.suffixes n
    return first :: rest

theorem Strategy.length_suffixes (strategy : Strategy) (n : Nat) (r : Run) :
    ((strategy.suffixes n).run r).1.length = n := by
  induction n generalizing r with
  | zero => rfl
  | succ n ih => exact congrArg Nat.succ (ih _)

end QueryVars
