import QueryVars.Equality.Rename

/-!
# Drift

A drift map leads from a duplicate to the head of its equality group, with
which it must be unified. It is read off an equality map.
-/

namespace QueryVars

structure Drift where
  heads : SortedMap Var Var
  deriving DecidableEq

namespace Drift

@[ext] theorem ext {d e : Drift} (h : d.heads = e.heads) : d = e := by
  cases d; cases e; cases h; rfl

def empty : Drift := ⟨.empty⟩

instance : Inhabited Drift := ⟨empty⟩

/-- Pairs of a duplicate and its head; the last pair of a repeated
duplicate wins. -/
def ofList (entries : List (Var × Var)) : Drift := ⟨.ofList entries⟩

def toList (d : Drift) : List (Var × Var) := d.heads.toList

def keys (d : Drift) : List Var := d.heads.keys

def size (d : Drift) : Nat := d.heads.size

def isEmpty (d : Drift) : Bool := d.heads.isEmpty

def get? (d : Drift) (v : Var) : Option Var := d.heads.get? v

def contains (d : Drift) (v : Var) : Bool := d.heads.contains v

def resolve (d : Drift) (v : Var) : Var := (d.get? v).getD v

end Drift

def Equalities.drift (m : Equalities) : Drift :=
  .ofList (m.pairs.map fun e => (e.2, e.1))

/-- Renaming of one slot list on its own, with the drift that it causes. -/
def renameRepeats (slots : List Term) : RunM (List Term × Drift) := do
  let (out, m) ← Equalities.empty.rename slots
  return (out, m.drift)

end QueryVars
