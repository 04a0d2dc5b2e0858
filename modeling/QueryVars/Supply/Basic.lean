/-!
# Suffixes

A generated name ends in a suffix that sets it apart from every other name.
Suffixes are printed from one counter or come from a random source; a supply
is the counter together with the place reached in that source.
-/

namespace QueryVars

inductive Strategy
  /-- Short and predictable. A source name that ends in a counter value can
  collide with a generated one. -/
  | sequential
  /-- No realistic source name ends in such a suffix. -/
  | random
  deriving DecidableEq, Repr

structure Suffix where
  body : String
  deriving DecidableEq

namespace Suffix

/-- Stands between a name and the body of its suffix. -/
def separator : String := "__"

def text (s : Suffix) : String := separator ++ s.body

theorem toList_text (s : Suffix) : s.text.toList = '_' :: '_' :: s.body.toList := by
  simp [text, separator]

/-- A suffix never lengthens a marker. -/
theorem text_ne_bang (s : Suffix) (tail : List Char) : s.text.toList ≠ '!' :: tail := by
  simp [toList_text]

end Suffix

/-- `source k` is the body of random suffix number `k`, and `issued` counts
those already drawn. -/
structure Supply where
  counter : UInt64
  issued : Nat
  source : Nat → String

namespace Supply

def start (source : Nat → String) : Supply := ⟨0, 0, source⟩

def suffix (s : Supply) : Strategy → Suffix
  | .sequential => ⟨toString s.counter.toNat⟩
  | .random => ⟨s.source s.issued⟩

def advance (s : Supply) : Strategy → Supply
  | .sequential => { s with counter := s.counter + 1 }
  | .random => { s with issued := s.issued + 1 }

@[simp] theorem source_advance (s : Supply) (strategy : Strategy) :
    (s.advance strategy).source = s.source := by
  cases strategy <;> rfl

end Supply

end QueryVars
