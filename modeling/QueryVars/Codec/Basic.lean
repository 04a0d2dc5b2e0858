import QueryVars.Fault
import QueryVars.Json.Text

/-!
# Decoding

A source either decodes or shows a first fault in reading order. Most faults
are mere shape; a name or a family of groups can be of the right shape and
still break a rule, and then the fault is kept. What follows the first fault
does not matter, not even whether it is JSON. A value is decoded as the source
that it is.
-/

namespace QueryVars

inductive DecodeError
  | malformed
  | rejected (fault : Fault)
  deriving DecidableEq

abbrev Decoded := Except DecodeError

namespace Decoded

def ofFault (result : Except Fault α) : Decoded α :=
  match result with
  | .ok a => .ok a
  | .error fault => .error (.rejected fault)

/-- Read `a` out of a container, which may break off behind it. -/
def closing (closed : Bool) (a : α) : Decoded α :=
  if closed then .ok a else .error .malformed

/-- Decodes what `text` spells; nothing else may follow. -/
def ofText (read : Json.Source → Decoded α) (text : String) : Decoded α := do
  let d := Json.Document.ofText text
  closing d.ended (← read d.source)

@[simp] theorem closing_true (a : α) : closing true a = .ok a := rfl

theorem closing_eq_ok_iff {closed : Bool} {a b : α} :
    closing closed a = .ok b ↔ closed = true ∧ a = b := by
  cases closed <;> simp [closing]

theorem closing_eq_error_iff {closed : Bool} {a : α} {e : DecodeError} :
    closing closed a = .error e ↔ closed = false ∧ e = .malformed := by
  cases closed <;> simp [closing, eq_comm]

theorem ofFault_eq_ok_iff {result : Except Fault α} {a : α} :
    ofFault result = .ok a ↔ result = .ok a := by
  cases result <;> simp [ofFault]

theorem ofFault_eq_error_iff {result : Except Fault α} {e : DecodeError} :
    ofFault result = .error e ↔ ∃ fault, result = .error fault ∧ e = .rejected fault := by
  cases result <;> simp [ofFault, eq_comm]

theorem bind_eq_ok_iff {x : Decoded α} {f : α → Decoded β} {b : β} :
    x >>= f = .ok b ↔ ∃ a, x = .ok a ∧ f a = .ok b := by
  cases x <;> simp [bind, Except.bind]

theorem bind_eq_error_iff {x : Decoded α} {f : α → Decoded β} {e : DecodeError} :
    x >>= f = .error e ↔ x = .error e ∨ ∃ a, x = .ok a ∧ f a = .error e := by
  cases x <;> simp [bind, Except.bind]

theorem map_eq_ok_iff {f : α → β} {x : Decoded α} {b : β} :
    f <$> x = .ok b ↔ ∃ a, x = .ok a ∧ f a = b := by
  cases x <;> simp [Functor.map, Except.map]

theorem map_eq_error_iff {f : α → β} {x : Decoded α} {e : DecodeError} :
    f <$> x = .error e ↔ x = .error e := by
  cases x <;> simp [Functor.map, Except.map]

theorem map_eq_of_mapM {f : α → Decoded β} {g : α → γ} {k : β → γ} {as : List α} {bs : List β}
    (hf : ∀ a b, f a = .ok b → g a = k b) (h : as.mapM f = .ok bs) : as.map g = bs.map k := by
  induction as generalizing bs with
  | nil =>
    cases h
    rfl
  | cons a rest ih =>
    simp only [List.mapM_cons, bind_eq_ok_iff] at h
    obtain ⟨b, hb, cs, hcs, h⟩ := h
    cases h
    rw [List.map_cons, List.map_cons, hf a b hb, ih hcs]

end Decoded

end QueryVars
