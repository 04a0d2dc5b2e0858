/-!
# Variable categories

A logic variable announces its category by the marker its name begins with.
The markers of optional and ungrounding variables overlap, so the longer one
is tested first; `of?_marker_append` says when a marker is read back.
-/

namespace QueryVars

inductive Category
  /-- Repetition forces an equality join; absence is not tolerated. -/
  | joinCapable
  /-- May be unbound. -/
  | optional
  /-- Optional, and the enclosing branch may produce no grounding at all. -/
  | ungrounding
  deriving DecidableEq, Ord, Repr

namespace Category

def marker : Category → String
  | .joinCapable => "?"
  | .optional => "!"
  | .ungrounding => "!!"

def ofChars? : List Char → Option Category
  | '!' :: '!' :: _ => some .ungrounding
  | '!' :: _ => some .optional
  | '?' :: _ => some .joinCapable
  | _ => none

def of? (text : String) : Option Category := ofChars? text.toList

def isJoinCapable : Category → Bool
  | .joinCapable => true
  | .optional | .ungrounding => false

/-- Ungrounding variables are optional too. -/
def isOptional (c : Category) : Bool := !c.isJoinCapable

def isUngrounding : Category → Bool
  | .ungrounding => true
  | .joinCapable | .optional => false

def isGroundable (c : Category) : Bool := !c.isUngrounding

theorem of?_ne_none_iff {text : String} :
    of? text ≠ none ↔ ∃ rest, text.toList = '?' :: rest ∨ text.toList = '!' :: rest := by
  unfold of?
  generalize text.toList = chars
  fun_cases ofChars? chars <;> simp_all

theorem ofChars?_append_of_ne {text rest : List Char} {c : Category}
    (h : ofChars? text = some c) (hr : ∀ tail, rest ≠ '!' :: tail) :
    ofChars? (text ++ rest) = some c := by
  fun_cases ofChars? text with
  | case1 => exact h
  | case2 tail hd =>
    cases tail with
    | nil =>
      cases rest with
      | nil => exact h
      | cons d tail =>
        have : d ≠ '!' := fun he => hr tail (he ▸ rfl)
        simpa [ofChars?, this] using h
    | cons d tail =>
      have : d ≠ '!' := fun he => hd tail (he ▸ rfl)
      simpa [ofChars?, this] using h
  | case3 => exact h
  | case4 h1 h2 h3 => simp [ofChars?] at h

theorem ofChars?_marker_append (c : Category) {rest : List Char}
    (hr : ∀ tail, rest ≠ '!' :: tail) : ofChars? (c.marker.toList ++ rest) = some c :=
  ofChars?_append_of_ne (by cases c <;> rfl) hr

/-- Text that does not begin with `!` leaves the announced category alone. -/
theorem of?_append {text rest : String} {c : Category} (h : of? text = some c)
    (hr : ∀ tail, rest.toList ≠ '!' :: tail) : of? (text ++ rest) = some c := by
  simpa [of?] using ofChars?_append_of_ne h hr

theorem of?_marker_append (c : Category) {rest : String}
    (hr : ∀ tail, rest.toList ≠ '!' :: tail) : of? (c.marker ++ rest) = some c := by
  simpa [of?] using ofChars?_marker_append c hr

end Category

end QueryVars
