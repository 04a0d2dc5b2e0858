/-!
# JSON values

Integers and floats are kept apart, as a reader that fills typed fields has to
tell `1` from `1.0`. An object is a finite map written as a list of members; a
later member replaces an earlier one of the same key, which is what `lookup`
implements.
-/

namespace QueryVars

inductive Json
  | null
  | bool (value : Bool)
  | int (value : Int)
  | float (value : Float)
  | str (text : String)
  | arr (items : List Json)
  | obj (members : List (String × Json))

namespace Json

instance : Inhabited Json := ⟨.null⟩

/-- JSON has no infinite number and none that is no number; `null` stands for them. -/
def ofFloat (x : Float) : Json := if x.isFinite then .float x else .null

/-- The last member under `key`. -/
def lookup (key : String) : List (String × α) → Option α
  | [] => none
  | (k, v) :: rest =>
    match lookup key rest with
    | some w => some w
    | none => if k = key then some v else none

theorem lookup_map (f : α → β) (key : String) (members : List (String × α)) :
    lookup key (members.map fun e => (e.1, f e.2)) = (lookup key members).map f := by
  induction members with
  | nil => rfl
  | cons e rest ih =>
    simp only [List.map_cons, lookup, ih]
    cases lookup key rest with
    | some a => rfl
    | none => by_cases h : e.1 = key <;> simp [h]

theorem mem_of_lookup {key : String} {members : List (String × α)} {a : α}
    (h : lookup key members = some a) : (key, a) ∈ members := by
  induction members with
  | nil => simp [lookup] at h
  | cons e rest ih =>
    simp only [lookup] at h
    cases hr : lookup key rest with
    | some b => exact List.mem_cons_of_mem _ (ih (by simpa [hr] using h))
    | none =>
      by_cases hk : e.1 = key
      · obtain ⟨k, v⟩ := e
        simp_all
      · simp [hr, hk] at h

theorem lookup_eq_none {key : String} {members : List (String × α)}
    (h : ∀ e ∈ members, e.1 ≠ key) : lookup key members = none := by
  induction members with
  | nil => rfl
  | cons e rest ih =>
    simp [lookup, h e List.mem_cons_self, ih fun f hf => h f (List.mem_cons_of_mem _ hf)]

theorem lookup_cons_of_ne {key : String} {e : String × α} {rest : List (String × α)}
    (h : e.1 ≠ key) : lookup key (e :: rest) = lookup key rest := by
  simp only [lookup, h, if_false]
  cases lookup key rest <;> rfl

theorem lookup_cons_eq_none_iff {key : String} {e : String × α} {rest : List (String × α)} :
    lookup key (e :: rest) = none ↔ e.1 ≠ key ∧ lookup key rest = none := by
  simp only [lookup]
  cases lookup key rest <;> simp

def get? (key : String) : Json → Option Json
  | .obj members => lookup key members
  | _ => none

def get (key : String) (j : Json) : Json := (j.get? key).getD .null

end Json

end QueryVars
