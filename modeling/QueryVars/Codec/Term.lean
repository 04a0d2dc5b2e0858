import QueryVars.Codec.Tagged.Lemmas
import QueryVars.Term.Basic

/-!
# The JSON form of terms

Terms and literals are tagged values, nested as deep as the term. A variable is
its name, and reading one asks for a marker. `read_eq` reduces the reader of
terms, which recurs over the source itself, to the common way of reading tags.
-/

namespace QueryVars

open Json (Source)

namespace Var

def toJson (v : Var) : Json := .str v.name

def read : Source → Decoded Var
  | .str text => .ofFault (Var.ofName text)
  | _ => .error .malformed

def ofJson (j : Json) : Decoded Var := read j.source

theorem read_str (text : String) : read (.str text) = .ofFault (parse text) := by
  rw [read, ofName_eq_parse]

end Var

namespace Literal

def toJson : Literal → Json
  | .null => Json.bareTag "null"
  | .bool value => Json.tag "bool" "value" (.bool value)
  | .int value => Json.tag "int" "value" (.int value.toInt)
  | .float value => Json.tag "float" "value" (Json.ofFloat value)

/-- An integer is read into the 64-bit range or not at all; a float takes any
number. -/
def ofContent (kind : String) (content : Option Source) : Decoded Literal :=
  match kind, content with
  | "null", none | "null", some .null => .ok .null
  | "bool", some (.bool value) => .ok (.bool value)
  | "int", some (.int value) =>
    if Int64.minValue.toInt ≤ value ∧ value ≤ Int64.maxValue.toInt then .ok (.int (.ofInt value))
    else .error .malformed
  | "float", some (.int value) => .ok (.float (.ofInt value))
  | "float", some (.float value) => .ok (.float value)
  | _, _ => .error .malformed

def tagging : Tagging Literal where
  names := ["null", "bool", "int", "float"]
  key := "value"
  bare kind := ofContent kind none

def read (held : Bool) (s : Source) : Decoded Literal :=
  tagging.read (fun _ kind content => ofContent kind (some content)) held s

def ofJson (j : Json) : Decoded Literal := read false j.source

end Literal

namespace Term

mutual
def toJson : Term → Json
  | .seq items => Json.tag "seq" "value" (.arr (toJsonAll items))
  | .symbol text => Json.tag "symbol" "value" (.str text)
  | .str text => Json.tag "str" "value" (.str text)
  | .var v => Json.tag "var" "value" v.toJson
  | .literal value => Json.tag "literal" "value" value.toJson
def toJsonAll : List Term → List Json
  | [] => []
  | t :: ts => toJson t :: toJsonAll ts
end

def tagging : Tagging Term where
  names := ["seq", "symbol", "str", "var", "literal"]
  key := "value"
  bare _ := .error .malformed

mutual
def read (held : Bool) : Source → Decoded Term
  | .obj members closed => tagging.readObj held closed (asMembers members)
  | .arr (tag :: rest) closed => readListed held closed tag rest
  | _ => .error .malformed
def asMembers : List (Option String × Source) → List (Member Term)
  | [] => []
  | (key, s) :: rest => ⟨key, s, fun held kind => readContent held kind s⟩ :: asMembers rest
def readListed (held closed : Bool) (tag : Source) : List Source → Decoded Term
  | [] => .error .malformed
  | s :: rest => tagging.readArr held closed tag (fun held kind => readContent held kind s) rest
def readContent (held : Bool) (kind : String) (content : Source) : Decoded Term :=
  match kind, content with
  | "seq", .arr items closed => do
    let ts ← readItems held items
    Decoded.closing closed (.seq ts)
  | "symbol", .str text => .ok (.symbol text)
  | "str", .str text => .ok (.str text)
  | "var", content => .var <$> Var.read content
  | "literal", content => .literal <$> Literal.read held content
  | _, _ => .error .malformed
def readItems (held : Bool) : List Source → Decoded (List Term)
  | [] => .ok []
  | s :: rest => do
    let t ← read held s
    let ts ← readItems held rest
    return t :: ts
end

theorem readItems_eq (held : Bool) (items : List Source) :
    readItems held items = items.mapM (read held) := by
  induction items with
  | nil => rfl
  | cons s rest ih => simp [readItems, ih]

theorem asMembers_eq (members : List (Option String × Source)) :
    asMembers members =
      members.map fun e => ⟨e.1, e.2, fun held kind => readContent held kind e.2⟩ := by
  induction members with
  | nil => rfl
  | cons e rest ih => simp [asMembers, ih]

theorem read_eq (held : Bool) (s : Source) : read held s = tagging.read readContent held s := by
  unfold Tagging.read
  split
  next => simp [read, asMembers_eq]
  next => simp [read, readListed]
  next hobj harr =>
    unfold read
    split
    next members closed => exact absurd rfl (hobj members closed)
    next tag rest closed =>
      cases rest with
      | nil => rfl
      | cons c rest => exact absurd rfl (harr tag c rest closed)
    next => rfl

def readList : Source → Decoded (List Term)
  | .arr items closed => do Decoded.closing closed (← readItems false items)
  | _ => .error .malformed

def ofJson (j : Json) : Decoded Term := read false j.source

def listOfJson (j : Json) : Decoded (List Term) := readList j.source

end Term

end QueryVars
