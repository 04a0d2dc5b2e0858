import QueryVars.Codec.Basic

/-!
# Tagged values

Sum types are written as a tag with content, in one of two spellings: an object
with a member for each, or a list of the two. An object is read in order. If its
content comes before its tag, the content is held until the tag says what to
make of it, and what is held is read more liberally: a name may hold an empty
object in place of `null`, and the tag of a list may be the place of a name
among all the names.
-/

namespace QueryVars

namespace Json

def tag (kind key : String) (content : Json) : Json :=
  .obj [("kind", .str kind), (key, content)]

def bareTag (kind : String) : Json := .obj [("kind", .str kind)]

namespace Source

def isNothing (held : Bool) : Source → Bool
  | .null => true
  | .obj [] true => held
  | _ => false

/-- A plain name is written as a string, or as an object whose only member is
that name, holding nothing. -/
def plainName (held : Bool) : Source → Decoded String
  | .str name => .ok name
  | .obj [(some name, s)] true => if s.isNothing held then .ok name else .error .malformed
  | _ => .error .malformed

end Source

end Json

open Json (Source)

/-- A member of an object, with the way in which its value reads as the content
of a tag. -/
structure Member (α : Type) where
  key : Option String
  source : Source
  content : Bool → String → Decoded α

structure Tagging (α : Type) where
  names : List String
  /-- The key of the content; that of the tag is always `kind`. -/
  key : String
  /-- What a tag without content reads as. -/
  bare : String → Decoded α

namespace Tagging

/-- The next member that counts, and those behind it. Members that do not count
are passed over. -/
def next (g : Tagging α) (closed : Bool) :
    List (Member α) → Decoded (Option (Member α × List (Member α)))
  | [] => Decoded.closing closed none
  | m :: rest =>
    match m.key with
    | none => .error .malformed
    | some key =>
      if key = "kind" ∨ key = g.key then .ok (some (m, rest))
      else if m.source.sound then g.next closed rest
      else .error .malformed

/-- Neither the tag nor the content may be repeated. -/
def finish (g : Tagging α) (closed : Bool) (rest : List (Member α)) (a : α) : Decoded α := do
  match ← g.next closed rest with
  | none => .ok a
  | some _ => .error .malformed

def readObj (g : Tagging α) (held closed : Bool) (members : List (Member α)) : Decoded α := do
  match ← g.next closed members with
  | none => .error .malformed
  | some (first, rest) =>
    if first.key = some "kind" then do
      let tag ← first.source.plainName held
      match ← g.next closed rest with
      | none => g.bare tag
      | some (second, rest) =>
        if second.key = some "kind" then .error .malformed
        else do g.finish closed rest (← second.content held tag)
    else if first.source.whole then do
      match ← g.next closed rest with
      | none => .error .malformed
      | some (second, rest) =>
        if second.key = some "kind" then do
          let tag ← second.source.plainName held
          g.finish closed rest (← first.content true tag)
        else .error .malformed
    else .error .malformed

def listTag (g : Tagging α) (held : Bool) : Source → Decoded String
  | .str name => .ok name
  | .int (.ofNat place) =>
    match held, g.names[place]? with
    | true, some name => .ok name
    | _, _ => .error .malformed
  | _ => .error .malformed

/-- The list spelling always has content, and nothing behind it. -/
def readArr (g : Tagging α) (held closed : Bool) (tag : Source)
    (content : Bool → String → Decoded α) (rest : List Source) : Decoded α := do
  let a ← content held (← g.listTag held tag)
  Decoded.closing (rest.isEmpty && closed) a

/-- Reads a tagged value whose content holds no further value of its type. -/
def read (g : Tagging α) (content : Bool → String → Source → Decoded α) (held : Bool) :
    Source → Decoded α
  | .obj members closed =>
    g.readObj held closed
      (members.map fun e => ⟨e.1, e.2, fun held tag => content held tag e.2⟩)
  | .arr (tag :: s :: rest) closed =>
    g.readArr held closed tag (fun held tag => content held tag s) rest
  | _ => .error .malformed

end Tagging

end QueryVars
