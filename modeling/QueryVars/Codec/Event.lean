import QueryVars.Json.Basic
import QueryVars.Supply.Run

/-!
# The JSON form of log events

A line has a level, a message and the fields of its event.
-/

namespace QueryVars.Event

def level : Event → String
  | .renamed .. => "TRACE"
  | .sanitized .. | .intersected .. => "DEBUG"

def message : Event → String
  | .sanitized .. => "sanitized predicate"
  | .renamed .. => "renamed repeated variable"
  | .intersected .. => "intersected drift maps"

/-- Log lines spell categories in a style of their own. -/
def categoryLabel : Category → String
  | .joinCapable => "JoinCapable"
  | .optional => "Optional"
  | .ungrounding => "UnGroundable"

def fields : Event → List (String × Json)
  | .sanitized wildcards baseName =>
    [("wildcard_category", .str (categoryLabel wildcards)), ("base_name", .str baseName)]
  | .renamed repeated duplicate =>
    [("var", .str repeated.name), ("duplicate", .str duplicate.name)]
  | .intersected branches common => [("branches", .int branches), ("common", .int common)]

def toJson (e : Event) : Json :=
  .obj [("level", .str e.level), ("message", .str e.message), ("fields", .obj e.fields)]

end QueryVars.Event
