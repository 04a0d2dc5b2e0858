import QueryVars.Json.Lexeme

/-!
# Reading JSON text

Lexemes are put together by an automaton with a stack of the containers that
are still open. Every text is read as far as it goes: if it breaks off, so does
each container that is open at that place. Containers nested beyond a fixed
depth are read but have no value.
-/

namespace QueryVars.Json

structure Document where
  source : Source
  ended : Bool

/-- A container that is still open, its contents in reverse. -/
inductive Open
  | arr (items : List Source)
  | obj (members : List (Option String × Source))
  /-- An object whose member under `key` has no value yet. -/
  | member (members : List (Option String × Source)) (key : Option String)

inductive Want
  | value
  | valueOrClose
  | key
  | keyOrClose
  | colon
  | separator
  | nothing (whole : Source)

structure Reader where
  stack : List Open
  want : Want

namespace Reader

def start : Reader := ⟨[], .value⟩

def maxDepth : Nat := 127

/-- Whether a container inside of `outer` may have a value. -/
def shallow (outer : List Open) : Bool := (outer.drop (maxDepth - 1)).isEmpty

def put (stack : List Open) (s : Source) : Option Reader :=
  match stack with
  | [] => some ⟨[], .nothing s⟩
  | .arr items :: outer => some ⟨.arr (s :: items) :: outer, .separator⟩
  | .member members key :: outer => some ⟨.obj ((key, s) :: members) :: outer, .separator⟩
  | .obj _ :: _ => none

def close (outer : List Open) (container : Source) : Option Reader :=
  put outer (if shallow outer then container else .unfit)

def value (stack : List Open) : Lexeme → Option Reader
  | .str (some text) => put stack (.str text)
  | .str none => put stack .unfit
  | .scalar s => put stack s
  | .openArr => some ⟨.arr [] :: stack, .valueOrClose⟩
  | .openObj => some ⟨.obj [] :: stack, .keyOrClose⟩
  | .closeArr | .closeObj | .comma | .colon | .broken => none

def step (r : Reader) (lexeme : Lexeme) : Option Reader :=
  match r.want, lexeme, r.stack with
  | .value, lexeme, stack => value stack lexeme
  | .valueOrClose, .closeArr, .arr items :: outer => close outer (.arr items.reverse true)
  | .valueOrClose, lexeme, stack => value stack lexeme
  | .key, .str key, .obj members :: outer
  | .keyOrClose, .str key, .obj members :: outer =>
    some ⟨.member members key :: outer, .colon⟩
  | .keyOrClose, .closeObj, .obj members :: outer => close outer (.obj members.reverse true)
  | .colon, .colon, stack => some ⟨stack, .value⟩
  | .separator, .comma, .arr items :: outer => some ⟨.arr items :: outer, .value⟩
  | .separator, .comma, .obj members :: outer => some ⟨.obj members :: outer, .key⟩
  | .separator, .closeArr, .arr items :: outer => close outer (.arr items.reverse true)
  | .separator, .closeObj, .obj members :: outer => close outer (.obj members.reverse true)
  | _, _, _ => none

/-- A container that breaks off, within its last part if there is one. -/
def Open.broken (last : Option Source) : Open → Source
  | .arr items => .arr (last.toList ++ items).reverse false
  | .obj members => .obj members.reverse false
  | .member members key => .obj ((key, last.getD .broken) :: members).reverse false

/-- The open containers as one source, around the part that breaks off. -/
def breakOff (part : Option Source) : List Open → Source
  | [] => part.getD .broken
  | container :: outer =>
    breakOff (some (if shallow outer then Open.broken part container else .broken)) outer

def stop (r : Reader) : Document :=
  match r.want with
  | .nothing whole => ⟨whole, false⟩
  | _ => ⟨breakOff none r.stack, false⟩

def run (r : Reader) : List Lexeme → Document
  | [] =>
    match r.want with
    | .nothing whole => ⟨whole, true⟩
    | _ => r.stop
  | lexeme :: rest =>
    match r.step lexeme with
    | some next => next.run rest
    | none => r.stop

end Reader

def Document.ofText (text : String) : Document := Reader.start.run (Lexeme.ofText text)

/-- `none` unless the whole text is one value. -/
def ofText? (text : String) : Option Json :=
  let d := Document.ofText text
  if d.ended then d.source.toJson? else none

end QueryVars.Json
