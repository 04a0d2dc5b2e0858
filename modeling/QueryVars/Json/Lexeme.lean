import QueryVars.Json.Number

/-!
# Lexemes of JSON text

The text is read one character at a time by an automaton. Where no JSON can go
on, the lexemes end with `broken`. Strings are complete when their quote closes;
numbers and literal names end where a character follows that cannot belong to
them. A string that is well formed may still spell no text: surrogates have to
come in pairs.
-/

namespace QueryVars.Json

inductive Lexeme
  | openArr
  | closeArr
  | openObj
  | closeObj
  | comma
  | colon
  | str (text : Option String)
  | scalar (value : Source)
  | broken

/-- What the automaton is inside of. The characters read so far are in reverse;
they are given up once a string holds half of a surrogate pair. -/
inductive Mode
  | between
  | bare (done : List Char)
  | text (done : Option (List Char))
  | escape (done : Option (List Char))
  /-- Inside `\u`, with the digits read so far; `high` is a leading surrogate
  that waits for its partner. -/
  | unit (done : Option (List Char)) (high : Option Nat) (count value : Nat)
  /-- Behind a leading surrogate, where another `\u` should follow. -/
  | partner (done : Option (List Char)) (high : Nat) (slash : Bool)

structure Lexer where
  mode : Mode
  /-- In reverse. -/
  lexemes : List Lexeme

namespace Lexer

def start : Lexer := ⟨.between, []⟩

def isBlank (c : Char) : Bool := c == ' ' || c == '\n' || c == '\t' || c == '\r'

def isBare (c : Char) : Bool := c.isAlphanum || c == '-' || c == '+' || c == '.'

def bareValue (cs : List Char) : Option Source :=
  if cs = "null".toList then some .null
  else if cs = "true".toList then some (.bool true)
  else if cs = "false".toList then some (.bool false)
  else (Decimal.ofChars? cs).map Decimal.toSource

def hexDigit (c : Char) : Option Nat :=
  if c.isDigit then some (c.toNat - '0'.toNat)
  else if 'a' ≤ c ∧ c ≤ 'f' then some (c.toNat - 'a'.toNat + 10)
  else if 'A' ≤ c ∧ c ≤ 'F' then some (c.toNat - 'A'.toNat + 10)
  else none

def escaped : Char → Option Char
  | '"' => some '"'
  | '\\' => some '\\'
  | '/' => some '/'
  | 'b' => some '\x08'
  | 'f' => some '\x0c'
  | 'n' => some '\n'
  | 'r' => some '\r'
  | 't' => some '\t'
  | _ => none

/-- A complete `\u` unit. Of two surrogates the leading one comes first. -/
def codeUnit (done : Option (List Char)) (high : Option Nat) (value : Nat) : Mode :=
  let trailing := 0xDC00 ≤ value ∧ value < 0xE000
  match high with
  | some high =>
    if trailing then
      .text (done.map (Char.ofNat (0x10000 + (high - 0xD800) * 0x400 + (value - 0xDC00)) :: ·))
    else .text none
  | none =>
    if trailing then .text none
    else if 0xD800 ≤ value ∧ value < 0xDC00 then .partner done value false
    else .text (done.map (Char.ofNat value :: ·))

def punctuation (lexemes : List Lexeme) (c : Char) : Option Lexer :=
  if isBlank c then some ⟨.between, lexemes⟩
  else if isBare c then some ⟨.bare [c], lexemes⟩
  else
    match c with
    | '"' => some ⟨.text (some []), lexemes⟩
    | '[' => some ⟨.between, .openArr :: lexemes⟩
    | ']' => some ⟨.between, .closeArr :: lexemes⟩
    | '\x7b' => some ⟨.between, .openObj :: lexemes⟩
    | '\x7d' => some ⟨.between, .closeObj :: lexemes⟩
    | ',' => some ⟨.between, .comma :: lexemes⟩
    | ':' => some ⟨.between, .colon :: lexemes⟩
    | _ => none

def inText (lexemes : List Lexeme) (done : Option (List Char)) (c : Char) : Option Lexer :=
  if c = '"' then some ⟨.between, .str (done.map fun cs => String.ofList cs.reverse) :: lexemes⟩
  else if c = '\\' then some ⟨.escape done, lexemes⟩
  else if c < ' ' then none
  else some ⟨.text (done.map (c :: ·)), lexemes⟩

def inEscape (lexemes : List Lexeme) (done : Option (List Char)) (c : Char) : Option Lexer :=
  if c = 'u' then some ⟨.unit done none 0 0, lexemes⟩
  else (escaped c).map fun d => ⟨.text (done.map (d :: ·)), lexemes⟩

def step (l : Lexer) (c : Char) : Option Lexer :=
  match l.mode with
  | .between => punctuation l.lexemes c
  | .bare done =>
    if isBare c then some ⟨.bare (c :: done), l.lexemes⟩
    else do punctuation (.scalar (← bareValue done.reverse) :: l.lexemes) c
  | .text done => inText l.lexemes done c
  | .escape done => inEscape l.lexemes done c
  | .unit done high count value => do
    let value := 16 * value + (← hexDigit c)
    if count = 3 then some ⟨codeUnit done high value, l.lexemes⟩
    else some ⟨.unit done high (count + 1) value, l.lexemes⟩
  | .partner done high false =>
    if c = '\\' then some ⟨.partner done high true, l.lexemes⟩ else inText l.lexemes none c
  | .partner done high true =>
    if c = 'u' then some ⟨.unit done (some high) 0 0, l.lexemes⟩ else inEscape l.lexemes none c

def finish (l : Lexer) : List Lexeme :=
  match l.mode with
  | .between => l.lexemes.reverse
  | .bare done => (((bareValue done.reverse).elim .broken .scalar) :: l.lexemes).reverse
  | .text _ | .escape _ | .unit .. | .partner .. => (.broken :: l.lexemes).reverse

def run (l : Lexer) : List Char → List Lexeme
  | [] => l.finish
  | c :: cs =>
    match l.step c with
    | some next => next.run cs
    | none => (.broken :: l.lexemes).reverse

end Lexer

def Lexeme.ofText (text : String) : List Lexeme := Lexer.start.run text.toList

end QueryVars.Json
