import QueryVars.Session.Argument

/-!
# Questions

What can be asked about texts, names and values alone: what a token is, how
names compare, what a value decodes to. The arguments are read like those of
commands.
-/

namespace QueryVars

namespace Session

open Json (Source)

inductive TokensArg
  | texts (tokens : List String)
  | names (tokens : List String)
  | terms (tokens : Json)

def TokensArg.read : TokensArg → SessionM (List (Option String × TokenKind))
  | .texts tokens => return tokens.map fun text => (some text, TokenKind.of text)
  | .names tokens => return (← ofFault (readVars tokens)).map fun v => (some v.name, v.kind)
  | .terms tokens => return (← ofDecoded (Term.listOfJson tokens)).map fun t => (t.text?, t.kind)

inductive TermArg
  | symbol (text : String)
  | str (text : String)
  | int (value : Json)
  | seq (items : Json)
  | var (name : String)
  | literal (value : Json)

def TermArg.read : TermArg → SessionM Term
  | .symbol text => return .symbol text
  | .str text => return .str text
  | .int value => return .literal (← ofDecoded (Literal.ofContent "int" (some value.source)))
  | .seq items => return .seq (← ofDecoded (Term.listOfJson items))
  | .var name => return .var (← ofFault (Var.parse name))
  | .literal value => return .literal (← ofDecoded (Literal.ofJson value))

inductive Encoded
  | text (form : String)
  | value (form : Json)

def Encoded.decode (read : Source → Decoded α) : Encoded → Decoded α
  | .text form => Decoded.ofText read form
  | .value form => read form.source

inductive Format
  | term
  | literal
  | var
  | category
  | tokenKind
  | strategy
  | config
  | equalities
  | drift

def Format.recode (e : Encoded) : Format → Decoded Json
  | .term => Term.toJson <$> e.decode (Term.read false)
  | .literal => Literal.toJson <$> e.decode (Literal.read false)
  | .var => Var.toJson <$> e.decode Var.read
  | .category => Category.toJson <$> e.decode (Category.read false)
  | .tokenKind => TokenKind.toJson <$> e.decode (TokenKind.read false)
  | .strategy => Strategy.toJson <$> e.decode Strategy.read
  | .config => Config.toJson <$> e.decode Config.read
  | .equalities => Equalities.toJson <$> e.decode Equalities.read
  | .drift => Drift.toJson <$> e.decode Drift.read

end Session

open Session

inductive Question
  | category (value : Json)
  | classify (tokens : TokensArg)
  | allGroundable (tokens : TokensArg)
  | parse (name : String)
  | ofText (text : String)
  | order (left right : String)
  | sort (names : List String)
  | inspect (term : Json)
  | build (term : TermArg)
  | alike (left right : Json)
  | recode (format : Format) (value : Encoded)
  | validate (config : Json)
  | describe (generator : GeneratorArg)
  | groups (family : List (String × List String)) (names : List String)
  | driftOf (equalities : Json)
  | drift (value : DriftArg) (names : List String)

inductive Finding
  | category (c : Category)
  | tokens (tokens : List (Option String × TokenKind))
  | truth (value : Bool)
  | var (v : Option Var)
  | order (names categories : Ordering) (same : Bool)
  | vars (vs : List Var)
  | term (t : Term)
  | json (value : Json)
  | generator (g : Generator)
  | equalities (m : Equalities) (names : List Var)
  | drift (d : Drift)
  | driftInfo (d : Drift) (names : List Var)

namespace Question

def ask : Question → SessionM Finding
  | .category value => return .category (← ofDecoded (Category.ofJson value))
  | .classify tokens => return .tokens (← tokens.read)
  | .allGroundable tokens => do
    let tokens ← tokens.read
    return .truth (TokenKind.allGroundable (tokens.map Prod.snd))
  | .parse name => return .var (some (← ofFault (Var.parse name)))
  | .ofText text => return .var (Var.ofText? text)
  | .order left right => do
    let left ← ofFault (Var.parse left)
    let right ← ofFault (Var.parse right)
    return .order (compare left right) (compare left.category right.category) (left == right)
  | .sort names => return .vars (Var.sort (← ofFault (readVars names)))
  | .inspect term => return .term (← ofDecoded (Term.ofJson term))
  | .build term => return .term (← term.read)
  | .alike left right => do
    let left ← ofDecoded (Term.ofJson left)
    return .truth (left == (← ofDecoded (Term.ofJson right)))
  | .recode format value => return .json (← ofDecoded (format.recode value))
  | .validate config => do
    let config ← ofDecoded (Config.ofJson config)
    let _ ← ofFault config.naming
    return .truth true
  | .describe generator => return .generator (← generator.read)
  | .groups family names => do
    let m ← ofFault (readGroups family)
    return .equalities m (← ofFault (readVars names))
  | .driftOf equalities => do
    let m ← ofDecoded (Equalities.ofJson equalities)
    return .drift m.drift
  | .drift value names => do
    let d ← value.read
    return .driftInfo d (← ofFault (readVars names))

end Question

end QueryVars
