import QueryVars.Codec.Tagged.Lemmas
import QueryVars.Supply.Generator
import QueryVars.Var.Token

/-!
# The JSON form of categories, token kinds and configurations

Categories and strategies are plain names, a token kind is a tagged value, and
a configuration is an object or a list whose missing parts keep their defaults.
-/

namespace QueryVars

open Json (Source)

namespace Category

def name : Category → String
  | .joinCapable => "join_capable"
  | .optional => "optional"
  | .ungrounding => "un_groundable"

def ofName : String → Decoded Category
  | "join_capable" => .ok .joinCapable
  | "optional" => .ok .optional
  | "un_groundable" => .ok .ungrounding
  | _ => .error .malformed

def toJson (c : Category) : Json := .str c.name

def read (held : Bool) (s : Source) : Decoded Category := do ofName (← s.plainName held)

def ofJson (j : Json) : Decoded Category := read false j.source

end Category

namespace TokenKind

def toJson : TokenKind → Json
  | .var category => Json.tag "variable" "category" category.toJson
  | .wildcard => Json.bareTag "wildcard"
  | .constant => Json.bareTag "constant"

def ofContent (held : Bool) (kind : String) (content : Option Source) : Decoded TokenKind :=
  match kind, content with
  | "variable", some content => .var <$> Category.read held content
  | "wildcard", none | "wildcard", some .null => .ok .wildcard
  | "constant", none | "constant", some .null => .ok .constant
  | _, _ => .error .malformed

def tagging : Tagging TokenKind where
  names := ["variable", "wildcard", "constant"]
  key := "category"
  bare kind := ofContent false kind none

def read (held : Bool) (s : Source) : Decoded TokenKind :=
  tagging.read (fun held kind content => ofContent held kind (some content)) held s

def ofJson (j : Json) : Decoded TokenKind := read false j.source

end TokenKind

namespace Strategy

def name : Strategy → String
  | .sequential => "sequential"
  | .random => "random"

def ofName : String → Decoded Strategy
  | "sequential" => .ok .sequential
  | "random" => .ok .random
  | _ => .error .malformed

def toJson (s : Strategy) : Json := .str s.name

def read (s : Source) : Decoded Strategy := do ofName (← s.plainName false)

def ofJson (j : Json) : Decoded Strategy := read j.source

end Strategy

namespace Config

def toJson (c : Config) : Json :=
  .obj [("base_name", .str c.baseName), ("suffix", c.strategy.toJson)]

def ofParts (baseName strategy : Option Source) : Decoded Config := do
  let baseName ←
    match baseName with
    | none => pure default.baseName
    | some (.str text) => pure text
    | some _ => .error .malformed
  let strategy ←
    match strategy with
    | none => pure default.strategy
    | some s => Strategy.read s
  return ⟨baseName, strategy⟩

/-- The parts that an object gives, each at most once. Other members are passed
over. -/
def parts (closed : Bool) : List (Option String × Source) → Decoded (Option Source × Option Source)
  | [] => Decoded.closing closed (none, none)
  | (key, s) :: rest => do
    let (baseName, strategy) ← parts closed rest
    match key with
    | some "base_name" =>
      if baseName.isNone then .ok (some s, strategy) else .error .malformed
    | some "suffix" =>
      if strategy.isNone then .ok (baseName, some s) else .error .malformed
    | some _ => if s.sound then .ok (baseName, strategy) else .error .malformed
    | none => .error .malformed

/-- Reading does not ask whether the base name is valid. -/
def read : Source → Decoded Config
  | .obj members closed => do
    let (baseName, strategy) ← parts closed members
    ofParts baseName strategy
  | .arr [] true => ofParts none none
  | .arr [baseName] true => ofParts (some baseName) none
  | .arr [baseName, strategy] true => ofParts (some baseName) (some strategy)
  | _ => .error .malformed

def ofJson (j : Json) : Decoded Config := read j.source

theorem parts_eq {es : List (String × Source)} (hs : ∀ e ∈ es, e.2.sound = true)
    (hn : es.Pairwise fun a b => a.1 ≠ b.1) :
    parts true (es.map fun e => (some e.1, e.2)) =
      .ok (Json.lookup "base_name" es, Json.lookup "suffix" es) := by
  induction es with
  | nil => rfl
  | cons e rest ih =>
    obtain ⟨hfirst, hrest⟩ := List.pairwise_cons.1 hn
    have hnone : ∀ {k}, e.1 = k → Json.lookup k rest = none :=
      fun hk => Json.lookup_eq_none fun f hf h => hfirst f hf (hk.trans h.symm)
    rw [List.map_cons, parts, ih (fun f hf => hs f (List.mem_cons_of_mem _ hf)) hrest]
    by_cases hb : e.1 = "base_name"
    · rw [Json.lookup_cons_of_ne (show e.1 ≠ "suffix" by simp [hb])]
      simp [hb, hnone hb, Json.lookup, bind, Except.bind]
    · by_cases hx : e.1 = "suffix"
      · rw [Json.lookup_cons_of_ne hb]
        simp [hx, hnone hx, Json.lookup, bind, Except.bind]
      · rw [Json.lookup_cons_of_ne hb, Json.lookup_cons_of_ne hx]
        simp [bind, Except.bind, hs e List.mem_cons_self]

theorem ofJson_obj (members : List (String × Json)) :
    ofJson (.obj members) =
      ofParts ((Json.lookup "base_name" members).map Json.source)
        ((Json.lookup "suffix" members).map Json.source) := by
  have hs : ∀ e ∈ (Json.entries members).map fun e => (e.1, e.2.source), e.2.sound = true :=
    fun e he => Json.passes_of_mem he false
  have hn : ((Json.entries members).map fun e => (e.1, e.2.source)).Pairwise
      fun a b => a.1 ≠ b.1 := by
    refine List.pairwise_map.2 ((Json.sorted_entries members).imp ?_)
    intro a b h (hab : a.1 = b.1)
    simp [hab] at h
  have h := parts_eq hs hn
  rw [Json.lookup_map, Json.lookup_map, Json.lookup_entries, Json.lookup_entries,
    List.map_map] at h
  rw [ofJson, Json.source_obj, read]
  change (parts true ((Json.entries members).map fun e => (some e.1, e.2.source)) >>= _) = _
  rw [show parts true ((Json.entries members).map fun e => (some e.1, e.2.source)) = _ from h]
  rfl

end Config

end QueryVars
