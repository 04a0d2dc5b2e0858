import QueryVars.Codec.Config
import QueryVars.Proofs.Groups
import QueryVars.Proofs.MapCodec

/-!
# What is written reads back

Every value has a JSON form, and reading that form gives the value again. There are
two exceptions. JSON has no infinite numbers, so a term with such a number is written
but not read; and of the equality maps that renaming leads to, those read back that
explicit groups make.
-/

namespace QueryVars

open Json (Source)

-- ---------------------------------------------------------------------------
-- Tagged values
-- ---------------------------------------------------------------------------

namespace Tagging

variable (g : Tagging α) (content : Bool → String → Source → Decoded α)

theorem read_tag (hg : g.key ≠ "kind") (kind : String) (c : Json) :
    g.read content false (Json.tag kind g.key c).source =
      content (compare g.key "kind" == .lt) kind c.source := by
  have htag : Json.lookup "kind" [("kind", .str kind), (g.key, c)] = some (.str kind) := by
    simp [Json.lookup, hg]
  have hkey : Json.lookup g.key [("kind", .str kind), (g.key, c)] = some c := by
    simp [Json.lookup]
  rw [Json.tag, g.read_obj content _ hg, htag, hkey]
  rfl

theorem read_bareTag (hg : g.key ≠ "kind") (kind : String) :
    g.read content false (Json.bareTag kind).source = g.bare kind := by
  have hkey : Json.lookup g.key [("kind", Json.str kind)] = none := by
    simp [Json.lookup, Ne.symm hg]
  rw [Json.bareTag, g.read_obj content _ hg, hkey]
  rfl

end Tagging

theorem Category.ofJson_toJson (c : Category) : ofJson c.toJson = .ok c := by
  cases c <;> rfl

theorem Strategy.ofJson_toJson (s : Strategy) : ofJson s.toJson = .ok s := by
  cases s <;> rfl

theorem TokenKind.ofJson_toJson (k : TokenKind) : ofJson k.toJson = .ok k := by
  cases k with
  | var c =>
    rw [toJson, ofJson, read, show "category" = tagging.key from rfl, tagging.read_tag _ (by decide)]
    cases c <;> rfl
  | wildcard => rw [toJson, ofJson, read, tagging.read_bareTag _ (by decide)]; rfl
  | constant => rw [toJson, ofJson, read, tagging.read_bareTag _ (by decide)]; rfl

theorem Config.ofJson_toJson (c : Config) : ofJson c.toJson = .ok c := by
  rw [toJson, ofJson_obj]
  obtain ⟨base, s⟩ := c
  cases s <;> rfl

-- ---------------------------------------------------------------------------
-- Literals and terms
-- ---------------------------------------------------------------------------

def Literal.isFinite : Literal → Bool
  | .float value => value.isFinite
  | .null | .bool _ | .int _ => true

namespace Literal

theorem ofJson_tag (kind : String) (content : Json) :
    ofJson (Json.tag kind "value" content) = ofContent kind (some content.source) :=
  tagging.read_tag (fun _ kind content => ofContent kind (some content)) (by decide) kind content

theorem ofContent_int (value : Int64) :
    ofContent "int" (some (.int value.toInt)) = .ok (.int value) := by
  have hrange : Int64.minValue.toInt ≤ value.toInt ∧ value.toInt ≤ Int64.maxValue.toInt :=
    ⟨value.le_toInt, value.toInt_le⟩
  rw [ofContent, if_pos hrange, Int64.ofInt_toInt]

/-- An infinite number is written as `null`, which no float reads. -/
theorem ofJson_toJson (l : Literal) :
    ofJson l.toJson = if l.isFinite then .ok l else .error .malformed := by
  cases l with
  | null => rfl
  | bool value => exact ofJson_tag "bool" (.bool value)
  | int value =>
    rw [toJson, ofJson_tag, Json.source, ofContent_int]
    rfl
  | float value =>
    rw [toJson, ofJson_tag, Json.ofFloat, isFinite]
    split <;> rfl

end Literal

namespace Term

def isFinite (t : Term) : Bool :=
  t.leaves.all fun
    | .literal value => value.isFinite
    | _ => true

theorem isFinite_seq (items : List Term) : (seq items).isFinite = items.all isFinite := by
  simp only [isFinite, leaves, leavesAll_eq, List.all_flatMap]
  rfl

theorem ofJson_tag (kind : String) (content : Json) :
    ofJson (Json.tag kind "value" content) = readContent false kind content.source := by
  rw [ofJson, read_eq]
  exact tagging.read_tag _ (by decide) kind content

mutual
/-- One number that is not finite spoils the whole term. -/
theorem ofJson_toJson (t : Term) :
    ofJson t.toJson = if t.isFinite then .ok t else .error .malformed := by
  cases t with
  | seq items =>
    rw [toJson, ofJson_tag, isFinite_seq, Json.source, readContent, readItems_toJsonAll items]
    cases items.all isFinite <;> rfl
  | symbol text => exact ofJson_tag "symbol" (.str text)
  | str text => exact ofJson_tag "str" (.str text)
  | var v =>
    rw [toJson, ofJson_tag, readContent, v.read_toJson]
    rfl
  | literal value =>
    have hvalue : Literal.read false value.toJson.source = _ := value.ofJson_toJson
    rw [toJson, ofJson_tag, readContent, hvalue]
    simp only [isFinite, leaves, List.all_cons, List.all_nil, Bool.and_true]
    cases value.isFinite <;> rfl
theorem readItems_toJsonAll (ts : List Term) :
    readItems false (Json.itemSources (toJsonAll ts)) =
      if ts.all isFinite then .ok ts else .error .malformed := by
  cases ts with
  | nil => rfl
  | cons t ts =>
    have ht : read false t.toJson.source = _ := ofJson_toJson t
    rw [toJsonAll, Json.itemSources, readItems, ht, readItems_toJsonAll ts, List.all_cons]
    cases t.isFinite with
    | false => rfl
    | true => cases ts.all isFinite <;> rfl
end

end Term

-- ---------------------------------------------------------------------------
-- The whole format
-- ---------------------------------------------------------------------------

theorem Equalities.ofJson_toJson_iff_ofGroups (m : Equalities) :
    ofJson m.toJson = .ok m ↔ ∃ groups, ofGroups groups = .ok m := by
  rw [ofJson_toJson, Decoded.ofFault_eq_ok_iff]
  constructor
  · exact fun h => ⟨m.groups, h⟩
  · rintro ⟨groups, h⟩
    exact ofGroups_groups_iff.2 (nodup_names_of_ofGroups h)

/-- Base names need not be valid, integers may be any of 64 bits, and terms may be
nested as deep as they like. -/
theorem json_round_trip :
    (∀ t : Term, Term.ofJson t.toJson = if t.isFinite then .ok t else .error .malformed) ∧
    (∀ l : Literal, Literal.ofJson l.toJson = if l.isFinite then .ok l else .error .malformed) ∧
    (∀ v : Var, Var.ofJson v.toJson = .ok v) ∧
    (∀ c : Category, Category.ofJson c.toJson = .ok c) ∧
    (∀ k : TokenKind, TokenKind.ofJson k.toJson = .ok k) ∧
    (∀ s : Strategy, Strategy.ofJson s.toJson = .ok s) ∧
    (∀ c : Config, Config.ofJson c.toJson = .ok c) ∧
    (∀ m : Equalities, Equalities.ofJson m.toJson = .ok m ↔
      ∃ groups, Equalities.ofGroups groups = .ok m) ∧
    (∀ d : Drift, Drift.ofJson d.toJson = .ok d) :=
  ⟨Term.ofJson_toJson, Literal.ofJson_toJson, Var.read_toJson, Category.ofJson_toJson,
    TokenKind.ofJson_toJson, Strategy.ofJson_toJson, Config.ofJson_toJson,
    Equalities.ofJson_toJson_iff_ofGroups, Drift.ofJson_toJson⟩

end QueryVars
