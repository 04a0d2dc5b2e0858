import QueryVars.Codec.Term
import QueryVars.Proofs.ByteOrder
import QueryVars.Supply.Generator

/-!
# Categories follow names

A variable carries its category next to its name. Reading text takes the category
from the text; generating a name puts a marker in front of a base name or a suffix
behind a name, and is given the category from elsewhere. In either way the name
still announces the category that is carried, so a variable is its name, and the
order of variables is the order of their names.
-/

namespace QueryVars

namespace Var

def parts (v : Var) : String × Category := (v.name, v.category)

theorem parts_ofText? (text : String) :
    (ofText? text).map parts = (Category.of? text).map (text, ·) := by
  rw [← map_category_ofText?]
  cases h : ofText? text with
  | none => rfl
  | some v =>
    obtain rfl := ofText?_eq_some_iff.1 h
    rfl

theorem toOption_parse (text : String) : (parse text).toOption = ofText? text := by
  unfold parse
  cases ofText? text <;> rfl

theorem toOption_ofJson (text : String) : (ofJson (.str text)).toOption = ofText? text := by
  rw [← toOption_parse, ofJson, Json.source, read_str]
  cases parse text <;> rfl

end Var

theorem Generator.parts_name (g : Generator) (s : Suffix) :
    (g.name s).parts = (g.category.marker ++ g.naming.config.baseName ++ s.text, g.category) := by
  rw [Var.parts, name, String.append_assoc]

theorem Config.Valid.announced {c : Config} (h : c.Valid) (category : Category) (s : Suffix) :
    Category.of? (category.marker ++ c.baseName ++ s.text) = some category := by
  rw [String.append_assoc]
  exact Category.of?_marker_append category (h.ne_bang s.text)

namespace Var

/-- Variables may come from text, from a generator or from other variables; of the
base name it is asked that it is valid, and of the other variable nothing. -/
theorem category_follows_name :
    (∀ text,
      (ofText? text).map parts = (Category.of? text).map (text, ·) ∧
      (parse text).toOption.map parts = (Category.of? text).map (text, ·) ∧
      (ofJson (.str text)).toOption.map parts = (Category.of? text).map (text, ·)) ∧
    (∀ category config, config.Valid → ∃ g, Generator.withConfig category config = .ok g ∧
      ∀ r, let name := category.marker ++ config.baseName ++ (r.supply.suffix config.strategy).text
        (g.fresh.run r).1.parts = (name, category) ∧ Category.of? name = some category) ∧
    (∀ v strategy r, let name := v.name ++ (r.supply.suffix strategy).text
      ((uniquify v strategy).run r).1.parts = (name, v.category) ∧
        Category.of? name = some v.category) ∧
    (∀ v : Var, Category.of? v.name = some v.category ∧ parse v.name = .ok v) ∧
    (∀ v w : Var, v = w ↔ v.name = w.name) ∧
    ∀ v w : Var,
      compare v w = (compare (Utf8.bytes v.name) (Utf8.bytes w.name)).then
        (compare v.category w.category) ∧
      compare v w = compare (Utf8.bytes v.name) (Utf8.bytes w.name) := by
  refine ⟨?_, ?_, ?_, ?_, ?_, ?_⟩
  · intro text
    rw [toOption_ofJson, toOption_parse]
    exact ⟨parts_ofText? text, parts_ofText? text, parts_ofText? text⟩
  · intro category config h
    have hnaming : config.naming = .ok ⟨config, h⟩ := by simp [Config.naming, h]
    refine ⟨⟨category, config, h⟩, by rw [Generator.withConfig, hnaming]; rfl, ?_⟩
    intro r name
    exact ⟨Generator.parts_name _ _, h.announced category _⟩
  · intro v strategy r name
    exact ⟨rfl, Category.of?_append v.announced (Suffix.text_ne_bang _)⟩
  · exact fun v => ⟨v.announced, v.parse_name⟩
  · exact fun v w => ⟨congrArg name, ext⟩
  · intro v w
    rw [Utf8.compare_bytes]
    exact ⟨rfl, compare_eq v w⟩

theorem category_follows_name_bare :
    let start := Run.start fun _ => "c0ffee"
    let bang : Var := ⟨"!", .optional, by decide⟩
    Config.Valid ⟨"_1", .sequential⟩ ∧
      (∃ g, Generator.withConfig .ungrounding ⟨"_1", .sequential⟩ = .ok g ∧
        (g.fresh.run start).1.parts = ("!!_1__0", .ungrounding)) ∧
      ((uniquify bang .random).run start).1.parts = ("!__c0ffee", .optional) ∧
      ((uniquify bang .sequential).run start).1.parts = ("!__0", .optional) := by
  intro start bang
  obtain ⟨-, hfresh, hextend, -⟩ := category_follows_name
  have hvalid : Config.Valid ⟨"_1", .sequential⟩ := by decide
  refine ⟨hvalid, ?_, (hextend bang .random start).1,
    (hextend bang .sequential start).1.trans (by decide)⟩
  obtain ⟨g, hg, h⟩ := hfresh .ungrounding _ hvalid
  exact ⟨g, hg, (h start).1.trans (by decide)⟩

end Var

end QueryVars
