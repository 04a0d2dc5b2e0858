import QueryVars.Proofs.FirstFaults

/-!
# Recognisers

Whether a text is a variable is asked in many places: when a token is classified, when
a variable is made of a name, when a name or a term is decoded, when a term is asked for
its variable. Texts fall into five classes that are told apart by how they begin, and
the wildcard is told by the whole text. All of those places go by these classes.
-/

namespace QueryVars

inductive Recognised (text : String) : TokenKind → Prop
  | wildcard : text = "_" → Recognised text .wildcard
  | joinCapable {rest} : text.toList = '?' :: rest → Recognised text (.var .joinCapable)
  | optional {rest} : text.toList = '!' :: rest → (∀ tail, rest ≠ '!' :: tail) →
      Recognised text (.var .optional)
  | ungrounding {rest} : text.toList = '!' :: '!' :: rest → Recognised text (.var .ungrounding)
  | constant : text ≠ "_" → Var.Unmarked text → Recognised text .constant

-- ---------------------------------------------------------------------------
-- Classification
-- ---------------------------------------------------------------------------

namespace TokenKind

variable {text : String} {kind : TokenKind} {c : Category}

theorem of_eq_var (h : Category.of? text = some c) : of text = .var c :=
  Var.kind_eq ⟨text, c, h⟩

theorem of_eq_constant (hwild : text ≠ "_") (h : Category.of? text = none) :
    of text = .constant := by
  simp [of, QueryVars.wildcard, hwild, h]

theorem of_eq_of_recognised (h : Recognised text kind) : of text = kind := by
  cases h with
  | wildcard h => rw [h]; rfl
  | joinCapable h => exact of_eq_var (by rw [Category.of?, h]; rfl)
  | optional h hrest =>
    refine of_eq_var ?_
    rw [Category.of?, h]
    exact Category.ofChars?_marker_append .optional hrest
  | ungrounding h => exact of_eq_var (by rw [Category.of?, h]; rfl)
  | constant hwild h => exact of_eq_constant hwild (Var.unmarked_iff.1 h)

theorem recognised_of (text : String) : Recognised text (of text) := by
  by_cases hwild : text = "_"
  · rw [hwild]
    exact .wildcard rfl
  · cases hcategory : Category.of? text with
    | none =>
      rw [of_eq_constant hwild hcategory]
      exact .constant hwild (Var.unmarked_iff.2 hcategory)
    | some c =>
      rw [of_eq_var hcategory]
      unfold Category.of? Category.ofChars? at hcategory
      split at hcategory <;> cases hcategory
      next hchars => exact .ungrounding hchars
      -- The longer marker has been looked for already.
      next hlonger hchars => exact .optional hchars hlonger
      next hchars => exact .joinCapable hchars

theorem recognised_iff : Recognised text kind ↔ of text = kind :=
  ⟨of_eq_of_recognised, fun h => h ▸ recognised_of text⟩

theorem isWildcard_iff : kind.isWildcard = true ↔ kind = .wildcard := by
  rw [isWildcard, beq_iff_eq]

theorem isVar_iff : kind.isVar = true ↔ ∃ c, kind = .var c := by
  cases kind <;> simp [isVar, category?]

theorem isJoinCapable_iff : kind.isJoinCapable = true ↔ kind = .var .joinCapable := by
  rcases kind with (_ | _ | _) | _ | _ <;>
    simp [isJoinCapable, category?, Category.isJoinCapable]

theorem isUngrounding_iff : kind.isUngrounding = true ↔ kind = .var .ungrounding := by
  rcases kind with (_ | _ | _) | _ | _ <;>
    simp [isUngrounding, category?, Category.isUngrounding]

theorem isOptional_iff :
    kind.isOptional = true ↔ kind = .var .optional ∨ kind = .var .ungrounding := by
  rcases kind with (_ | _ | _) | _ | _ <;>
    simp [isOptional, category?, Category.isOptional, Category.isJoinCapable]

theorem isGroundable_iff : kind.isGroundable = true ↔ kind ≠ .var .ungrounding := by
  rw [isGroundable, Bool.not_eq_true', ← Bool.not_eq_true, isUngrounding_iff]

end TokenKind

-- ---------------------------------------------------------------------------
-- Variables
-- ---------------------------------------------------------------------------

theorem Term.ofJson_node {j : Json} {text : String}
    (h : j.Tagged Json.Names "value" "var" (some (.str text))) :
    ofJson j = var <$> Decoded.ofFault (Var.parse text) := by
  have hread : readContent false "var" (Json.source (.str text)) =
      var <$> Decoded.ofFault (Var.parse text) := by
    rw [Json.source, readContent, Var.read_str]
  rw [ofJson_of_opens (Json.tagged_iff_opens.1 h), Option.elim_some, hread]
  exact bind_pure _

namespace Var

variable {text : String} {v : Var}

/-- Every way to make a variable of the text makes `v`. -/
structure Made (text : String) (v : Var) : Prop where
  name : v.name = text
  ofText : ofText? text = some v
  parse : parse text = .ok v
  ofName : ofName text = .ok v
  decoded : ofJson (.str text) = .ok v
  node : ∀ j : Json, j.Tagged Json.Names "value" "var" (some (.str text)) →
    Term.ofJson j = .ok (.var v)

structure Refused (text : String) : Prop where
  ofText : ofText? text = none
  parse : parse text = .error (.notAVariable text)
  ofName : ofName text = .error (.notAVariable text)
  decoded : ofJson (.str text) = .error (.rejected (.notAVariable text))
  node : ∀ j : Json, j.Tagged Json.Names "value" "var" (some (.str text)) →
    Term.ofJson j = .error (.rejected (.notAVariable text))

theorem made (v : Var) : Made v.name v where
  name := rfl
  ofText := ofText?_name v
  parse := v.parse_name
  ofName := by rw [ofName_eq_parse, parse_name]
  decoded := v.read_toJson
  node j h := by rw [Term.ofJson_node h, parse_name]; rfl

theorem refused (h : Unmarked text) : Refused text where
  ofText := ofText?_eq_none_iff.2 (unmarked_iff.1 h)
  parse := parse_eq_error_iff.2 ⟨h, rfl⟩
  ofName := by rw [ofName_eq_parse, parse_eq_error_iff.2 ⟨h, rfl⟩]
  decoded := read_eq_error_iff.2 (.unmarked h)
  node j hj := by rw [Term.ofJson_node hj, parse_eq_error_iff.2 ⟨h, rfl⟩]; rfl

end Var

theorem Term.of_text? {t : Term} {text : String} (h : t.text? = some text) :
    t.kind = TokenKind.of text ∧ t.var? = Var.ofText? text := by
  cases t with
  | symbol | str =>
    obtain rfl := Option.some.inj h
    exact ⟨rfl, rfl⟩
  | var v =>
    obtain rfl := Option.some.inj h
    exact ⟨rfl, (Var.ofText?_name v).symm⟩
  | seq | literal => cases h

/-- Every text is of one class, and that is the class it is given. Where it is the class
of a variable, every way to make a variable of the text makes the same one, with the
category of the class; otherwise all of them fail. A term that shows the text is of the
same class and has the same variable. What is asked of a token is answered by its class
alone. -/
theorem recognisers_agree (text : String) :
    let kind := TokenKind.of text
    ((∃! k, Recognised text k) ∧ Recognised text kind) ∧
    (kind.isVar = true → ∃ v : Var, kind = .var v.category ∧ Var.Made text v) ∧
    (kind.isVar = false → Var.Refused text) ∧
    (∀ t : Term, t.text? = some text → t.kind = kind ∧ t.var? = Var.ofText? text) ∧
    (∀ v : Var, v.name = text → v.kind = kind) ∧
    (kind.isWildcard = true ↔ Recognised text .wildcard) ∧
    (kind.isVar = true ↔ ∃ c, Recognised text (.var c)) ∧
    (kind.isJoinCapable = true ↔ Recognised text (.var .joinCapable)) ∧
    (kind.isOptional = true ↔
      Recognised text (.var .optional) ∨ Recognised text (.var .ungrounding)) ∧
    (kind.isUngrounding = true ↔ Recognised text (.var .ungrounding)) ∧
    (kind.isGroundable = true ↔ ¬Recognised text (.var .ungrounding)) := by
  intro kind
  simp only [TokenKind.recognised_iff]
  refine ⟨⟨⟨kind, rfl, fun _ h => h.symm⟩, rfl⟩, ?_, ?_, fun t => Term.of_text?, ?_,
    TokenKind.isWildcard_iff, TokenKind.isVar_iff, TokenKind.isJoinCapable_iff,
    TokenKind.isOptional_iff, TokenKind.isUngrounding_iff, TokenKind.isGroundable_iff⟩
  · intro hvar
    have hcategory : Category.of? text ≠ none := by
      rwa [← Option.isSome_iff_ne_none, ← TokenKind.category?_of]
    obtain ⟨v, rfl⟩ := Var.exists_name_iff.2 hcategory
    exact ⟨v, v.kind_eq, v.made⟩
  · intro hvar
    refine Var.refused (Var.unmarked_iff.2 ?_)
    rwa [← Option.isSome_eq_false_iff.trans Option.isNone_iff_eq_none, ← TokenKind.category?_of]
  · rintro v rfl
    rfl

/-- Markers alone, and texts that only look like markers or like the wildcard. -/
example : ["!!", "!?", "?!!", "_", "__", "", "x?"].map TokenKind.of =
    [.var .ungrounding, .var .optional, .var .joinCapable, .wildcard, .constant, .constant,
      .constant] := by
  decide

end QueryVars
