import QueryVars.Proofs.CanonicalForm

/-!
# The grammar of terms

Which values spell a term is said without a reader: a tagged value is an object with a
tag and content among its members or a list of the two, and every kind of term and of
literal asks for content of its own. The reader accepts exactly the spellings, so no
value spells two terms. In an object the tag may be held by an object of its own.
-/

namespace QueryVars

-- ---------------------------------------------------------------------------
-- Spellings
-- ---------------------------------------------------------------------------

namespace Json

def IsName (tag : Json) (kind : String) : Prop := tag = .str kind

/-- A name by itself, or an object whose only member is that name, holding `null`. -/
inductive Names : Json → String → Prop
  | name (kind : String) : Names (.str kind) kind
  | member {members : List (String × Json)} {kind : String} : entries members = [(kind, .null)] →
      Names (.obj members) kind

/-- The tag and the content of a value. In an object the tag is spelled in one of the
ways of `names`, the content may be missing, and all other members are passed over; a
list begins with the name itself and has the content and nothing else behind it. -/
inductive Tagged (names : Json → String → Prop) (key : String) :
    Json → String → Option Json → Prop
  | object {members : List (String × Json)} {tag : Json} {kind : String} :
      lookup "kind" members = some tag → names tag kind →
      Tagged names key (.obj members) kind (lookup key members)
  | pair (kind : String) (content : Json) :
      Tagged names key (.arr [.str kind, content]) kind (some content)

end Json

inductive Literal.Content : String → Option Json → Literal → Prop
  | absent : Content "null" none .null
  | null : Content "null" (some .null) .null
  | bool (value : Bool) : Content "bool" (some (.bool value)) (.bool value)
  | int (value : Int64) : Content "int" (some (.int value.toInt)) (.int value)
  | whole (value : Int) : Content "float" (some (.int value)) (.float (.ofInt value))
  | float (value : Float) : Content "float" (some (.float value)) (.float value)

inductive Literal.Spells (names : Json → String → Prop) : Json → Literal → Prop
  | tagged {j kind content l} : j.Tagged names "value" kind content → Content kind content l →
      Spells names j l

/-- The content that each kind of term asks for, when `spells` says what its items may
be. -/
inductive Term.Content (names : Json → String → Prop) (spells : Json → Term → Prop) :
    String → Json → Term → Prop
  | seq {items ts} : List.Forall₂ spells items ts → Content names spells "seq" (.arr items) (.seq ts)
  | symbol (text : String) : Content names spells "symbol" (.str text) (.symbol text)
  | str (text : String) : Content names spells "str" (.str text) (.str text)
  | var (v : Var) : Content names spells "var" (.str v.name) (.var v)
  | literal {content value} : Literal.Spells names content value →
      Content names spells "literal" content (.literal value)

inductive Term.Spells (names : Json → String → Prop) : Json → Term → Prop
  | tagged {j kind content t} : j.Tagged names "value" kind (some content) →
      Content names (Spells names) kind content t → Spells names j t

-- ---------------------------------------------------------------------------
-- Values as sources
-- ---------------------------------------------------------------------------

namespace Json

variable {j : Json} {kind : String}

theorem source_eq_null_iff : j.source = .null ↔ j = .null := by
  cases j <;> simp [source]

theorem source_eq_bool_iff {value : Bool} : j.source = .bool value ↔ j = .bool value := by
  cases j <;> simp [source]

theorem source_eq_int_iff {value : Int} : j.source = .int value ↔ j = .int value := by
  cases j <;> simp [source]

theorem source_eq_float_iff {value : Float} : j.source = .float value ↔ j = .float value := by
  cases j <;> simp [source]

theorem source_eq_str_iff {text : String} : j.source = .str text ↔ j = .str text := by
  cases j <;> simp [source]

theorem source_eq_arr_iff {items : List Source} {closed : Bool} :
    j.source = .arr items closed ↔ ∃ js, j = .arr js ∧ itemSources js = items ∧ closed = true := by
  cases j <;> simp [source, eq_comm]

theorem eq_some_of_map_source {content : Option Json} {s : Source}
    (hs : ∀ k : Json, k.source = s ↔ k = j) (h : content.map source = some s) :
    content = some j := by
  obtain ⟨k, rfl, hk⟩ := Option.map_eq_some_iff.1 h
  rw [(hs k).1 hk]

theorem isNothing_source_iff : j.source.isNothing false = true ↔ j = .null := by
  cases j with
  | obj members =>
    rw [source_obj]
    cases entries members <;> simp [Source.isNothing]
  | null | bool | int | float | str | arr => simp [source, Source.isNothing]

theorem plainName_eq_ok_iff : j.source.plainName false = .ok kind ↔ Names j kind := by
  cases j with
  | str name =>
    constructor
    · intro h
      cases h
      exact .name kind
    · rintro ⟨⟩
      rfl
  | obj members =>
    have hmember : Names (.obj members) kind ↔ entries members = [(kind, .null)] :=
      ⟨fun h => by cases h; assumption, .member⟩
    rw [source_obj, hmember]
    rcases entries members with _ | ⟨⟨name, held⟩, _ | _⟩
    · simp [Source.plainName]
    · cases hheld : held.source.isNothing false with
      | true =>
        obtain rfl := isNothing_source_iff.1 hheld
        simp [Source.plainName, hheld]
      | false =>
        have hnull : held ≠ .null := fun h => by simp [isNothing_source_iff.2 h] at hheld
        simp [Source.plainName, hheld, hnull]
    · simp [Source.plainName]
  | null | bool | int | float | arr =>
    constructor
    · rintro ⟨⟩
    · rintro ⟨⟩

theorem plainName_eq_error (h : ∀ kind, ¬Names j kind) :
    j.source.plainName false = .error .malformed := by
  cases hname : j.source.plainName false with
  | ok kind => exact absurd (plainName_eq_ok_iff.1 hname) (h kind)
  | error e =>
    unfold Source.plainName at hname
    split at hname
    · cases hname
    · split at hname <;> cases hname
      rfl
    · cases hname
      rfl

end Json

-- ---------------------------------------------------------------------------
-- Tagged values
-- ---------------------------------------------------------------------------

namespace Json

variable {j : Json} {key kind : String} {content : Option Json} {rest : List Json}

/-- A value with a tag, as far as it is read before its content: the content may be
missing in an object, and more may stand behind it in a list. -/
inductive Opens (key : String) : Json → String → Option Json → List Json → Prop
  | object {members tag kind} : lookup "kind" members = some tag → Names tag kind →
      Opens key (.obj members) kind (lookup key members) []
  | list (kind : String) (content : Json) (rest : List Json) :
      Opens key (.arr (.str kind :: content :: rest)) kind (some content) rest

theorem tagged_iff_opens : j.Tagged Names key kind content ↔ j.Opens key kind content [] := by
  constructor
  · rintro (⟨htag, hkind⟩ | ⟨kind, content⟩)
    · exact .object htag hkind
    · exact .list kind content []
  · intro h
    generalize hrest : ([] : List Json) = rest at h
    cases h with
    | object htag hkind => exact .object htag hkind
    | list kind content => rw [← hrest]; exact .pair kind content

theorem sizeOf_item_lt {items : List Json} {i : Json}
    (h : j.Opens key kind (some (.arr items)) rest) (hi : i ∈ items) : sizeOf i < sizeOf j := by
  have hitem := List.sizeOf_lt_of_mem hi
  generalize hc : some (arr items) = c at h
  cases h with
  | @object members =>
    have hmem := List.sizeOf_lt_of_mem (mem_of_lookup hc.symm)
    simp only [Prod.mk.sizeOf_spec, arr.sizeOf_spec] at hmem
    simp only [obj.sizeOf_spec]
    omega
  | list =>
    obtain rfl := Option.some.inj hc
    simp only [arr.sizeOf_spec, List.cons.sizeOf_spec]
    omega

end Json

namespace Tagging

variable (g : Tagging α) (content : Bool → String → Json.Source → Decoded α) {j : Json} {a : α}

theorem read_obj_of_lt (hg : compare "kind" g.key = .lt) (members : List (String × Json)) :
    g.read content false (Json.source (.obj members)) =
      match Json.lookup "kind" members with
      | none => .error .malformed
      | some tag => (do
        let kind ← tag.source.plainName false
        (Json.lookup g.key members).elim (g.bare kind) fun c => content false kind c.source) := by
  have hne : g.key ≠ "kind" := by
    intro h
    simp [h] at hg
  have hheld : (compare g.key "kind" == .lt) = false := by
    rw [Std.OrientedOrd.eq_swap, hg]
    rfl
  rw [g.read_obj content members hne, hheld]
  cases Json.lookup g.key members <;> rfl

/-- Where the key of the tag comes first, content is read as soon as it is met, and the
end of a list is looked at behind it. -/
theorem read_of_opens (hg : compare "kind" g.key = .lt) {kind : String} {c : Option Json}
    {rest : List Json} (h : j.Opens g.key kind c rest) :
    g.read content false j.source = (do
      let a ← c.elim (g.bare kind) fun c => content false kind c.source
      Decoded.closing rest.isEmpty a) := by
  cases h with
  | object htag hkind =>
    rw [g.read_obj_of_lt content hg, htag]
    simp only [Json.plainName_eq_ok_iff.2 hkind]
    exact (bind_pure _).symm
  | list kind c rest => cases rest <;> rfl

theorem read_of_not_opens (hg : compare "kind" g.key = .lt)
    (h : ∀ kind c rest, ¬j.Opens g.key kind c rest) :
    g.read content false j.source = .error .malformed := by
  cases j with
  | obj members =>
    rw [g.read_obj_of_lt content hg]
    cases htag : Json.lookup "kind" members with
    | none => rfl
    | some tag =>
      have hname : ∀ kind, ¬Json.Names tag kind := fun kind hkind => h _ _ _ (.object htag hkind)
      simp only [Json.plainName_eq_error hname]
      rfl
  | arr items =>
    rcases items with _ | ⟨tag, _ | ⟨c, rest⟩⟩
    · rfl
    · rfl
    · cases tag with
      | str kind => exact absurd (.list kind c rest) (h _ _ _)
      | int place => cases place <;> rfl
      | null | bool | float | arr | obj => rfl
  | null | bool | int | float | str => rfl

theorem read_eq_ok_iff (hg : compare "kind" g.key = .lt) :
    g.read content false j.source = .ok a ↔ ∃ kind c, j.Tagged Json.Names g.key kind c ∧
      (c.elim (g.bare kind) fun c => content false kind c.source) = .ok a := by
  simp only [Json.tagged_iff_opens]
  constructor
  · intro h
    by_cases hopen : ∃ kind c rest, j.Opens g.key kind c rest
    · obtain ⟨kind, c, rest, hopen⟩ := hopen
      rw [g.read_of_opens content hg hopen] at h
      obtain ⟨b, hb, hclosed⟩ := Decoded.bind_eq_ok_iff.1 h
      obtain ⟨hrest, rfl⟩ := Decoded.closing_eq_ok_iff.1 hclosed
      obtain rfl := List.isEmpty_iff.1 hrest
      exact ⟨kind, c, hopen, hb⟩
    · simp only [not_exists] at hopen
      rw [g.read_of_not_opens content hg hopen] at h
      cases h
  · rintro ⟨kind, c, hopen, h⟩
    rw [g.read_of_opens content hg hopen, h]
    rfl

end Tagging

-- ---------------------------------------------------------------------------
-- Literals
-- ---------------------------------------------------------------------------

namespace Literal

variable {kind : String} {l : Literal}

theorem ofContent_eq_ok_iff {content : Option Json} :
    ofContent kind (content.map Json.source) = .ok l ↔ Content kind content l := by
  constructor
  · intro h
    unfold ofContent at h
    split at h
    next hc =>
      obtain rfl := Option.map_eq_none_iff.1 hc
      cases h
      exact .absent
    next hc =>
      obtain rfl := Json.eq_some_of_map_source (fun _ => Json.source_eq_null_iff) hc
      cases h
      exact .null
    next hc =>
      obtain rfl := Json.eq_some_of_map_source (fun _ => Json.source_eq_bool_iff) hc
      cases h
      exact .bool _
    next value hc =>
      obtain rfl := Json.eq_some_of_map_source (fun _ => Json.source_eq_int_iff) hc
      split at h
      next hrange =>
        cases h
        have hlt : value < 2 ^ 63 := Int.lt_of_le_of_lt hrange.2 (by decide)
        have hcontent := Content.int (.ofInt value)
        rwa [Int64.toInt_ofInt_of_le hrange.1 hlt] at hcontent
      next => cases h
    next hc =>
      obtain rfl := Json.eq_some_of_map_source (fun _ => Json.source_eq_int_iff) hc
      cases h
      exact .whole _
    next hc =>
      obtain rfl := Json.eq_some_of_map_source (fun _ => Json.source_eq_float_iff) hc
      cases h
      exact .float _
    next => cases h
  · intro h
    cases h with
    | absent | null | bool | whole | float => rfl
    | int value => exact ofContent_int value

theorem ofJson_eq_ok_iff {j : Json} : ofJson j = .ok l ↔ Spells Json.Names j l := by
  have hcontent (kind : String) (content : Option Json) :
      (content.elim (tagging.bare kind) fun c => ofContent kind (some c.source)) =
        ofContent kind (content.map Json.source) := by
    cases content <;> rfl
  rw [ofJson, read, tagging.read_eq_ok_iff _ (by decide)]
  constructor
  · rintro ⟨kind, content, htagged, h⟩
    exact .tagged htagged (ofContent_eq_ok_iff.1 ((hcontent kind content).symm.trans h))
  · rintro ⟨htagged, h⟩
    exact ⟨_, _, htagged, (hcontent _ _).trans (ofContent_eq_ok_iff.2 h)⟩

end Literal

-- ---------------------------------------------------------------------------
-- Terms
-- ---------------------------------------------------------------------------

theorem Var.read_eq_ok_iff {j : Json} {v : Var} : read j.source = .ok v ↔ j = .str v.name :=
  ⟨eq_toJson_of_read, by rintro rfl; exact v.read_toJson⟩

theorem Decoded.mapM_eq_ok_iff {f : α → Decoded β} {as : List α} {bs : List β} :
    as.mapM f = .ok bs ↔ List.Forall₂ (fun a b => f a = .ok b) as bs := by
  induction as generalizing bs with
  | nil =>
    rw [List.forall₂_nil_left_iff]
    simp [pure, Except.pure, eq_comm]
  | cons a as ih =>
    simp only [List.mapM_cons, bind_eq_ok_iff, ih]
    constructor
    · rintro ⟨b, hb, bs, hbs, h⟩
      cases h
      exact .cons hb hbs
    · rintro (_ | ⟨hb, hbs⟩)
      exact ⟨_, hb, _, hbs, rfl⟩

namespace Term

variable {kind : String} {content j : Json} {t : Term}

theorem readItems_eq_ok_iff {items : List Json} {ts : List Term} :
    readItems false (Json.itemSources items) = .ok ts ↔
      List.Forall₂ (fun j t => ofJson j = .ok t) items ts := by
  rw [readItems_eq, Json.itemSources_eq, List.mapM_map]
  exact Decoded.mapM_eq_ok_iff

/-- What is left open here is how the items of a sequence are read. -/
theorem readContent_eq_ok_iff : readContent false kind content.source = .ok t ↔
    Content Json.Names (fun j t => ofJson j = .ok t) kind content t := by
  constructor
  · intro h
    unfold readContent at h
    split at h
    next hc =>
      obtain ⟨items, rfl, rfl, rfl⟩ := Json.source_eq_arr_iff.1 hc
      obtain ⟨ts, hts, h⟩ := Decoded.bind_eq_ok_iff.1 h
      cases h
      exact .seq (readItems_eq_ok_iff.1 hts)
    next hc =>
      obtain rfl := Json.source_eq_str_iff.1 hc
      cases h
      exact .symbol _
    next hc =>
      obtain rfl := Json.source_eq_str_iff.1 hc
      cases h
      exact .str _
    next =>
      obtain ⟨v, hv, rfl⟩ := Decoded.map_eq_ok_iff.1 h
      obtain rfl := Var.read_eq_ok_iff.1 hv
      exact .var v
    next =>
      obtain ⟨value, hvalue, rfl⟩ := Decoded.map_eq_ok_iff.1 h
      exact .literal (Literal.ofJson_eq_ok_iff.1 hvalue)
    next => cases h
  · intro h
    cases h with
    | seq hitems =>
      rw [Json.source, readContent, readItems_eq_ok_iff.2 hitems]
      rfl
    | symbol | str => rfl
    | var v => rw [readContent, Var.read_eq_ok_iff.2 rfl]; rfl
    | literal hvalue =>
      rw [readContent]
      exact Decoded.map_eq_ok_iff.2 ⟨_, Literal.ofJson_eq_ok_iff.2 hvalue, rfl⟩

theorem ofJson_iff_tagged : ofJson j = .ok t ↔ ∃ kind content,
    j.Tagged Json.Names "value" kind (some content) ∧
      Content Json.Names (fun j t => ofJson j = .ok t) kind content t := by
  simp only [← readContent_eq_ok_iff]
  rw [ofJson, read_eq, tagging.read_eq_ok_iff _ (by decide)]
  constructor
  · rintro ⟨kind, _ | content, htagged, h⟩
    · cases h
    · exact ⟨kind, content, htagged, h⟩
  · rintro ⟨kind, content, htagged, h⟩
    exact ⟨kind, some content, htagged, h⟩

theorem Content.mono {names : Json → String → Prop} {p q : Json → Term → Prop}
    (hpq : ∀ ts, t = .seq ts → ∀ items, List.Forall₂ p items ts → List.Forall₂ q items ts)
    (h : Content names p kind content t) : Content names q kind content t := by
  cases h with
  | seq hitems => exact .seq (hpq _ rfl _ hitems)
  | symbol text => exact .symbol text
  | str text => exact .str text
  | var v => exact .var v
  | literal hvalue => exact .literal hvalue

mutual
theorem ofJson_eq_ok_iff (t : Term) (j : Json) : ofJson j = .ok t ↔ Spells Json.Names j t := by
  have hitems : ∀ ts, t = .seq ts → ∀ items, List.Forall₂ (fun j t => ofJson j = .ok t) items ts ↔
      List.Forall₂ (Spells Json.Names) items ts := by
    intro us heq items
    cases t with
    | seq ts =>
      rw [← seq.inj heq]
      exact forall₂_ofJson_iff ts items
    | symbol | str | var | literal => cases heq
  rw [ofJson_iff_tagged]
  constructor
  · rintro ⟨kind, content, htagged, h⟩
    exact .tagged htagged (h.mono fun ts ht items => (hitems ts ht items).1)
  · rintro ⟨htagged, h⟩
    exact ⟨_, _, htagged, h.mono fun ts ht items => (hitems ts ht items).2⟩
theorem forall₂_ofJson_iff (ts : List Term) (items : List Json) :
    List.Forall₂ (fun j t => ofJson j = .ok t) items ts ↔
      List.Forall₂ (Spells Json.Names) items ts := by
  cases ts with
  | nil => simp
  | cons t ts =>
    simp only [List.forall₂_cons_right_iff, ofJson_eq_ok_iff t, forall₂_ofJson_iff ts]
end

/-- Both for terms and for literals the reader accepts the spellings and nothing else;
so all spellings of a term read as that term, and none spells another one. Of the texts,
those that begin with a marker are the names of variables. -/
theorem ofJson_accepts_spellings :
    (∀ j t, ofJson j = .ok t ↔ Spells Json.Names j t) ∧
    (∀ j l, Literal.ofJson j = .ok l ↔ Literal.Spells Json.Names j l) ∧
    (∀ j, (∃ t, Spells Json.Names j t) ↔ ∃! t, Spells Json.Names j t) ∧
    (∀ text, (∃ v : Var, v.name = text) ↔
      ∃ rest, text.toList = '?' :: rest ∨ text.toList = '!' :: rest) := by
  refine ⟨fun j t => ofJson_eq_ok_iff t j, fun j l => Literal.ofJson_eq_ok_iff, fun j => ?_,
    fun text => Var.exists_name_iff.trans Category.of?_ne_none_iff⟩
  refine ⟨?_, ExistsUnique.exists⟩
  rintro ⟨t, ht⟩
  refine ⟨t, ht, fun u hu => ?_⟩
  rw [← ofJson_eq_ok_iff] at ht hu
  exact Except.ok.inj (hu.symm.trans ht)

/-- The two spellings mixed, with a number for a float and a member passed over. -/
example : ofJson (.arr [.str "seq", .arr [
      .obj [("value", .str "?x"), ("note", .null), ("kind", .str "var")],
      .obj [("kind", .str "literal"), ("value", .arr [.str "float", .int 3])]]]) =
    .ok (.seq [.var ⟨"?x", .joinCapable, by decide⟩, .literal (.float (.ofInt 3))]) := rfl

def heldSymbol : Json := .obj [("kind", .obj [("symbol", .null)]), ("value", .str "x")]

/-- It is read as that symbol, though its tag is no plain name. -/
theorem heldSymbol_accepted :
    ofJson heldSymbol = .ok (.symbol "x") ∧ ¬Spells Json.IsName heldSymbol (.symbol "x") := by
  constructor
  · have htag : Json.Names (.obj [("symbol", .null)]) "symbol" := .member rfl
    exact (ofJson_eq_ok_iff _ _).2 (.tagged (.object rfl htag) (.symbol "x"))
  · rintro ⟨htagged, -⟩
    cases htagged with
    | object htag hname =>
      cases htag
      cases hname

end Term

end QueryVars
