import QueryVars.Proofs.ByteOrder
import QueryVars.Proofs.Grammar

/-!
# First faults

A value that does not decode shows a first fault in reading order: the tag before the
content, the items of a list in order, the entries of a map in key order with each key
before what it leads to. The answer is that fault and nothing else, whatever stands
behind it, and of its cause only a text without a marker is kept. The groups of an
equality map are looked at when all its names are good.
-/

namespace QueryVars

-- ---------------------------------------------------------------------------
-- Faults
-- ---------------------------------------------------------------------------

namespace Var

def Unmarked (text : String) : Prop :=
  ∀ rest, text.toList ≠ '?' :: rest ∧ text.toList ≠ '!' :: rest

inductive NameFault : Json → DecodeError → Prop
  | unmarked {text} : Unmarked text → NameFault (.str text) (.rejected (.notAVariable text))
  | noText {j} : (∀ text, j ≠ .str text) → NameFault j .malformed

/-- What is wrong first in the place of a list of names. -/
inductive NamesFault : Json → DecodeError → Prop
  | name {front j back e} : (∀ i ∈ front, ∃ v : Var, i = v.toJson) → NameFault j e →
      NamesFault (.arr (front ++ j :: back)) e
  | noList {j} : (∀ items, j ≠ .arr items) → NamesFault j .malformed

/-- What is wrong first in the place of an object with names for keys, when `good` and
`fault` tell about the values. -/
inductive KeyedFault (good : Json → Prop) (fault : Json → DecodeError → Prop) :
    Json → DecodeError → Prop
  | key {members front key j back} : Json.entries members = front ++ (key, j) :: back →
      (∀ e ∈ front, (∃ v : Var, v.name = e.1) ∧ good e.2) → Unmarked key →
      KeyedFault good fault (.obj members) (.rejected (.notAVariable key))
  | value {members front v j back e} : Json.entries members = front ++ (Var.name v, j) :: back →
      (∀ e ∈ front, (∃ v : Var, v.name = e.1) ∧ good e.2) → fault j e →
      KeyedFault good fault (.obj members) e
  | noObject {j} : (∀ members, j ≠ .obj members) → KeyedFault good fault j .malformed

end Var

def Drift.FirstFault : Json → DecodeError → Prop :=
  Var.KeyedFault (fun j => ∃ v : Var, j = v.toJson) Var.NameFault

/-- A group can only be at fault where all names are good. -/
inductive Equalities.FirstFault : Json → DecodeError → Prop
  | name {j e} : Var.KeyedFault (fun j => ∃ vs, j = Var.listToJson vs) Var.NamesFault j e →
      FirstFault j e
  | group {members groups i fault} : Json.entries members = groups.map member →
      FaultAt [] groups i fault → (∀ k < i, ∀ f, ¬FaultAt [] groups k f) →
      FirstFault (.obj members) (.rejected fault)

namespace Term

/-- The form that each kind asks of its content, up to names and items. -/
inductive Fits : String → Json → Prop
  | seq (items : List Json) : Fits "seq" (.arr items)
  | symbol (text : String) : Fits "symbol" (.str text)
  | str (text : String) : Fits "str" (.str text)
  | var (text : String) : Fits "var" (.str text)
  | literal {content value} : Literal.Spells Json.Names content value → Fits "literal" content

/-- What is wrong first with the content, when `fault` tells about the items of a
sequence. -/
inductive ContentFault (fault : Json → DecodeError → Prop) : String → Json → DecodeError → Prop
  | form {kind content} : ¬Fits kind content → ContentFault fault kind content .malformed
  | name {text} : Var.Unmarked text →
      ContentFault fault "var" (.str text) (.rejected (.notAVariable text))
  | item {front j back e} : (∀ i ∈ front, ∃ t, Spells Json.Names i t) → fault j e →
      ContentFault fault "seq" (.arr (front ++ j :: back)) e

inductive FirstFault : Json → DecodeError → Prop
  | tag {j} : (∀ kind content rest, ¬j.Opens "value" kind content rest) → FirstFault j .malformed
  | missing {j kind rest} : j.Opens "value" kind none rest → FirstFault j .malformed
  | content {j kind content rest e} : j.Opens "value" kind (some content) rest →
      ContentFault FirstFault kind content e → FirstFault j e
  /-- A list that is too long fails behind its content only. -/
  | surplus {j kind content rest t} : j.Opens "value" kind (some content) rest →
      Content Json.Names (Spells Json.Names) kind content t → rest ≠ [] → FirstFault j .malformed

end Term

-- ---------------------------------------------------------------------------
-- Readers in sequence
-- ---------------------------------------------------------------------------

namespace Decoded

variable {e : DecodeError}

theorem mapM_eq_error_iff {f : α → Decoded β} {as : List α} :
    as.mapM f = .error e ↔ ∃ front a back, as = front ++ a :: back ∧
      (∀ b ∈ front, ∃ c, f b = .ok c) ∧ f a = .error e := by
  induction as with
  | nil => simp [pure, Except.pure]
  | cons a rest ih =>
    simp only [List.mapM_cons, bind_eq_error_iff, ih]
    constructor
    · rintro (h | ⟨b, hb, ⟨front, a', back, rfl, hfront, h⟩ | ⟨bs, -, h⟩⟩)
      · exact ⟨[], a, rest, rfl, by simp, h⟩
      · exact ⟨a :: front, a', back, rfl, List.forall_mem_cons.2 ⟨⟨b, hb⟩, hfront⟩, h⟩
      · cases h
    · rintro ⟨_ | ⟨b, front⟩, a', back, heq, hfront, h⟩
      · obtain ⟨rfl, rfl⟩ := List.cons.inj heq
        exact .inl h
      · obtain ⟨rfl, rfl⟩ := List.cons.inj heq
        obtain ⟨⟨c, hc⟩, hfront⟩ := List.forall_mem_cons.1 hfront
        exact .inr ⟨c, hc, .inl ⟨front, a', back, rfl, hfront, h⟩⟩

theorem mapM_source_eq_error_iff {f : Json.Source → Decoded β} {good : Json → Prop}
    {fault : Json → DecodeError → Prop} (hgood : ∀ j, (∃ b, f j.source = .ok b) ↔ good j)
    {items : List Json} (hfault : ∀ j ∈ items, ∀ e, f j.source = .error e ↔ fault j e) :
    (Json.itemSources items).mapM f = .error e ↔ ∃ front j back, items = front ++ j :: back ∧
      (∀ i ∈ front, good i) ∧ fault j e := by
  simp only [Json.itemSources_eq, List.mapM_map, mapM_eq_error_iff, Function.comp_apply, hgood]
  constructor
  · rintro ⟨front, j, back, rfl, hfront, h⟩
    exact ⟨front, j, back, rfl, hfront, (hfault j (by simp) e).1 h⟩
  · rintro ⟨front, j, back, rfl, hfront, h⟩
    exact ⟨front, j, back, rfl, hfront, (hfault j (by simp) e).2 h⟩

end Decoded

-- ---------------------------------------------------------------------------
-- Names and maps
-- ---------------------------------------------------------------------------

namespace Var

variable {j : Json} {e : DecodeError}

theorem unmarked_iff {text : String} : Unmarked text ↔ Category.of? text = none := by
  rw [← not_iff_not, ← ne_eq, Category.of?_ne_none_iff, Unmarked, not_forall]
  exact exists_congr fun rest => by rw [not_and_or, not_ne_iff, not_ne_iff]

theorem parse_eq_error_iff {text : String} {fault : Fault} :
    parse text = .error fault ↔ Unmarked text ∧ fault = .notAVariable text := by
  rw [unmarked_iff, ← ofText?_eq_none_iff, parse]
  cases ofText? text <;> simp [eq_comm]

theorem read_eq_error_iff : read j.source = .error e ↔ NameFault j e := by
  cases j with
  | str text =>
    rw [Json.source, read_str, Decoded.ofFault_eq_error_iff]
    constructor
    · rintro ⟨fault, h, rfl⟩
      obtain ⟨hunmarked, rfl⟩ := parse_eq_error_iff.1 h
      exact .unmarked hunmarked
    · rintro (h | h)
      · exact ⟨_, parse_eq_error_iff.2 ⟨h, rfl⟩, rfl⟩
      · exact absurd rfl (h text)
  | null | bool | int | float | arr | obj =>
    constructor
    · rintro ⟨⟩
      exact .noText (by simp)
    · rintro ⟨⟩
      rfl

theorem exists_read_iff : (∃ v, read j.source = .ok v) ↔ ∃ v : Var, j = v.toJson :=
  exists_congr fun _ => read_eq_ok_iff

theorem exists_readList_iff : (∃ vs, readList j.source = .ok vs) ↔ ∃ vs, j = listToJson vs :=
  exists_congr fun vs => ⟨eq_listToJson_of_readList, by rintro rfl; exact readList_toJson vs⟩

theorem readList_eq_error_iff : readList j.source = .error e ↔ NamesFault j e := by
  cases j with
  | arr items =>
    have hitems : readList (Json.source (.arr items)) = .error e ↔
        (Json.itemSources items).mapM read = .error e := by
      rw [Json.source, readList, Decoded.bind_eq_error_iff, or_iff_left]
      rintro ⟨_, -, h⟩
      cases h
    rw [hitems, Decoded.mapM_source_eq_error_iff (fun _ => exists_read_iff)
      fun _ _ _ => read_eq_error_iff]
    constructor
    · rintro ⟨front, j, back, rfl, hfront, h⟩
      exact .name hfront h
    · intro h
      generalize heq : Json.arr items = j at h
      cases h with
      | name hfront h =>
        cases heq
        exact ⟨_, _, _, rfl, hfront, h⟩
      | noList hno => exact absurd heq.symm (hno items)
  | null | bool | int | float | str | obj =>
    constructor
    · rintro ⟨⟩
      exact .noList (by simp)
    · rintro ⟨⟩
      rfl

variable {value : Json.Source → Decoded α} {good : Json → Prop} {fault : Json → DecodeError → Prop}

theorem exists_readEntry_iff (hgood : ∀ j, (∃ a, value j.source = .ok a) ↔ good j)
    (entry : String × Json) : (∃ group, readEntry value (some entry.1, entry.2.source) = .ok group) ↔
      (∃ v : Var, v.name = entry.1) ∧ good entry.2 := by
  rw [← hgood]
  constructor
  · rintro ⟨⟨v, a⟩, h⟩
    obtain ⟨hv, ha⟩ := readEntry_eq_ok_iff.1 h
    exact ⟨⟨v, hv⟩, a, ha⟩
  · rintro ⟨⟨v, hv⟩, a, ha⟩
    exact ⟨(v, a), readEntry_eq_ok_iff.2 ⟨hv, ha⟩⟩

theorem readEntry_eq_error_iff {key : String} :
    readEntry value (some key, j.source) = .error e ↔
      (Unmarked key ∧ e = .rejected (.notAVariable key)) ∨
        (∃ v : Var, v.name = key) ∧ value j.source = .error e := by
  simp only [readEntry, ofName_eq_parse, Decoded.bind_eq_error_iff, Decoded.ofFault_eq_error_iff,
    parse_eq_error_iff, Decoded.ofFault_eq_ok_iff, parse_eq_ok_iff]
  constructor
  · rintro (⟨fault, ⟨hkey, rfl⟩, rfl⟩ | ⟨v, hv, h | ⟨a, -, h⟩⟩)
    · exact .inl ⟨hkey, rfl⟩
    · exact .inr ⟨⟨v, hv⟩, h⟩
    · cases h
  · rintro (⟨hkey, rfl⟩ | ⟨⟨v, hv⟩, h⟩)
    · exact .inl ⟨_, ⟨hkey, rfl⟩, rfl⟩
    · exact .inr ⟨v, hv, .inl h⟩

theorem readKeyed_eq_error_iff (hgood : ∀ j, (∃ a, value j.source = .ok a) ↔ good j)
    (hfault : ∀ j e, value j.source = .error e ↔ fault j e) :
    readKeyed value j.source = .error e ↔ KeyedFault good fault j e := by
  cases j with
  | obj members =>
    rw [readKeyed_obj, Decoded.mapM_eq_error_iff]
    simp only [exists_readEntry_iff hgood]
    constructor
    · rintro ⟨front, ⟨key, j⟩, back, hentries, hfront, h⟩
      rcases readEntry_eq_error_iff.1 h with ⟨hkey, rfl⟩ | ⟨⟨v, rfl⟩, h⟩
      · exact .key hentries hfront hkey
      · exact .value hentries hfront ((hfault j e).1 h)
    · rintro (⟨hentries, hfront, hkey⟩ | ⟨hentries, hfront, h⟩ | hno)
      · exact ⟨_, _, _, hentries, hfront, readEntry_eq_error_iff.2 (.inl ⟨hkey, rfl⟩)⟩
      · exact ⟨_, _, _, hentries, hfront,
          readEntry_eq_error_iff.2 (.inr ⟨⟨_, rfl⟩, (hfault _ e).2 h⟩)⟩
      · exact absurd rfl (hno members)
  | null | bool | int | float | str | arr =>
    constructor
    · rintro ⟨⟩
      exact .noObject (by simp)
    · rintro ⟨⟩
      rfl

end Var

theorem Drift.ofJson_eq_error_iff {j : Json} {e : DecodeError} :
    ofJson j = .error e ↔ FirstFault j e := by
  rw [ofJson, read, Decoded.map_eq_error_iff]
  exact Var.readKeyed_eq_error_iff (fun _ => Var.exists_read_iff) fun _ _ => Var.read_eq_error_iff

theorem Equalities.ofJson_eq_error_iff {j : Json} {e : DecodeError} :
    ofJson j = .error e ↔ FirstFault j e := by
  have hnames : Var.readKeyed Var.readList j.source = .error e ↔
      Var.KeyedFault (fun j => ∃ vs, j = Var.listToJson vs) Var.NamesFault j e :=
    Var.readKeyed_eq_error_iff (fun _ => Var.exists_readList_iff)
      fun _ _ => Var.readList_eq_error_iff
  cases j with
  | obj members =>
    rw [Var.readKeyed_obj] at hnames
    simp only [ofJson_obj, Decoded.bind_eq_error_iff, hnames, mapM_readEntry_eq_ok_iff,
      Decoded.ofFault_eq_error_iff]
    constructor
    · rintro (h | ⟨groups, hentries, fault, hfault, rfl⟩)
      · exact .name h
      · obtain ⟨i, hi, hfirst⟩ := (addGroups_error_iff empty).1 hfault
        exact .group hentries hi hfirst
    · rintro (h | ⟨hentries, hi, hfirst⟩)
      · exact .inl h
      · exact .inr ⟨_, hentries, _, (addGroups_error_iff empty).2 ⟨_, hi, hfirst⟩, rfl⟩
  | null | bool | int | float | str | arr =>
    rw [ofJson, read, Decoded.bind_eq_error_iff, hnames]
    constructor
    · rintro (h | ⟨_, h, -⟩)
      · exact .name h
      · cases h
    · rintro ⟨h⟩
      exact .inl h

-- ---------------------------------------------------------------------------
-- Terms
-- ---------------------------------------------------------------------------

theorem Literal.ofJson_eq_error_iff {j : Json} {e : DecodeError} :
    ofJson j = .error e ↔ e = .malformed ∧ ∀ l, ¬Spells Json.Names j l := by
  have hcontent : ∀ kind content e, ofContent kind content = .error e → e = .malformed := by
    intro kind content e h
    unfold ofContent at h
    split at h <;> try split at h
    all_goals cases h
    all_goals rfl
  have hread : ∀ e, ofJson j = .error e → e = .malformed := by
    intro e h
    rw [ofJson, read] at h
    by_cases hopen : ∃ kind c rest, j.Opens "value" kind c rest
    · obtain ⟨kind, c, rest, hopen⟩ := hopen
      rw [tagging.read_of_opens _ (by decide) hopen, Decoded.bind_eq_error_iff] at h
      rcases h with h | ⟨_, -, h⟩
      · cases c with
        | none => exact hcontent _ _ _ h
        | some c => exact hcontent _ _ _ h
      · exact (Decoded.closing_eq_error_iff.1 h).2
    · simp only [not_exists] at hopen
      rw [tagging.read_of_not_opens _ (by decide) hopen] at h
      cases h
      rfl
  simp only [← ofJson_eq_ok_iff]
  constructor
  · intro h
    exact ⟨hread e h, by simp [h]⟩
  · rintro ⟨rfl, h⟩
    cases hj : ofJson j with
    | ok l => exact absurd hj (h l)
    | error e => rw [hread e hj]

namespace Term

variable {kind : String} {content j : Json} {e : DecodeError}

theorem exists_ofJson_iff : (∃ t, ofJson j = .ok t) ↔ ∃ t, Spells Json.Names j t :=
  exists_congr fun t => ofJson_eq_ok_iff t j

theorem readContent_of_not_fits (h : ¬Fits kind content) :
    readContent false kind content.source = .error .malformed := by
  unfold readContent
  split
  next hc =>
    obtain ⟨items, rfl, -, -⟩ := Json.source_eq_arr_iff.1 hc
    exact absurd (.seq items) h
  next hc =>
    obtain rfl := Json.source_eq_str_iff.1 hc
    exact absurd (.symbol _) h
  next hc =>
    obtain rfl := Json.source_eq_str_iff.1 hc
    exact absurd (.str _) h
  next =>
    have hname : ∀ text, content ≠ .str text := by
      rintro text rfl
      exact h (.var text)
    rw [Var.read_eq_error_iff.2 (.noText hname)]
    rfl
  next =>
    have hliteral : ∀ l, ¬Literal.Spells Json.Names content l := fun l hl => h (.literal hl)
    exact Decoded.map_eq_error_iff.2 (Literal.ofJson_eq_error_iff.2 ⟨rfl, hliteral⟩)
  next => rfl

/-- What is left open here is what is wrong with the items of a sequence. -/
theorem readContent_eq_error_iff {fault : Json → DecodeError → Prop}
    (hitems : ∀ items, content = .arr items →
      ∀ i ∈ items, ∀ e, ofJson i = .error e ↔ fault i e) :
    readContent false kind content.source = .error e ↔ ContentFault fault kind content e := by
  constructor
  · intro h
    by_cases hfits : Fits kind content
    · cases hfits with
      | seq items =>
        rw [Json.source, readContent, Decoded.bind_eq_error_iff, readItems_eq,
          Decoded.mapM_source_eq_error_iff (fun _ => exists_ofJson_iff) (hitems items rfl)] at h
        rcases h with ⟨front, j, back, rfl, hfront, h⟩ | ⟨_, -, h⟩
        · exact .item hfront h
        · cases h
      | symbol | str => cases h
      | var text =>
        rw [readContent, Decoded.map_eq_error_iff, Var.read_eq_error_iff] at h
        rcases h with h | h
        · exact .name h
        · exact absurd rfl (h text)
      | literal hl =>
        rw [readContent] at h
        have := (Literal.ofJson_eq_error_iff.1 (Decoded.map_eq_error_iff.1 h)).2
        exact absurd hl (this _)
    · rw [readContent_of_not_fits hfits] at h
      cases h
      exact .form hfits
  · intro h
    cases h with
    | form hfits => exact readContent_of_not_fits hfits
    | name h =>
      rw [readContent, Var.read_eq_error_iff.2 (.unmarked h)]
      rfl
    | @item front j back _ hfront h =>
      rw [Json.source, readContent, Decoded.bind_eq_error_iff, readItems_eq,
        Decoded.mapM_source_eq_error_iff (fun _ => exists_ofJson_iff) (hitems _ rfl)]
      exact .inl ⟨front, j, back, rfl, hfront, h⟩

theorem readContent_iff_spelled {t : Term} : readContent false kind content.source = .ok t ↔
    Content Json.Names (Spells Json.Names) kind content t := by
  rw [readContent_eq_ok_iff]
  constructor
  · exact Content.mono fun ts _ items => (forall₂_ofJson_iff ts items).1
  · exact Content.mono fun ts _ items => (forall₂_ofJson_iff ts items).2

theorem ofJson_of_opens {c : Option Json} {rest : List Json} (h : j.Opens "value" kind c rest) :
    ofJson j = (do
      let t ← c.elim (.error .malformed) fun c => readContent false kind c.source
      Decoded.closing rest.isEmpty t) := by
  rw [ofJson, read_eq]
  exact tagging.read_of_opens readContent (by decide) h

theorem ofJson_of_not_opens (h : ∀ kind c rest, ¬j.Opens "value" kind c rest) :
    ofJson j = .error .malformed := by
  rw [ofJson, read_eq]
  exact tagging.read_of_not_opens readContent (by decide) h

theorem ofJson_eq_error_iff (j : Json) (e : DecodeError) : ofJson j = .error e ↔ FirstFault j e := by
  have hcontent : ∀ {kind content rest e}, j.Opens "value" kind (some content) rest →
      (readContent false kind content.source = .error e ↔
        ContentFault FirstFault kind content e) := by
    intro kind content rest e hopen
    refine readContent_eq_error_iff ?_
    rintro items rfl i hi e
    have : sizeOf i < sizeOf j := Json.sizeOf_item_lt hopen hi
    exact ofJson_eq_error_iff i e
  constructor
  · intro h
    by_cases hopen : ∃ kind c rest, j.Opens "value" kind c rest
    · obtain ⟨kind, _ | content, rest, hopen⟩ := hopen
      · rw [ofJson_of_opens hopen] at h
        cases h
        exact .missing hopen
      · rw [ofJson_of_opens hopen, Decoded.bind_eq_error_iff] at h
        rcases h with h | ⟨t, ht, h⟩
        · exact .content hopen ((hcontent hopen).1 h)
        · obtain ⟨hrest, rfl⟩ := Decoded.closing_eq_error_iff.1 h
          exact .surplus hopen (readContent_iff_spelled.1 ht) (by simpa using hrest)
    · simp only [not_exists] at hopen
      rw [ofJson_of_not_opens hopen] at h
      cases h
      exact .tag hopen
  · intro h
    cases h with
    | tag hopen => exact ofJson_of_not_opens hopen
    | missing hopen =>
      rw [ofJson_of_opens hopen]
      rfl
    | content hopen h =>
      rw [ofJson_of_opens hopen, Decoded.bind_eq_error_iff]
      exact .inl ((hcontent hopen).2 h)
    | surplus hopen ht hrest =>
      rw [ofJson_of_opens hopen, Decoded.bind_eq_error_iff]
      refine .inr ⟨_, readContent_iff_spelled.2 ht, ?_⟩
      exact Decoded.closing_eq_error_iff.2 ⟨by simpa using hrest, rfl⟩
termination_by sizeOf j

/-- Of all faults only texts without a marker are kept. -/
theorem kept_of_ofJson (j : Json) (h : ofJson j = .error e) :
    e = .malformed ∨ ∃ text, Var.Unmarked text ∧ e = .rejected (.notAVariable text) := by
  cases (ofJson_eq_error_iff j e).1 h with
  | tag | missing | surplus => exact .inl rfl
  | content hopen hcontent =>
    cases hcontent with
    | form => exact .inl rfl
    | name htext => exact .inr ⟨_, htext, rfl⟩
    | @item _ bad _ _ _ hbad =>
      have : sizeOf bad < sizeOf j := Json.sizeOf_item_lt hopen (by simp)
      exact kept_of_ofJson bad ((ofJson_eq_error_iff bad e).2 hbad)
termination_by sizeOf j

theorem not_exists_spells_iff : (¬∃ t, Spells Json.Names j t) ↔ ∃! e, FirstFault j e := by
  simp only [← exists_ofJson_iff, ← ofJson_eq_error_iff]
  cases ofJson j with
  | ok t => simp [ExistsUnique]
  | error e => simp

theorem ofJson_of_item {front back rest : List Json} {bad : Json}
    (hopen : j.Opens "value" "seq" (some (.arr (front ++ bad :: back))) rest)
    (hfront : ∀ i ∈ front, ∃ t, Spells Json.Names i t) (h : ofJson bad = .error e) :
    ofJson j = .error e := by
  rw [ofJson_eq_error_iff] at h ⊢
  exact .content hopen (.item hfront h)

end Term

/-- The answer to a value is the fault that comes first in reading order: one such fault
for each value that spells no term, and none for the others. What stands behind that
fault does not change it, and nothing is kept of it but a text without a marker. In the
same way the maps are read, entry by entry in the byte order of their keys; the groups
of an equality map, in the same order, come last. -/
theorem first_fault_decides :
    (∀ j e, Term.ofJson j = .error e ↔ Term.FirstFault j e) ∧
    (∀ j, (¬∃ t, Term.Spells Json.Names j t) ↔ ∃! e, Term.FirstFault j e) ∧
    (∀ j fault, Term.FirstFault j (.rejected fault) →
      ∃ text, Var.Unmarked text ∧ fault = .notAVariable text) ∧
    (∀ j front bad back rest e,
      j.Opens "value" "seq" (some (.arr (front ++ bad :: back))) rest →
      (∀ i ∈ front, ∃ t, Term.Spells Json.Names i t) → Term.ofJson bad = .error e →
        Term.ofJson j = .error e) ∧
    (∀ j e, Equalities.ofJson j = .error e ↔ Equalities.FirstFault j e) ∧
    (∀ j e, Drift.ofJson j = .error e ↔ Drift.FirstFault j e) ∧
    ∀ members : List (String × Json), (Json.entries members).Pairwise fun a b =>
      compare (Utf8.bytes a.1) (Utf8.bytes b.1) = .lt := by
  refine ⟨Term.ofJson_eq_error_iff, fun _ => Term.not_exists_spells_iff,
    ?_, ?_, fun _ _ => Equalities.ofJson_eq_error_iff,
    fun _ _ => Drift.ofJson_eq_error_iff, ?_⟩
  · intro j fault h
    rcases Term.kept_of_ofJson j ((Term.ofJson_eq_error_iff j _).2 h) with h | ⟨text, htext, h⟩
    · cases h
    · exact ⟨text, htext, DecodeError.rejected.inj h⟩
  · intro j front bad back rest e hopen hfront h
    exact Term.ofJson_of_item hopen hfront h
  · intro members
    exact (Json.sorted_entries members).imp fun h => by rwa [Utf8.compare_bytes]

/-- A surplus item and a second bad name, both behind the bad name that is reported. -/
example : Term.ofJson (.arr [.str "seq", .arr [.arr [.str "symbol", .str "f"],
      .obj [("value", .str "x"), ("kind", .str "var")], .arr [.str "var", .str "y"]], .null]) =
    .error (.rejected (.notAVariable "x")) := rfl

end QueryVars
