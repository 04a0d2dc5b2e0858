import Mathlib.Data.Set.List
import QueryVars.Proofs.GroupFaults
import QueryVars.Proofs.RoundTrips

/-!
# The canonical form of equality maps

An equality map has one JSON form. An object is accepted exactly if its members
spell a family of groups that could be handed over explicitly, and what is written
of the map that it makes is the same object, in key order. So accepted values and
valid maps answer to one another.
-/

namespace QueryVars

-- ---------------------------------------------------------------------------
-- Objects as values
-- ---------------------------------------------------------------------------

namespace Json

variable {ms ns : List (String × α)}

theorem entries_eq_iff : entries ms = entries ns ↔ ∀ key, lookup key ms = lookup key ns := by
  constructor
  · intro h key
    rw [← lookup_entries key ms, h, lookup_entries]
  · intro h
    refine congrArg SortedMap.toList (SortedMap.ext_get? fun key => ?_)
    rw [get?_ofList, get?_ofList, h]

end Json

-- ---------------------------------------------------------------------------
-- What is read is what would be written
-- ---------------------------------------------------------------------------

namespace Var

variable {j : Json} {v : Var} {vs : List Var}

theorem eq_toJson_of_read (h : read j.source = .ok v) : j = v.toJson := by
  cases j with
  | str text =>
    rw [Json.source, read_str, Decoded.ofFault_eq_ok_iff, parse_eq_ok_iff] at h
    rw [toJson, h]
  | null | bool | int | float | arr | obj => cases h

theorem eq_listToJson_of_readList (h : readList j.source = .ok vs) : j = listToJson vs := by
  cases j with
  | arr items =>
    rw [Json.source, Json.itemSources_eq, readList, List.mapM_map, Decoded.bind_eq_ok_iff] at h
    obtain ⟨_, hitems, h⟩ := h
    cases h
    have hmap := Decoded.map_eq_of_mapM (fun _ _ => eq_toJson_of_read) hitems
    rw [listToJson, ← hmap, List.map_id']
  | null | bool | int | float | str | obj => cases h

end Var

namespace Equalities

variable {j : Json} {m : Equalities} {members : List (String × Json)}
  {groups : List (Var × List Var)}

def member (e : Var × List Var) : String × Json := (e.1.name, Var.listToJson e.2)

theorem readEntry_eq_ok_iff {e : String × Json} {group : Var × List Var} :
    Var.readEntry Var.readList (some e.1, e.2.source) = .ok group ↔ e = member group := by
  rw [Var.readEntry_eq_ok_iff]
  constructor
  · rintro ⟨hkey, hlist⟩
    exact Prod.ext hkey.symm (Var.eq_listToJson_of_readList hlist)
  · rintro rfl
    exact ⟨rfl, Var.readList_toJson group.2⟩

theorem mapM_readEntry_eq_ok_iff {es : List (String × Json)} :
    (es.mapM fun e => Var.readEntry Var.readList (some e.1, e.2.source)) = .ok groups ↔
      es = groups.map member := by
  constructor
  · intro h
    rw [← Decoded.map_eq_of_mapM (fun _ _ => readEntry_eq_ok_iff.1) h, List.map_id']
  · rintro rfl
    exact Decoded.mapM_ok fun _ _ => readEntry_eq_ok_iff.2 rfl

theorem ofJson_obj_eq_ok_iff : ofJson (.obj members) = .ok m ↔
    ∃ groups, Json.entries members = groups.map member ∧ ofGroups groups = .ok m := by
  simp only [ofJson_obj, Decoded.bind_eq_ok_iff, mapM_readEntry_eq_ok_iff,
    Decoded.ofFault_eq_ok_iff]

theorem obj_of_ofJson (h : ofJson j = .ok m) : ∃ members, j = .obj members := by
  cases j with
  | obj members => exact ⟨members, rfl⟩
  | null | bool | int | float | str | arr => cases h

/-- Members are read in key order, which is the order of the groups of a map. -/
theorem toJson_of_ofJson (h : ofJson (.obj members) = .ok m) :
    m.toJson = .obj (Json.entries members) := by
  obtain ⟨groups, hentries, hgroups⟩ := ofJson_obj_eq_ok_iff.1 h
  have hsorted : groups.Pairwise fun a b => compare a.1 b.1 = .lt :=
    Var.sorted_of_mapM_readEntry (mapM_readEntry_eq_ok_iff.2 hentries) (Json.sorted_entries members)
  have hsame : m.groups = groups :=
    SortedMap.eq_of_perm m.sorted_groups hsorted (ofGroups_ok hgroups).1
  rw [hentries, ← hsame]
  rfl

theorem ofJson_obj_congr {others : List (String × Json)}
    (h : Json.entries others = Json.entries members) :
    ofJson (.obj others) = ofJson (.obj members) := by
  rw [ofJson_obj, ofJson_obj, h]

-- ---------------------------------------------------------------------------
-- What is accepted
-- ---------------------------------------------------------------------------

/-- The object with these members is the family of lists of names: its keys and all
listed names are those of variables, every list begins with its key, and no name is
listed twice. -/
structure Spells (members : List (String × Json)) (family : List (String × List String)) : Prop where
  entries : Json.entries members = family.map fun e => (e.1, .arr (e.2.map .str))
  key : ∀ e ∈ family, (Category.of? e.1).isSome = true
  listed : ∀ e ∈ family, ∀ name ∈ e.2, (Category.of? name).isSome = true
  headed : ∀ e ∈ family, e.2.head? = some e.1
  nodup : (family.flatMap (·.2)).Nodup

def spelling (e : Var × List Var) : String × List String := (e.1.name, e.2.map Var.name)

theorem map_spelling (groups : List (Var × List Var)) :
    (groups.map spelling).map (fun e => (e.1, Json.arr (e.2.map .str))) = groups.map member := by
  simp [member, spelling, Var.listToJson, Var.toJson, Function.comp_def]

theorem flatMap_spelling (groups : List (Var × List Var)) :
    (groups.map spelling).flatMap (·.2) = (groups.flatMap (·.2)).map Var.name := by
  simp [spelling, List.flatMap_map, List.map_flatMap]

theorem Spells.exists_groups {family : List (String × List String)} (h : Spells members family) :
    ∃ groups : List (Var × List Var), family = groups.map spelling := by
  have hvar : ∀ name : String, (Category.of? name).isSome = true → ∃ v : Var, v.name = name := by
    intro name hname
    obtain ⟨c, hc⟩ := Option.isSome_iff_exists.1 hname
    exact ⟨⟨name, c, hc⟩, rfl⟩
  have hgroup : ∀ e ∈ family, e ∈ Set.range spelling := by
    intro e he
    obtain ⟨v, hv⟩ := hvar e.1 (h.key e he)
    have hlist : e.2 ∈ Set.range (List.map Var.name) := by
      rw [Set.range_list_map]
      exact fun name hname => hvar name (h.listed e he name hname)
    obtain ⟨vs, hvs⟩ := hlist
    exact ⟨(v, vs), Prod.ext hv hvs⟩
  have hfamily : family ∈ Set.range (List.map spelling) := by
    rw [Set.range_list_map]
    exact hgroup
  obtain ⟨groups, hgroups⟩ := hfamily
  exact ⟨groups, hgroups.symm⟩

theorem spells_spelling_iff : Spells members (groups.map spelling) ↔
    Json.entries members = groups.map member ∧ ∃ m, ofGroups groups = .ok m := by
  have hname : Function.Injective Var.name := fun _ _ => Var.ext
  rw [exists_ofGroups_iff]
  constructor
  · intro h
    refine ⟨h.entries.trans (map_spelling groups), ?_, ?_⟩
    · intro e he
      have hhead := h.headed (spelling e) (List.mem_map_of_mem he)
      rw [spelling, List.head?_map, Option.map_eq_some_iff] at hhead
      obtain ⟨v, hv, hkey⟩ := hhead
      rw [hv, hname hkey]
    · exact (flatMap_spelling groups ▸ h.nodup).of_map
  · rintro ⟨hentries, hheaded, hnodup⟩
    have hsome : ∀ v : Var, (Category.of? v.name).isSome = true := fun v => by simp [v.announced]
    refine ⟨hentries.trans (map_spelling groups).symm, ?_, ?_, ?_, ?_⟩
    · exact List.forall_mem_map.2 fun e _ => hsome e.1
    · exact List.forall_mem_map.2 fun e _ => List.forall_mem_map.2 fun v _ => hsome v
    · refine List.forall_mem_map.2 fun e he => ?_
      rw [spelling, List.head?_map, hheaded e he]
      rfl
    · rw [flatMap_spelling]
      exact hnodup.map hname

theorem exists_ofJson_obj_iff :
    (∃ m, ofJson (.obj members) = .ok m) ↔ ∃ family, Spells members family := by
  simp only [ofJson_obj_eq_ok_iff]
  constructor
  · rintro ⟨m, groups, hentries, hgroups⟩
    exact ⟨groups.map spelling, spells_spelling_iff.2 ⟨hentries, m, hgroups⟩⟩
  · rintro ⟨family, h⟩
    obtain ⟨groups, rfl⟩ := h.exists_groups
    obtain ⟨hentries, m, hgroups⟩ := spells_spelling_iff.1 h
    exact ⟨m, groups, hentries, hgroups⟩

/-- The accepted values are the objects that spell a family. Each of them is, up to
the order of its members, what is written of its map, so two of them with one map are
one object; and every map that explicit groups can make is the map of one. -/
theorem json_form_canonical :
    (∀ j, (∃ m, ofJson j = .ok m) ↔ ∃ members family, j = .obj members ∧ Spells members family) ∧
    (∀ j m, ofJson j = .ok m →
      ∃ members, j = .obj members ∧ m.toJson = .obj (Json.entries members)) ∧
    (∀ members others m, ofJson (.obj members) = .ok m →
      (ofJson (.obj others) = .ok m ↔ ∀ key, Json.lookup key others = Json.lookup key members)) ∧
    ∀ m, ofJson m.toJson = .ok m ↔ ∃ groups, ofGroups groups = .ok m := by
  refine ⟨?_, ?_, ?_, ofJson_toJson_iff_ofGroups⟩
  · intro j
    constructor
    · rintro ⟨m, h⟩
      obtain ⟨members, rfl⟩ := obj_of_ofJson h
      obtain ⟨family, hspells⟩ := exists_ofJson_obj_iff.1 ⟨m, h⟩
      exact ⟨members, family, rfl, hspells⟩
    · rintro ⟨members, family, rfl, hspells⟩
      exact exists_ofJson_obj_iff.2 ⟨family, hspells⟩
  · intro j m h
    obtain ⟨members, rfl⟩ := obj_of_ofJson h
    exact ⟨members, rfl, toJson_of_ofJson h⟩
  · intro members others m h
    rw [← Json.entries_eq_iff]
    constructor
    · intro h'
      exact Json.obj.inj ((toJson_of_ofJson h').symm.trans (toJson_of_ofJson h))
    · intro hsame
      rw [ofJson_obj_congr hsame, h]

end Equalities

end QueryVars
