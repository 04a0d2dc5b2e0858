import QueryVars.Codec.Maps

/-!
# Reading maps back

A map is written entry by entry in key order, and keys are ordered like their
spelling, so the entries are read in the order in which they were written. For an
equality map this comes down to a check of its own groups.
-/

namespace QueryVars

open Json (Source)

theorem Decoded.mapM_ok {f : α → Decoded β} {g : β → α} {bs : List β}
    (h : ∀ b ∈ bs, f (g b) = .ok b) :
    (bs.map g).mapM f = .ok bs := by
  induction bs with
  | nil => rfl
  | cons b rest ih =>
    have hrest := ih fun c hc => h c (List.mem_cons_of_mem _ hc)
    rw [List.map_cons, List.mapM_cons, h b List.mem_cons_self, hrest]
    rfl

namespace Var

@[simp] theorem read_toJson (v : Var) : read v.toJson.source = .ok v := by
  simp [toJson, read, Json.source, Decoded.ofFault]

theorem readList_toJson (vs : List Var) : readList (listToJson vs).source = .ok vs := by
  have hitems : (vs.map fun v => v.toJson.source).mapM read = .ok vs :=
    Decoded.mapM_ok fun v _ => v.read_toJson
  rw [listToJson, Json.source, Json.itemSources_eq, List.map_map, readList]
  change ((vs.map fun v => v.toJson.source).mapM read >>= Decoded.closing true) = _
  rw [hitems]
  rfl

/-- Keys are ordered like their spelling, so what is written in key order is read in
that order. -/
theorem readKeyed_sorted {read : Source → Decoded α} {write : α → Json} {es : List (Var × α)}
    (hs : es.Pairwise fun a b => compare a.1 b.1 = .lt)
    (hv : ∀ a, read (write a).source = .ok a) :
    readKeyed read (Json.source (.obj (es.map fun e => (e.1.name, write e.2)))) = .ok es := by
  have hsorted : (es.map fun e => (e.1.name, write e.2)).Pairwise
      fun a b => compare a.1 b.1 = .lt :=
    List.pairwise_map.2 (hs.imp fun h => (compare_eq _ _).symm.trans h)
  have hentries : Json.entries (es.map fun e => (e.1.name, write e.2)) =
      es.map fun e => (e.1.name, write e.2) :=
    SortedMap.toList_ofList hsorted
  rw [readKeyed_obj, hentries]
  exact Decoded.mapM_ok fun e _ => readEntry_eq_ok_iff.2 ⟨rfl, hv e.2⟩

end Var

namespace Equalities

theorem sorted_groups (m : Equalities) :
    m.groups.Pairwise fun a b => compare a.1 b.1 = .lt :=
  List.pairwise_map.2 m.duplicates.sorted

theorem ofJson_toJson (m : Equalities) : ofJson m.toJson = Decoded.ofFault (ofGroups m.groups) := by
  rw [ofJson, toJson, read, Var.readKeyed_sorted m.sorted_groups Var.readList_toJson]
  change Decoded.ofFault (ofGroups (SortedMap.ofList m.groups).toList) = _
  rw [SortedMap.toList_ofList m.sorted_groups]

end Equalities

theorem Drift.ofJson_toJson (d : Drift) : ofJson d.toJson = .ok d := by
  rw [ofJson, toJson, read, toList, Var.readKeyed_sorted d.heads.sorted Var.read_toJson]
  exact congrArg Except.ok (ext (SortedMap.ext (SortedMap.toList_ofList d.heads.sorted)))

end QueryVars
