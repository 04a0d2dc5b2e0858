import QueryVars.Codec.Config
import QueryVars.Codec.Term
import QueryVars.Drift.Basic

/-!
# The JSON form of equality and drift maps

Both are objects with names as keys. All names of an equality map are read
before its groups are checked, and the groups are checked in key order.
-/

namespace QueryVars

open Json (Source)

namespace Var

def listToJson (vs : List Var) : Json := .arr (vs.map toJson)

def readList : Source → Decoded (List Var)
  | .arr items closed => do Decoded.closing closed (← items.mapM read)
  | _ => .error .malformed

/-- A key is read before the value that it leads to. -/
def readEntry (value : Source → Decoded α) (e : Option String × Source) : Decoded (Var × α) := do
  match e.1 with
  | none => .error .malformed
  | some key => return (← Decoded.ofFault (ofName key), ← value e.2)

def readKeyed (value : Source → Decoded α) : Source → Decoded (List (Var × α))
  | .obj members closed => do Decoded.closing closed (← members.mapM (readEntry value))
  | _ => .error .malformed

theorem readKeyed_obj (value : Source → Decoded α) (members : List (String × Json)) :
    readKeyed value (Json.source (.obj members)) =
      (Json.entries members).mapM fun e => readEntry value (some e.1, e.2.source) := by
  rw [Json.source_obj, readKeyed, List.mapM_map]
  change (((Json.entries members).mapM fun e => readEntry value (some e.1, e.2.source)) >>=
    fun entries => Decoded.closing true entries) = _
  exact bind_pure _

theorem readEntry_eq_ok_iff {value : Source → Decoded α} {key : String} {s : Source} {v : Var} {a : α} :
    readEntry value (some key, s) = .ok (v, a) ↔ v.name = key ∧ value s = .ok a := by
  simp only [readEntry, ofName_eq_parse, Decoded.bind_eq_ok_iff, Decoded.ofFault_eq_ok_iff,
    parse_eq_ok_iff]
  constructor
  · rintro ⟨v, hv, a, ha, h⟩
    cases h
    exact ⟨hv, ha⟩
  · rintro ⟨hv, ha⟩
    exact ⟨v, hv, a, ha, rfl⟩

/-- Variables are ordered like the keys that spell them. -/
theorem sorted_of_mapM_readEntry {value : Source → Decoded α} {f : β → Source}
    {es : List (String × β)} {groups : List (Var × α)}
    (h : es.mapM (fun e => readEntry value (some e.1, f e.2)) = .ok groups)
    (hs : es.Pairwise fun a b => compare a.1 b.1 = .lt) :
    groups.Pairwise fun a b => compare a.1 b.1 = .lt := by
  have names : es.map (·.1) = groups.map (·.1.name) :=
    Decoded.map_eq_of_mapM (fun _ _ h => (readEntry_eq_ok_iff.1 h).1.symm) h
  have hn : (groups.map (·.1.name)).Pairwise fun a b => compare a b = .lt := by
    rw [← names]
    exact List.pairwise_map.2 hs
  exact (List.pairwise_map.1 hn).imp fun h => (compare_eq _ _).trans h

end Var

namespace Equalities

def toJson (m : Equalities) : Json :=
  .obj (m.groups.map fun e => (e.1.name, Var.listToJson e.2))

/-- Of the groups of a repeated key the last one counts. -/
def read (s : Source) : Decoded Equalities := do
  let groups ← Var.readKeyed Var.readList s
  Decoded.ofFault (ofGroups (SortedMap.ofList groups).toList)

def ofJson (j : Json) : Decoded Equalities := read j.source

theorem ofJson_obj (members : List (String × Json)) :
    ofJson (.obj members) = (do
      let groups ← (Json.entries members).mapM fun e =>
        Var.readEntry Var.readList (some e.1, e.2.source)
      Decoded.ofFault (ofGroups groups)) := by
  rw [ofJson, read, Var.readKeyed_obj]
  cases h : (Json.entries members).mapM fun e =>
      Var.readEntry Var.readList (some e.1, e.2.source) with
  | error err => rfl
  | ok groups =>
    have := Var.sorted_of_mapM_readEntry h (Json.sorted_entries members)
    simp only [bind, Except.bind, SortedMap.toList_ofList this]

end Equalities

namespace Drift

def toJson (d : Drift) : Json :=
  .obj (d.toList.map fun e => (e.1.name, e.2.toJson))

def read (s : Source) : Decoded Drift := ofList <$> Var.readKeyed Var.read s

def ofJson (j : Json) : Decoded Drift := read j.source

end Drift

end QueryVars
