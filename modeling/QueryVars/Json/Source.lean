import QueryVars.Json.Basic
import QueryVars.SortedMap

/-!
# JSON as it is written

A source keeps what a value forgets: the order of members, repeated keys, and
the place where a text stops being JSON. A reader that goes through a source in
order may come to a decision before that place. A value is a source as well,
with its members in key order; `passes_source` says that nothing is amiss in it.
-/

namespace QueryVars

namespace Json

/-- A container is closed unless the text breaks off behind what it holds. A
member lacks its key if the key is no text. -/
inductive Source
  | null
  | bool (value : Bool)
  | int (value : Int)
  | float (value : Float)
  | str (text : String)
  | arr (items : List Source) (closed : Bool)
  | obj (members : List (Option String × Source)) (closed : Bool)
  /-- Well-formed JSON without a value: a number beyond the doubles, a string
  with half of a surrogate pair, or a container nested too deep. -/
  | unfit
  /-- The text breaks off here. -/
  | broken

namespace Source

instance : Inhabited Source := ⟨.null⟩

mutual
/-- The text does not break off in here and, if `strict`, all of it has a
value. -/
def passes (strict : Bool) : Source → Bool
  | .null | .bool _ | .int _ | .float _ | .str _ => true
  | .arr items closed => passesItems strict items && closed
  | .obj members closed => passesMembers strict members && closed
  | .unfit => !strict
  | .broken => false
def passesItems (strict : Bool) : List Source → Bool
  | [] => true
  | s :: rest => passes strict s && passesItems strict rest
def passesMembers (strict : Bool) : List (Option String × Source) → Bool
  | [] => true
  | (key, s) :: rest => (key.isSome || !strict) && passes strict s && passesMembers strict rest
end

/-- What a reader demands of a part that it passes over. -/
def sound (s : Source) : Bool := s.passes false

/-- What a reader demands of a part that it keeps for later. -/
def whole (s : Source) : Bool := s.passes true

mutual
def toJson? : Source → Option Json
  | .null => some .null
  | .bool value => some (.bool value)
  | .int value => some (.int value)
  | .float value => some (.float value)
  | .str text => some (.str text)
  | .arr items closed => if closed then Json.arr <$> itemsToJson? items else none
  | .obj members closed => if closed then Json.obj <$> membersToJson? members else none
  | .unfit | .broken => none
def itemsToJson? : List Source → Option (List Json)
  | [] => some []
  | s :: rest => do return (← toJson? s) :: (← itemsToJson? rest)
def membersToJson? : List (Option String × Source) → Option (List (String × Json))
  | [] => some []
  | (key, s) :: rest => do return (← key, ← toJson? s) :: (← membersToJson? rest)
end

end Source

/-- The members of an object in key order, each key once. -/
def entries (members : List (String × α)) : List (String × α) :=
  (SortedMap.ofList members).toList

mutual
def source : Json → Source
  | .null => .null
  | .bool value => .bool value
  | .int value => .int value
  | .float value => .float value
  | .str text => .str text
  | .arr items => .arr (itemSources items) true
  | .obj members => .obj ((entries (memberSources members)).map fun e => (some e.1, e.2)) true
def itemSources : List Json → List Source
  | [] => []
  | j :: rest => source j :: itemSources rest
def memberSources : List (String × Json) → List (String × Source)
  | [] => []
  | (key, j) :: rest => (key, source j) :: memberSources rest
end

theorem itemSources_eq (items : List Json) : itemSources items = items.map source := by
  induction items with
  | nil => rfl
  | cons j rest ih => simp [itemSources, ih]

theorem memberSources_eq (members : List (String × Json)) :
    memberSources members = members.map fun e => (e.1, source e.2) := by
  induction members with
  | nil => rfl
  | cons e rest ih => simp [memberSources, ih]

theorem get?_ofList (key : String) (members : List (String × α)) :
    (SortedMap.ofList members).get? key = lookup key members := by
  have go : ∀ m : SortedMap String α,
      (members.foldl (fun m e => m.insert e.1 e.2) m).get? key =
        (lookup key members).or (m.get? key) := by
    induction members with
    | nil => exact fun m => rfl
    | cons e rest ih =>
      intro m
      simp only [List.foldl_cons, ih, lookup, SortedMap.get?_insert, Std.LawfulEqOrd.compare_eq_iff_eq]
      cases lookup key rest with
      | some a => rfl
      | none =>
        by_cases h : key = e.1
        · simp [h]
        · simp [h, Ne.symm h]
  exact (go .empty).trans (by simp)

theorem sorted_entries (members : List (String × α)) :
    (entries members).Pairwise fun a b => compare a.1 b.1 = .lt :=
  (SortedMap.ofList members).sorted

theorem entries_map (f : α → β) (members : List (String × α)) :
    entries (members.map fun e => (e.1, f e.2)) = (entries members).map fun e => (e.1, f e.2) :=
  SortedMap.toList_ofList_map f members

theorem source_obj (members : List (String × Json)) :
    source (.obj members) =
      .obj ((entries members).map fun e => (some e.1, source e.2)) true := by
  simp [source, memberSources_eq, entries_map]

theorem lookup_entries (key : String) (members : List (String × α)) :
    lookup key (entries members) = lookup key members := by
  have go : ∀ es : List (String × α), (es.Pairwise fun a b => compare a.1 b.1 = .lt) →
      lookup key es = SortedMap.lookup key es := by
    intro es
    induction es with
    | nil => exact fun _ => rfl
    | cons e rest ih =>
      intro h
      obtain ⟨hfirst, hrest⟩ := List.pairwise_cons.1 h
      simp only [lookup, SortedMap.lookup, ih hrest]
      by_cases hk : key = e.1
      · have hnone : SortedMap.lookup key rest = none := by
          rw [Option.eq_none_iff_forall_ne_some]
          intro a ha
          have := hfirst _ ((SortedMap.mem_iff_lookup hrest key a).2 ha)
          simp [hk] at this
        subst hk
        simp [hnone]
      · simp only [Ne.symm hk, if_false, Std.LawfulEqOrd.compare_eq_iff_eq, hk]
        cases SortedMap.lookup key rest <;> rfl
  rw [go _ (sorted_entries members), ← get?_ofList]
  rfl

theorem mem_entries_iff (members : List (String × α)) (key : String) (a : α) :
    (key, a) ∈ entries members ↔ lookup key members = some a := by
  rw [← get?_ofList]
  exact SortedMap.mem_toList_iff ..

theorem passesMembers_eq (strict : Bool) (members : List (Option String × Source)) :
    Source.passesMembers strict members =
      members.all fun e => (e.1.isSome || !strict) && e.2.passes strict := by
  induction members with
  | nil => rfl
  | cons e rest ih => simp [Source.passesMembers, ih]

mutual
theorem passes_source (strict : Bool) : (j : Json) → (source j).passes strict = true
  | .null | .bool _ | .int _ | .float _ | .str _ => rfl
  | .arr items => by
    simp [source, Source.passes, passes_itemSources strict items]
  | .obj members => by
    simp only [source_obj, Source.passes, passesMembers_eq, Bool.and_true, List.all_map,
      List.all_eq_true]
    intro e he
    have := passes_memberSources strict members e
      (mem_of_lookup ((mem_entries_iff members e.1 e.2).1 he))
    simpa using this
theorem passes_itemSources (strict : Bool) :
    (items : List Json) → Source.passesItems strict (itemSources items) = true
  | [] => rfl
  | j :: rest => by
    simp [itemSources, Source.passesItems, passes_source strict j, passes_itemSources strict rest]
theorem passes_memberSources (strict : Bool) : (members : List (String × Json)) →
    ∀ e ∈ members, (source e.2).passes strict = true
  | [] => by simp
  | (key, j) :: rest => by
    intro e he
    rcases List.mem_cons.1 he with rfl | he
    · exact passes_source strict j
    · exact passes_memberSources strict rest e he
end

theorem passes_of_mem {members : List (String × Json)} {e : String × Source}
    (h : e ∈ members.map fun e => (e.1, source e.2)) (strict : Bool) : e.2.passes strict = true := by
  obtain ⟨f, -, rfl⟩ := List.mem_map.1 h
  exact passes_source strict f.2

end Json

end QueryVars
