/-!
# Finite maps in key order

Entries are kept strictly increasing in their keys, so a map has one
representation and its entry list is its iteration order. `get?_insert` and
`mem_toList_iff` describe a map by look-up alone, and `ext_get?` says that
look-up determines it.
-/

namespace QueryVars

structure SortedMap (κ : Type) [Ord κ] (α : Type) where
  toList : List (κ × α)
  sorted : toList.Pairwise fun a b => compare a.1 b.1 = .lt
  deriving DecidableEq

namespace SortedMap

variable {κ α : Type} [Ord κ]

@[ext] theorem ext {m n : SortedMap κ α} (h : m.toList = n.toList) : m = n := by
  cases m; cases n; cases h; rfl

def empty : SortedMap κ α := ⟨[], .nil⟩

instance : Inhabited (SortedMap κ α) := ⟨empty⟩

def lookup (k : κ) : List (κ × α) → Option α
  | [] => none
  | e :: rest => if compare k e.1 = .eq then some e.2 else lookup k rest

def get? (m : SortedMap κ α) (k : κ) : Option α := lookup k m.toList

@[simp] theorem get?_empty (k : κ) : (empty : SortedMap κ α).get? k = none := rfl

def contains (m : SortedMap κ α) (k : κ) : Bool := (m.get? k).isSome

def keys (m : SortedMap κ α) : List κ := m.toList.map (·.1)

def size (m : SortedMap κ α) : Nat := m.toList.length

def isEmpty (m : SortedMap κ α) : Bool := m.toList.isEmpty

/-- A key that is present keeps its place and takes the new value. -/
def place (k : κ) (a : α) : List (κ × α) → List (κ × α)
  | [] => [(k, a)]
  | e :: rest =>
    match compare k e.1 with
    | .lt => (k, a) :: e :: rest
    | .eq => (k, a) :: rest
    | .gt => e :: place k a rest

theorem mem_place {k : κ} {a : α} {entries : List (κ × α)} {e : κ × α}
    (h : e ∈ place k a entries) : e = (k, a) ∨ e ∈ entries := by
  induction entries with
  | nil => simpa [place] using h
  | cons first rest ih =>
    unfold place at h
    split at h <;> simp only [List.mem_cons] at h ⊢
    · exact h
    · exact h.imp id .inr
    · rcases h with h | h
      · exact .inr (.inl h)
      · exact (ih h).imp id .inr

theorem mem_iff_lookup [Std.LawfulEqOrd κ] {entries : List (κ × α)}
    (h : entries.Pairwise fun a b => compare a.1 b.1 = .lt) (k : κ) (a : α) :
    (k, a) ∈ entries ↔ lookup k entries = some a := by
  induction entries with
  | nil => simp [lookup]
  | cons first rest ih =>
    obtain ⟨hfirst, hrest⟩ := List.pairwise_cons.1 h
    simp only [lookup, List.mem_cons]
    split
    next hc =>
      obtain rfl := Std.LawfulEqCmp.eq_of_compare hc
      constructor
      · rintro (h | h)
        · rw [← h]
        · have := hfirst _ h
          simp at this
      · intro h
        exact .inl (Prod.ext rfl (Option.some.inj h).symm)
    next hc =>
      rw [ih hrest]
      constructor
      · rintro (rfl | h)
        · simp at hc
        · exact h
      · exact .inr

theorem sorted_place [Std.TransOrd κ] (k : κ) (a : α) {entries : List (κ × α)}
    (h : entries.Pairwise fun a b => compare a.1 b.1 = .lt) :
    (place k a entries).Pairwise fun a b => compare a.1 b.1 = .lt := by
  induction entries with
  | nil => simp [place]
  | cons first rest ih =>
    obtain ⟨hfirst, hrest⟩ := List.pairwise_cons.1 h
    unfold place
    split
    next hc =>
      refine List.pairwise_cons.2 ⟨?_, h⟩
      intro e he
      rcases List.mem_cons.1 he with rfl | he
      · exact hc
      · exact Std.TransCmp.lt_trans hc (hfirst e he)
    next hc =>
      refine List.pairwise_cons.2 ⟨?_, hrest⟩
      intro e he
      exact Std.TransCmp.lt_of_eq_of_lt hc (hfirst e he)
    next hc =>
      refine List.pairwise_cons.2 ⟨?_, ih hrest⟩
      intro e he
      rcases mem_place he with rfl | he
      · exact Std.OrientedCmp.lt_of_gt hc
      · exact hfirst e he

def insert [Std.TransOrd κ] (m : SortedMap κ α) (k : κ) (a : α) : SortedMap κ α :=
  ⟨place k a m.toList, sorted_place k a m.sorted⟩

/-- The last entry of a repeated key wins. -/
def ofList [Std.TransOrd κ] (entries : List (κ × α)) : SortedMap κ α :=
  entries.foldl (fun m e => m.insert e.1 e.2) empty

theorem lookup_place [Std.TransOrd κ] [Std.LawfulEqOrd κ]
    (k l : κ) (a : α) {entries : List (κ × α)}
    (h : entries.Pairwise fun a b => compare a.1 b.1 = .lt) :
    lookup l (place k a entries) = if compare l k = .eq then some a else lookup l entries := by
  induction entries with
  | nil => simp [place, lookup]
  | cons first rest ih =>
    obtain ⟨-, hrest⟩ := List.pairwise_cons.1 h
    unfold place
    split
    next hc => simp [lookup]
    next hc =>
      obtain rfl := Std.LawfulEqCmp.eq_of_compare hc
      simp only [lookup]
      split <;> simp_all
    next hc =>
      simp only [lookup, ih hrest]
      split
      next hl =>
        obtain rfl := Std.LawfulEqCmp.eq_of_compare hl
        have : compare first.1 k ≠ .eq := by
          rw [@Std.OrientedCmp.eq_swap _ compare, hc]; decide
        simp [this]
      next hl => rfl

theorem get?_insert [Std.TransOrd κ] [Std.LawfulEqOrd κ]
    (m : SortedMap κ α) (k l : κ) (a : α) :
    (m.insert k a).get? l = if compare l k = .eq then some a else m.get? l :=
  lookup_place k l a m.sorted

@[simp] theorem get?_insert_self [Std.TransOrd κ] [Std.LawfulEqOrd κ]
    (m : SortedMap κ α) (k : κ) (a : α) :
    (m.insert k a).get? k = some a := by
  simp [get?_insert]

theorem get?_insert_of_ne [Std.TransOrd κ] [Std.LawfulEqOrd κ]
    (m : SortedMap κ α) {k l : κ} (a : α) (h : l ≠ k) :
    (m.insert k a).get? l = m.get? l := by
  have : compare l k ≠ .eq := fun hc => h (Std.LawfulEqCmp.eq_of_compare hc)
  simp [get?_insert, this]

theorem mem_toList_iff [Std.LawfulEqOrd κ] (m : SortedMap κ α) (k : κ) (a : α) :
    (k, a) ∈ m.toList ↔ m.get? k = some a :=
  mem_iff_lookup m.sorted k a

theorem mem_keys_iff [Std.LawfulEqOrd κ] (m : SortedMap κ α) (k : κ) : k ∈ m.keys ↔ m.contains k := by
  simp only [keys, List.mem_map, contains, Option.isSome_iff_exists]
  constructor
  · rintro ⟨e, he, rfl⟩
    exact ⟨e.2, (m.mem_toList_iff _ _).1 he⟩
  · rintro ⟨a, ha⟩
    exact ⟨(k, a), (m.mem_toList_iff _ _).2 ha, rfl⟩

theorem eq_of_perm [Std.OrientedOrd κ] {key : β → κ} {xs ys : List β}
    (hx : xs.Pairwise fun a b => compare (key a) (key b) = .lt)
    (hy : ys.Pairwise fun a b => compare (key a) (key b) = .lt) (h : xs.Perm ys) : xs = ys := by
  refine h.eq_of_pairwise (fun a b _ _ hab hba => ?_) hx hy
  rw [Std.OrientedCmp.gt_of_lt hab] at hba
  cases hba

theorem eq_of_lookup_eq [Std.TransOrd κ] [Std.LawfulEqOrd κ] {xs ys : List (κ × α)}
    (hx : xs.Pairwise fun a b => compare a.1 b.1 = .lt)
    (hy : ys.Pairwise fun a b => compare a.1 b.1 = .lt)
    (h : ∀ k, lookup k xs = lookup k ys) : xs = ys := by
  have hmem : ∀ e, e ∈ xs ↔ e ∈ ys := fun e => by
    rw [mem_iff_lookup hx e.1 e.2, mem_iff_lookup hy e.1 e.2, h]
  have hne : ∀ {l : List (κ × α)}, (l.Pairwise fun a b => compare a.1 b.1 = .lt) → l.Nodup := by
    intro l hl
    refine hl.imp ?_
    rintro a b hab rfl
    simp at hab
  exact eq_of_perm hx hy ((List.perm_ext_iff_of_nodup (hne hx) (hne hy)).2 hmem)

theorem ext_get? [Std.TransOrd κ] [Std.LawfulEqOrd κ]
    {m n : SortedMap κ α}
    (h : ∀ k, m.get? k = n.get? k) : m = n :=
  ext (eq_of_lookup_eq m.sorted n.sorted h)

theorem place_map {β : Type} (f : α → β) (k : κ) (a : α) (entries : List (κ × α)) :
    place k (f a) (entries.map fun e => (e.1, f e.2)) =
      (place k a entries).map fun e => (e.1, f e.2) := by
  induction entries with
  | nil => rfl
  | cons e rest ih =>
    simp only [List.map_cons, place]
    split <;> simp [ih]

theorem toList_ofList_map [Std.TransOrd κ] {β : Type} (f : α → β) (entries : List (κ × α)) :
    (ofList (entries.map fun e => (e.1, f e.2))).toList =
      (ofList entries).toList.map fun e => (e.1, f e.2) := by
  have go : ∀ (m : SortedMap κ α) (n : SortedMap κ β),
      (n.toList = m.toList.map fun e => (e.1, f e.2)) →
      ((entries.map fun e => (e.1, f e.2)).foldl (fun m e => m.insert e.1 e.2) n).toList =
        (entries.foldl (fun m e => m.insert e.1 e.2) m).toList.map fun e => (e.1, f e.2) := by
    induction entries with
    | nil => exact fun m n h => h
    | cons e rest ih =>
      intro m n h
      simp only [List.map_cons, List.foldl_cons]
      exact ih _ _ (by simp [insert, h, place_map])
  exact go empty empty rfl

theorem place_eq_append [Std.OrientedOrd κ] {k : κ} (a : α) {entries : List (κ × α)}
    (h : ∀ e ∈ entries, compare e.1 k = .lt) : place k a entries = entries ++ [(k, a)] := by
  induction entries with
  | nil => rfl
  | cons e rest ih =>
    have hk : compare k e.1 = .gt := Std.OrientedCmp.gt_of_lt (h e List.mem_cons_self)
    simp [place, hk, ih fun f hf => h f (List.mem_cons_of_mem _ hf)]

theorem toList_ofList [Std.TransOrd κ] {entries : List (κ × α)}
    (h : entries.Pairwise fun a b => compare a.1 b.1 = .lt) : (ofList entries).toList = entries := by
  have go : ∀ m : SortedMap κ α,
      (m.toList ++ entries).Pairwise (fun a b => compare a.1 b.1 = .lt) →
      (entries.foldl (fun m e => m.insert e.1 e.2) m).toList = m.toList ++ entries := by
    clear h
    induction entries with
    | nil => simp
    | cons e rest ih =>
      intro m hm
      have hplace : (m.insert e.1 e.2).toList = m.toList ++ [e] :=
        place_eq_append e.2 fun f hf => (List.pairwise_append.1 hm).2.2 f hf e List.mem_cons_self
      simp only [List.foldl_cons]
      rw [ih _ (by simpa [hplace] using hm), hplace]
      simp
  exact (go empty h).trans (List.nil_append _)

theorem place_ne_nil (k : κ) (a : α) (entries : List (κ × α)) : place k a entries ≠ [] := by
  cases entries with
  | nil => simp [place]
  | cons e rest =>
    unfold place
    split <;> simp

theorem isEmpty_ofList [Std.TransOrd κ] {entries : List (κ × α)} :
    (ofList entries).isEmpty = true ↔ entries = [] := by
  rcases List.eq_nil_or_concat entries with rfl | ⟨front, e, rfl⟩
  · exact iff_of_true rfl rfl
  · have hlast : (ofList (front ++ [e])).toList = place e.1 e.2 (ofList front).toList := by
      rw [ofList, List.foldl_append]
      rfl
    simp [isEmpty, hlast, place_ne_nil]

theorem nodup_keys [Std.LawfulEqOrd κ] (m : SortedMap κ α) : m.keys.Nodup := by
  refine List.pairwise_map.2 (m.sorted.imp ?_)
  rintro a b hab he
  simp [he] at hab

theorem keys_congr [Std.TransOrd κ] [Std.LawfulEqOrd κ] {m : SortedMap κ α}
    {n : SortedMap κ β} (h : ∀ k, k ∈ m.keys ↔ k ∈ n.keys) : m.keys = n.keys := by
  have hm : m.keys.Pairwise fun a b => compare a b = .lt := List.pairwise_map.2 m.sorted
  have hn : n.keys.Pairwise fun a b => compare a b = .lt := List.pairwise_map.2 n.sorted
  exact eq_of_perm hm hn ((List.perm_ext_iff_of_nodup m.nodup_keys n.nodup_keys).2 h)

theorem place_perm (a : α) {k : κ} {entries : List (κ × α)} (h : lookup k entries = none) :
    (place k a entries).Perm ((k, a) :: entries) := by
  induction entries with
  | nil => exact .refl _
  | cons e rest ih =>
    simp only [lookup] at h
    split at h
    next => cases h
    next hk =>
      unfold place
      split
      next => exact .refl _
      next hc => exact absurd hc hk
      next => exact ((ih h).cons e).trans (.swap ..)

theorem place_split [Std.TransOrd κ] [Std.LawfulEqOrd κ] {k : κ} {b : α} {entries : List (κ × α)}
    (hs : entries.Pairwise fun a b => compare a.1 b.1 = .lt) (h : lookup k entries = some b) :
    ∃ before after, entries = before ++ (k, b) :: after ∧
      ∀ a, place k a entries = before ++ (k, a) :: after := by
  induction entries with
  | nil => cases h
  | cons e rest ih =>
    obtain ⟨hfirst, hrest⟩ := List.pairwise_cons.1 hs
    simp only [lookup] at h
    split at h
    next hk =>
      obtain rfl := Std.LawfulEqCmp.eq_of_compare hk
      obtain rfl := Option.some.inj h
      exact ⟨[], rest, rfl, fun a => by simp [place]⟩
    next =>
      obtain ⟨before, after, rfl, hplace⟩ := ih hrest h
      have hlt : compare e.1 k = .lt := hfirst (k, b) (by simp)
      have hgt : compare k e.1 = .gt := Std.OrientedCmp.gt_of_lt hlt
      exact ⟨e :: before, after, rfl, fun a => by simp [place, hgt, hplace]⟩

theorem toList_ofList_perm [Std.TransOrd κ] [Std.LawfulEqOrd κ] {entries : List (κ × α)}
    (h : (entries.map (·.1)).Nodup) : (ofList entries).toList.Perm entries := by
  have go : ∀ m : SortedMap κ α, (m.keys ++ entries.map (·.1)).Nodup →
      (entries.foldl (fun m e => m.insert e.1 e.2) m).toList.Perm (m.toList ++ entries) := by
    clear h
    induction entries with
    | nil => simp
    | cons e rest ih =>
      intro m hm
      have hnew : lookup e.1 m.toList = none := by
        have hk : e.1 ∉ m.keys := fun hk =>
          (List.nodup_append.1 hm).2.2 _ hk _ List.mem_cons_self rfl
        rw [mem_keys_iff] at hk
        simpa [contains, get?] using hk
      have hplace : (m.insert e.1 e.2).toList.Perm (e :: m.toList) := place_perm e.2 hnew
      have hkeys : ((m.insert e.1 e.2).keys ++ rest.map (·.1)).Perm
          (m.keys ++ (e :: rest).map (·.1)) :=
        ((hplace.map (·.1)).append_right _).trans List.perm_middle.symm
      exact (ih _ (hkeys.nodup_iff.2 hm)).trans
        ((hplace.append_right rest).trans List.perm_middle.symm)
  exact (go empty (by simpa [empty, keys] using h)).trans (.refl _)

end SortedMap

end QueryVars
