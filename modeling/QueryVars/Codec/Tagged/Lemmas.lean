import QueryVars.Codec.Tagged

/-!
# Reading tagged values out of JSON values

A value has no repeated members and nothing amiss in those that are passed
over, so a tagged object is read by look-up: `read_obj`. Content is held if and
only if its key comes before that of the tag.
-/

namespace QueryVars

open Json (Source)

namespace Tagging

variable (g : Tagging α) (content : Bool → String → Source → Decoded α)

def member (e : String × Source) : Member α :=
  ⟨some e.1, e.2, fun held tag => content held tag e.2⟩

theorem next_cons (e : String × Source) (rest : List (String × Source)) (hs : e.2.sound = true) :
    g.next true ((e :: rest).map (member content)) =
      if e.1 = "kind" ∨ e.1 = g.key then .ok (some (member content e, rest.map (member content)))
      else g.next true (rest.map (member content)) := by
  simp [next, member, hs]

theorem finish_eq_ok {es : List (String × Source)} (hs : ∀ e ∈ es, e.2.sound = true)
    (htag : Json.lookup "kind" es = none) (hkey : Json.lookup g.key es = none) (a : α) :
    g.finish true (es.map (member content)) a = .ok a := by
  induction es with
  | nil => rfl
  | cons e rest ih =>
    rw [Json.lookup_cons_eq_none_iff] at htag hkey
    have h := ih (fun e he => hs e (List.mem_cons_of_mem _ he)) htag.2 hkey.2
    unfold finish at h ⊢
    rw [next_cons _ _ _ _ (hs e List.mem_cons_self)]
    simpa [htag.1, hkey.1] using h

/-- What is left to do behind the tag. -/
theorem readContent_eq {es : List (String × Source)} (hs : ∀ e ∈ es, e.2.sound = true)
    (hn : es.Pairwise fun a b => a.1 ≠ b.1) (htag : Json.lookup "kind" es = none)
    (held : Bool) (tag : String) :
    (do
      match ← g.next true (es.map (member content)) with
      | none => g.bare tag
      | some (second, rest) =>
        if second.key = some "kind" then .error .malformed
        else do g.finish true rest (← second.content held tag)) =
      match Json.lookup g.key es with
      | none => g.bare tag
      | some c => content held tag c := by
  induction es with
  | nil => rfl
  | cons e rest ih =>
    obtain ⟨hfirst, hrest⟩ := List.pairwise_cons.1 hn
    rw [Json.lookup_cons_eq_none_iff] at htag
    have hsr : ∀ e ∈ rest, e.2.sound = true := fun e he => hs e (List.mem_cons_of_mem _ he)
    rw [next_cons _ _ _ _ (hs e List.mem_cons_self)]
    by_cases hk : e.1 = g.key
    · have hnone : Json.lookup g.key rest = none :=
        Json.lookup_eq_none fun f hf h => hfirst f hf (hk.trans h.symm)
      simp only [hk, or_true, if_true, Json.lookup, hnone]
      change (if some e.1 = some "kind" then _ else _) = _
      rw [if_neg (by simp [htag.1])]
      change (do g.finish true (rest.map (member content)) (← content held tag e.2)) = _
      cases content held tag e.2 with
      | error err => rfl
      | ok a => exact finish_eq_ok g content hsr htag.2 hnone a
    · rw [Json.lookup_cons_of_ne hk, ← ih hsr hrest htag.2]
      simp [htag.1, hk]

theorem readTag_eq {es : List (String × Source)} (hs : ∀ e ∈ es, e.2.sound = true)
    (hn : es.Pairwise fun a b => a.1 ≠ b.1) (hkey : Json.lookup g.key es = none)
    (first : String → Decoded α) :
    (do
      match ← g.next true (es.map (member content)) with
      | none => .error .malformed
      | some (second, rest) =>
        if second.key = some "kind" then do
          let tag ← second.source.plainName false
          g.finish true rest (← first tag)
        else .error .malformed) =
      match Json.lookup "kind" es with
      | none => .error .malformed
      | some tag => (do first (← tag.plainName false)) := by
  induction es with
  | nil => rfl
  | cons e rest ih =>
    obtain ⟨hfirst, hrest⟩ := List.pairwise_cons.1 hn
    rw [Json.lookup_cons_eq_none_iff] at hkey
    have hsr : ∀ e ∈ rest, e.2.sound = true := fun e he => hs e (List.mem_cons_of_mem _ he)
    rw [next_cons _ _ _ _ (hs e List.mem_cons_self)]
    by_cases hk : e.1 = "kind"
    · have hnone : Json.lookup "kind" rest = none :=
        Json.lookup_eq_none fun f hf h => hfirst f hf (hk.trans h.symm)
      simp only [hk, true_or, if_true, Json.lookup, hnone]
      change (if some e.1 = some "kind" then _ else _) = _
      rw [if_pos (by rw [hk])]
      change (do
        let tag ← e.2.plainName false
        g.finish true (rest.map (member content)) (← first tag)) = _
      cases e.2.plainName false with
      | error err => rfl
      | ok tag =>
        change (do g.finish true (rest.map (member content)) (← first tag)) = first tag
        cases first tag with
        | error err => rfl
        | ok a => exact finish_eq_ok g content hsr hnone hkey.2 a
    · rw [Json.lookup_cons_of_ne hk, ← ih hsr hrest hkey.2]
      simp [hkey.1, hk]

theorem readObj_eq {es : List (String × Source)} (hw : ∀ e ∈ es, ∀ strict, e.2.passes strict = true)
    (hn : es.Pairwise fun a b => compare a.1 b.1 = .lt) (hg : g.key ≠ "kind") :
    g.readObj false true (es.map (member content)) =
      match Json.lookup "kind" es with
      | none => .error .malformed
      | some tag => (do
        let tag ← tag.plainName false
        match Json.lookup g.key es with
        | none => g.bare tag
        | some c => content (compare g.key "kind" == .lt) tag c) := by
  induction es with
  | nil => rfl
  | cons e rest ih =>
    obtain ⟨hfirst, hrest⟩ := List.pairwise_cons.1 hn
    have hwr : ∀ e ∈ rest, ∀ strict, e.2.passes strict = true :=
      fun e he => hw e (List.mem_cons_of_mem _ he)
    have hsr : ∀ e ∈ rest, e.2.sound = true := fun e he => hwr e he false
    have hne : rest.Pairwise fun a b => a.1 ≠ b.1 := hrest.imp (by
      intro a b h hab
      simp [hab] at h)
    have hnone : Json.lookup e.1 rest = none :=
      Json.lookup_eq_none fun f hf h => by
        have := hfirst f hf
        simp [h] at this
    unfold readObj
    rw [next_cons _ _ _ _ (hw e List.mem_cons_self false)]
    by_cases hk : e.1 = "kind"
    · have hl : Json.lookup "kind" (e :: rest) = some e.2 := by
        rw [hk] at hnone
        simp [Json.lookup, hnone, hk]
      rw [hl, Json.lookup_cons_of_ne (hk ▸ Ne.symm hg), if_pos (.inl hk)]
      change (if some e.1 = some "kind" then _ else _) = _
      rw [if_pos (by rw [hk])]
      change (do
        let tag ← e.2.plainName false
        match ← g.next true (rest.map (member content)) with
        | none => g.bare tag
        | some (second, rest) =>
          if second.key = some "kind" then .error .malformed
          else do g.finish true rest (← second.content false tag)) = _
      refine congrArg (e.2.plainName false >>= ·) (funext fun tag => ?_)
      rw [readContent_eq g content hsr hne (hk ▸ hnone)]
      cases hc : Json.lookup g.key rest with
      | none => rfl
      | some c =>
        have : compare e.1 g.key = .lt := hfirst _ (Json.mem_of_lookup hc)
        rw [hk, Std.OrientedOrd.eq_swap] at this
        have : compare g.key "kind" = .gt := by simpa using this
        simp [this]
    · by_cases hc : e.1 = g.key
      · have hkey : Json.lookup g.key (e :: rest) = some e.2 := by
          rw [hc] at hnone
          simp [Json.lookup, hnone, hc]
        rw [Json.lookup_cons_of_ne hk, hkey, if_pos (.inr hc)]
        change (if some e.1 = some "kind" then _ else _) = _
        rw [if_neg (by simp [hk])]
        change (if e.2.whole = true then _ else _) = _
        rw [if_pos (show e.2.whole = true from hw e List.mem_cons_self true)]
        refine (readTag_eq g content hsr hne (hc ▸ hnone) (content true · e.2)).trans ?_
        cases ht : Json.lookup "kind" rest with
        | none => rfl
        | some t =>
          have : compare e.1 "kind" = .lt := hfirst _ (Json.mem_of_lookup ht)
          simp [← hc, this]
      · rw [Json.lookup_cons_of_ne hk, Json.lookup_cons_of_ne hc, ← ih hwr hrest,
          if_neg (by simp [hk, hc])]
        rfl

theorem read_obj (members : List (String × Json)) (hg : g.key ≠ "kind") :
    g.read content false (Json.source (.obj members)) =
      match Json.lookup "kind" members with
      | none => .error .malformed
      | some tag => (do
        let tag ← tag.source.plainName false
        match Json.lookup g.key members with
        | none => g.bare tag
        | some c => content (compare g.key "kind" == .lt) tag c.source) := by
  have h := readObj_eq g content (fun _ => Json.passes_of_mem)
    (List.pairwise_map.2 (Json.sorted_entries members)) hg
  simp only [Json.lookup_map, Json.lookup_entries, List.map_map] at h
  rw [Json.source_obj, Tagging.read, List.map_map]
  refine h.trans ?_
  cases Json.lookup "kind" members with
  | none => rfl
  | some tag =>
    cases Json.lookup g.key members <;> rfl

end Tagging

end QueryVars
