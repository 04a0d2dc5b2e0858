import Mathlib.Data.Set.Function
import QueryVars.Proofs.Branches
import QueryVars.Proofs.Suffixes

/-!
# Which suffix goes where

Several maps draw from one supply, and what one of them draws depends on all the
others. What it makes of the suffixes does not: every suffix becomes a duplicate
of the variable that it was drawn for, behind the duplicates that were there. So
a run is known from a list of its draws.
-/

namespace QueryVars

namespace Supply

/-- The random suffixes that are drawn from `first` up to `last`. -/
def issuedUntil (first last : Supply) : Set Suffix :=
  {x | ∃ k, first.issued ≤ k ∧ k < last.issued ∧ x = ⟨first.source k⟩}

/-- From `s` up to `s'`, these are the random suffixes in the order of their draws. -/
inductive Issues : Supply → List Suffix → Supply → Prop
  | nil {s} : Issues s [] s
  | cons {s ss s'} : Issues (s.advance .random) ss s' → Issues s (s.suffix .random :: ss) s'

namespace Issues

variable {s s' s'' : Supply} {ss rest : List Suffix} {x : Suffix}

theorem append (h : Issues s ss s') (h' : Issues s' rest s'') : Issues s (ss ++ rest) s'' := by
  induction h with
  | nil => exact h'
  | cons _ ih => exact .cons (ih h')

theorem issued_le (h : Issues s ss s') : s.issued ≤ s'.issued := by
  induction h with
  | nil => exact Nat.le_refl _
  | cons _ ih => exact Nat.le_of_succ_le ih

theorem mem_iff (h : Issues s ss s') : x ∈ ss ↔ x ∈ s.issuedUntil s' := by
  induction h with
  | nil =>
    constructor
    · intro hx
      cases hx
    · rintro ⟨k, hk, hlt, -⟩
      exact absurd hk (Nat.not_le_of_lt hlt)
  | @cons s ss s' h ih =>
    rw [List.mem_cons, ih]
    constructor
    · rintro (rfl | ⟨k, hk, hlt, rfl⟩)
      · exact ⟨s.issued, Nat.le_refl _, h.issued_le, rfl⟩
      · exact ⟨k, Nat.le_of_succ_le hk, hlt, rfl⟩
    · rintro ⟨k, hk, hlt, rfl⟩
      rcases Nat.eq_or_lt_of_le hk with rfl | hk
      · exact .inl rfl
      · exact .inr ⟨k, hk, hlt, rfl⟩

theorem nodup (h : Issues s ss s') (hd : s.Distinct s') : ss.Nodup := by
  induction h with
  | nil => exact .nil
  | @cons s ss s' h ih =>
    have hrest : (s.advance .random).Distinct s' := fun i k hi => hd i k (Nat.le_of_succ_le hi)
    refine (ih hrest).cons fun hm => ?_
    obtain ⟨k, hk, hlt, hsame⟩ := h.mem_iff.1 hm
    exact hd s.issued k (Nat.le_refl _) hk hlt (Suffix.mk.inj hsame)

end Issues

end Supply

-- ---------------------------------------------------------------------------
-- Draws
-- ---------------------------------------------------------------------------

section Drawn

variable {κ : Type} [DecidableEq κ]

def drawnFor (p : List (κ × Suffix)) (a : κ) : List Suffix :=
  (p.filter fun e => e.1 = a).map Prod.snd

@[simp] theorem drawnFor_nil (a : κ) : drawnFor [] a = [] := rfl

@[simp] theorem drawnFor_append (p q : List (κ × Suffix)) (a : κ) :
    drawnFor (p ++ q) a = drawnFor p a ++ drawnFor q a := by
  simp [drawnFor]

theorem drawnFor_sublist (p : List (κ × Suffix)) (a : κ) :
    (drawnFor p a).Sublist (p.map Prod.snd) :=
  List.filter_sublist.map _

theorem mem_drawnFor {p : List (κ × Suffix)} {a : κ} {x : Suffix} :
    x ∈ drawnFor p a ↔ (a, x) ∈ p := by
  simp [drawnFor]

theorem drawnFor_owned {ι : Type} [DecidableEq ι] (i j : ι) (p : List (κ × Suffix)) (a : κ) :
    drawnFor (p.map fun e => ((i, e.1), e.2)) (j, a) = if i = j then drawnFor p a else [] := by
  split
  next h => simp [drawnFor, List.filter_map, Function.comp_def, h]
  next h => simp [drawnFor, List.filter_map, Function.comp_def, h]

end Drawn

-- ---------------------------------------------------------------------------
-- Matching draws
-- ---------------------------------------------------------------------------

section Matching

variable {κ : Type} [DecidableEq κ] {p q : List (κ × Suffix)} {a b : κ} {i k : Nat}
  {x y y' : Suffix}

theorem drawn_once (hp : (p.map Prod.snd).Nodup) (ha : (drawnFor p a)[i]? = some x)
    (hb : (drawnFor p b)[k]? = some x) : a = b ∧ i = k := by
  have hax : (a, x) ∈ p := mem_drawnFor.1 (List.mem_of_getElem? ha)
  have hbx : (b, x) ∈ p := mem_drawnFor.1 (List.mem_of_getElem? hb)
  obtain rfl : a = b := congrArg Prod.fst (List.inj_on_of_nodup_map hp hax hbx rfl)
  refine ⟨rfl, ?_⟩
  have hlt : i < (drawnFor p a).length := (List.getElem?_eq_some_iff.1 ha).1
  exact (List.getElem?_inj hlt ((drawnFor_sublist p a).nodup hp)).1 (ha.trans hb.symm)

/-- `y` was drawn in `q` where `x` was drawn in `p`. -/
def Matches (p q : List (κ × Suffix)) (x y : Suffix) : Prop :=
  ∃ (a : κ) (k : Nat), (drawnFor p a)[k]? = some x ∧ (drawnFor q a)[k]? = some y

namespace Matches

theorem symm (h : Matches p q x y) : Matches q p y x :=
  let ⟨a, k, hx, hy⟩ := h
  ⟨a, k, hy, hx⟩

theorem unique (hp : (p.map Prod.snd).Nodup) (h : Matches p q x y) (h' : Matches p q x y') :
    y = y' := by
  obtain ⟨a, i, hx, hy⟩ := h
  obtain ⟨b, k, hx', hy'⟩ := h'
  obtain ⟨rfl, rfl⟩ := drawn_once hp hx hx'
  exact Option.some.inj (hy.symm.trans hy')

theorem mem (h : Matches p q x y) : y ∈ q.map Prod.snd := by
  obtain ⟨a, k, -, hy⟩ := h
  exact (drawnFor_sublist q a).subset (List.mem_of_getElem? hy)

theorem at_index (hlen : (drawnFor p a).length = (drawnFor q a).length)
    (hx : (drawnFor p a)[k]? = some x) : ∃ y, (drawnFor q a)[k]? = some y ∧ Matches p q x y := by
  have hlt : k < (drawnFor q a).length := hlen ▸ (List.getElem?_eq_some_iff.1 hx).1
  have hy := List.getElem?_eq_getElem hlt
  exact ⟨_, hy, a, k, hx, hy⟩

theorem exists_of_mem (hlen : ∀ a, (drawnFor p a).length = (drawnFor q a).length)
    (hx : x ∈ p.map Prod.snd) : ∃ y, Matches p q x y := by
  obtain ⟨⟨a, x⟩, he, rfl⟩ := List.mem_map.1 hx
  obtain ⟨k, hk⟩ := List.getElem?_of_mem (mem_drawnFor.2 he)
  obtain ⟨y, -, h⟩ := at_index (hlen a) hk
  exact ⟨y, h⟩

end Matches

/-- Draws for the same owners, in any two orders, differ by an exchange of their
suffixes. -/
theorem exists_exchange (hp : (p.map Prod.snd).Nodup) (hq : (q.map Prod.snd).Nodup)
    (hlen : ∀ a, (drawnFor p a).length = (drawnFor q a).length) :
    ∃ σ : Suffix → Suffix, Set.BijOn σ {x | x ∈ p.map Prod.snd} {x | x ∈ q.map Prod.snd} ∧
      ∀ a, drawnFor q a = (drawnFor p a).map σ := by
  have hex : ∀ x, ∃ y, x ∈ p.map Prod.snd → Matches p q x y := by
    intro x
    by_cases hx : x ∈ p.map Prod.snd
    · obtain ⟨y, hy⟩ := Matches.exists_of_mem hlen hx
      exact ⟨y, fun _ => hy⟩
    · -- A suffix that was not drawn may go anywhere.
      exact ⟨x, fun h => absurd h hx⟩
  choose σ hσ using hex
  refine ⟨σ, ⟨fun x hx => (hσ x hx).mem, ?_, ?_⟩, ?_⟩
  · intro x hx y hy hxy
    exact (hσ x hx).symm.unique hq (hxy ▸ (hσ y hy).symm)
  · intro y hy
    obtain ⟨x, hx⟩ := Matches.exists_of_mem (fun a => (hlen a).symm) hy
    exact ⟨x, hx.mem, (hσ x hx.mem).unique hp hx.symm⟩
  · intro a
    refine List.ext_getElem? fun k => ?_
    rw [List.getElem?_map]
    cases hx : (drawnFor p a)[k]? with
    | none =>
      rw [List.getElem?_eq_none_iff, hlen a] at hx
      exact List.getElem?_eq_none hx
    | some x =>
      obtain ⟨y, hy, h⟩ := Matches.at_index (hlen a) hx
      rw [hy, Option.map_some, (hσ x h.symm.mem).unique hp h]

end Matching

-- ---------------------------------------------------------------------------
-- What becomes of the draws
-- ---------------------------------------------------------------------------

namespace Equalities

variable {m n k : Equalities} {p q : List (Var × Suffix)} {v w : Var}

def duplicatesOf (m : Equalities) (v : Var) : List Var := (m.duplicates.get? v).getD []

theorem duplicatesOf_insert_self (m : Equalities) (v : Var) (ds : List Var) :
    (m.insert v ds).duplicatesOf v = ds := by
  rw [duplicatesOf, insert, SortedMap.get?_insert_self, Option.getD_some]

theorem duplicatesOf_insert_of_ne (m : Equalities) (ds : List Var) (h : w ≠ v) :
    (m.insert v ds).duplicatesOf w = m.duplicatesOf w := by
  rw [duplicatesOf, insert, SortedMap.get?_insert_of_ne _ _ h, duplicatesOf]

theorem duplicatesOf_open (h : m.duplicates.get? v = none) (w : Var) :
    (m.insert v []).duplicatesOf w = m.duplicatesOf w := by
  by_cases hw : w = v
  · rw [hw, duplicatesOf_insert_self, duplicatesOf, h, Option.getD_none]
  · exact duplicatesOf_insert_of_ne m [] hw

theorem duplicatesOf_append {ds : List Var} (h : m.duplicates.get? v = some ds) (d w : Var) :
    (m.insert v (ds ++ [d])).duplicatesOf w = m.duplicatesOf w ++ if w = v then [d] else [] := by
  split
  next hw => rw [hw, duplicatesOf_insert_self, duplicatesOf, h, Option.getD_some]
  next hw => rw [duplicatesOf_insert_of_ne m _ hw, List.append_nil]

/-- Behind the duplicates in `m`, `n` has one for each suffix that was drawn for
their head. -/
def Extends (m : Equalities) (p : List (Var × Suffix)) (n : Equalities) : Prop :=
  ∀ v, n.duplicatesOf v = m.duplicatesOf v ++ (drawnFor p v).map v.extend

theorem Extends.refl (m : Equalities) : m.Extends [] m := fun v => by simp

theorem Extends.trans (h : m.Extends p n) (h' : n.Extends q k) : m.Extends (p ++ q) k := by
  intro v
  rw [h' v, h v, drawnFor_append, List.map_append, List.append_assoc]

end Equalities

namespace Stage

variable {s next : Stage} {t u : Term}

theorem Visit.draws (h : Visit s t u next) :
    ∃ p, s.map.Extends p next.map ∧ s.run.supply.Issues (p.map Prod.snd) next.run.supply := by
  cases h with
  | constant | kept => exact ⟨[], .refl _, .nil⟩
  | opened _ hv =>
    refine ⟨[], fun w => ?_, .nil⟩
    rw [Equalities.duplicatesOf_open hv, drawnFor_nil, List.map_nil, List.append_nil]
  | @repeated v ds _ hv _ =>
    refine ⟨[(v, s.run.supply.suffix .random)], fun w => ?_, .cons .nil⟩
    rw [Equalities.duplicatesOf_append hv]
    by_cases hw : w = v
    · simp [hw, drawnFor, duplicate]
    · simp [hw, drawnFor, Ne.symm hw]

theorem after_draws (s : Stage) (slots : List Term) :
    ∃ p, s.map.Extends p (s.after slots).map ∧
      s.run.supply.Issues (p.map Prod.snd) (s.after slots).run.supply := by
  induction slots generalizing s with
  | nil => exact ⟨[], .refl _, .nil⟩
  | cons t ts ih =>
    obtain ⟨u, -, hv⟩ := s.visit_spec t
    obtain ⟨p, hmap, hissues⟩ := hv.draws
    obtain ⟨q, hmap', hissues'⟩ := ih (s.visit t)
    rw [after_cons]
    exact ⟨p ++ q, hmap.trans hmap', List.map_append ▸ hissues.append hissues'⟩

end Stage

namespace Fork

variable {n : Nat} {f g k : Fork n} {p q : List ((Fin n × Var) × Suffix)}

/-- From `f` to `g` the maps drew these suffixes, each for one of their heads. -/
structure Draws (f : Fork n) (p : List ((Fin n × Var) × Suffix)) (g : Fork n) : Prop where
  maps : ∀ i v, (g.maps i).duplicatesOf v =
    (f.maps i).duplicatesOf v ++ (drawnFor p (i, v)).map v.extend
  issues : f.run.supply.Issues (p.map Prod.snd) g.run.supply

theorem Draws.trans (h : f.Draws p g) (h' : g.Draws q k) : f.Draws (p ++ q) k := by
  refine ⟨fun i v => ?_, ?_⟩
  · rw [h'.maps, h.maps, drawnFor_append, List.map_append, List.append_assoc]
  · rw [List.map_append]
    exact h.issues.append h'.issues

theorem draws_call (f : Fork n) (c : Fin n × List Term) : ∃ p, f.Draws p (f.call c) := by
  obtain ⟨p, hmap, hissues⟩ := (f.stage c.1).after_draws c.2
  refine ⟨p.map fun e => ((c.1, e.1), e.2), fun i v => ?_, ?_⟩
  · rw [drawnFor_owned]
    split
    next h =>
      subst h
      rw [maps_call_self]
      exact hmap v
    next h =>
      rw [maps_call_of_ne f (Ne.symm h)]
      simp
  · rw [List.map_map]
    exact hissues

theorem draws_calls (f : Fork n) (calls : List (Fin n × List Term)) :
    ∃ p, f.Draws p (calls.foldl call f) := by
  induction calls generalizing f with
  | nil => exact ⟨[], fun i v => by simp, .nil⟩
  | cons c rest ih =>
    obtain ⟨p, h⟩ := f.draws_call c
    obtain ⟨q, h'⟩ := ih (f.call c)
    exact ⟨p ++ q, h.trans h'⟩

end Fork

end QueryVars
