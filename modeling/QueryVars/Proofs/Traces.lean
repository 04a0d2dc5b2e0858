import QueryVars.Proofs.Stages

/-!
# Traces of a map

A map rarely has a run to itself: between two of its slots wildcards are filled
and other maps draw. A trace follows one map through such a history, slot by
slot, and keeps what every slot came out as. It says nothing about the suffixes,
so whatever is shown of traces holds for any source of them.
-/

namespace QueryVars

namespace Stage

variable {s next : Stage} {t u : Term} {v w : Var}

theorem Visit.eq_of_constant (h : Visit s t u next) (hc : t.var? = none) : u = t := by
  cases h with
  | constant => rfl
  | opened ht | repeated ht | kept ht => simp [ht] at hc

theorem Visit.grouped (h : Visit s t u next) (ht : t.var? = some v) :
    ∃ w, u = .var w ∧ next.map.Grouped v w := by
  cases h with
  | constant hc => simp [ht] at hc
  | opened ht' hv =>
    obtain rfl := Option.some.inj (ht.symm.trans ht')
    exact ⟨v, rfl, .inl ⟨rfl, (Equalities.heads_open hv).mem_iff.2 List.mem_cons_self⟩⟩
  | repeated ht' hv _ =>
    obtain rfl := Option.some.inj (ht.symm.trans ht')
    exact ⟨_, rfl, .inr ((Equalities.pairs_append hv _).mem_iff.2 List.mem_cons_self)⟩
  | @kept _ ds ht' hv _ =>
    obtain rfl := Option.some.inj (ht.symm.trans ht')
    refine ⟨_, rfl, ?_⟩
    cases hlast : ds.getLast? with
    | none => exact .inl ⟨rfl, Equalities.mem_heads_iff.2 ⟨ds, hv⟩⟩
    | some d => exact .inr ((s.map.mem_pairs_iff v d).2 ⟨ds, hv, List.mem_of_getLast? hlast⟩)

/-- A visit adds at most one name to the map, the one that its slot came out as,
and it adds one for every groundable variable. -/
theorem Visit.names_perm (h : Visit s t u next) :
    ((∀ v, t.var? = some v → v.category.isGroundable = false) ∧
        next.map.names.Perm s.map.names) ∨
      ∃ w, u = .var w ∧ next.map.names.Perm (w :: s.map.names) := by
  cases h with
  | constant hc => exact .inl ⟨fun v hv => by simp [hc] at hv, .refl _⟩
  | opened _ hv => exact .inr ⟨_, rfl, Equalities.names_open hv⟩
  | repeated _ hv _ => exact .inr ⟨_, rfl, Equalities.names_append hv _⟩
  | kept ht _ hg =>
    refine .inl ⟨fun v hv => ?_, .refl _⟩
    obtain rfl := Option.some.inj (ht.symm.trans hv)
    exact hg

theorem Visit.get?_of_ne (h : Visit s t u next) (hv : t.var? ≠ some v) :
    next.map.duplicates.get? v = s.map.duplicates.get? v := by
  cases h with
  | constant | kept => rfl
  | @opened w ht _ | @repeated w _ ht _ _ =>
    have hne : v ≠ w := fun he => hv (he ▸ ht)
    exact SortedMap.get?_insert_of_ne _ _ hne

end Stage

namespace Equalities

/-- `m` becomes `n` by visits to the slots in turn, each against a run of its
own. Every slot stands beside what it came out as. -/
inductive Trace : Equalities → List (Term × Term) → Equalities → Prop
  | nil {m} : Trace m [] m
  | cons {m r t u next slots n} : Stage.Visit ⟨m, r⟩ t u next → Trace next.map slots n →
      Trace m ((t, u) :: slots) n

namespace Trace

variable {m n k : Equalities} {slots more : List (Term × Term)} {t u : Term} {v w : Var}

theorem append (h : Trace m slots n) (h' : Trace n more k) : Trace m (slots ++ more) k := by
  induction h with
  | nil => exact h'
  | cons hv _ ih => exact .cons hv (ih h')

theorem split (h : Trace m (slots ++ more) k) : ∃ n, Trace m slots n ∧ Trace n more k := by
  induction slots generalizing m with
  | nil => exact ⟨m, .nil, h⟩
  | cons e rest ih =>
    cases h with
    | cons hv h =>
      obtain ⟨n, hfirst, hrest⟩ := ih h
      exact ⟨n, .cons hv hfirst, hrest⟩

theorem grows (h : Trace m slots n) : m.Grows n := by
  induction h with
  | nil => exact .refl _
  | cons hv _ ih => exact hv.grows.trans ih

theorem constant (h : Trace m slots n) : ∀ e ∈ slots, e.1.var? = none → e.2 = e.1 := by
  induction h with
  | nil => simp
  | cons hv _ ih =>
    intro e he hc
    rcases List.mem_cons.1 he with rfl | he
    · exact hv.eq_of_constant hc
    · exact ih e he hc

theorem grouped (h : Trace m slots n) :
    ∀ e ∈ slots, ∀ v, e.1.var? = some v → ∃ w, e.2 = .var w ∧ n.Grouped v w := by
  induction h with
  | nil => simp
  | cons hv h ih =>
    intro e he v hs
    rcases List.mem_cons.1 he with rfl | he
    · obtain ⟨w, hu, hw⟩ := hv.grouped hs
      exact ⟨w, hu, h.grows.grouped hw⟩
    · exact ih e he v hs

theorem nodup_names (h : Trace m slots n) (hn : n.names.Nodup) : m.names.Nodup := by
  induction h with
  | nil => exact hn
  | cons hv _ ih =>
    rcases hv.names_perm with ⟨-, hp⟩ | ⟨w, -, hp⟩
    · exact hp.nodup_iff.1 (ih hn)
    · exact (List.nodup_cons.1 (hp.nodup_iff.1 (ih hn))).2

-- ---------------------------------------------------------------------------
-- Variables that the slots do not name
-- ---------------------------------------------------------------------------

theorem get?_of_unnamed (h : Trace m slots n) (hv : ∀ e ∈ slots, e.1.var? ≠ some v) :
    n.duplicates.get? v = m.duplicates.get? v := by
  induction h with
  | nil => rfl
  | cons hvisit _ ih =>
    have hrest := ih fun e he => hv e (List.mem_cons_of_mem _ he)
    exact hrest.trans (hvisit.get?_of_ne (hv _ List.mem_cons_self))

theorem mem_heads (h : Trace m slots n) (hv : v ∈ n.heads) :
    v ∈ m.heads ∨ ∃ e ∈ slots, e.1.var? = some v := by
  by_cases hs : ∃ e ∈ slots, e.1.var? = some v
  · exact .inr hs
  · refine .inl (mem_heads_iff.2 ?_)
    obtain ⟨ds, hds⟩ := mem_heads_iff.1 hv
    rw [h.get?_of_unnamed fun e he hs' => hs ⟨e, he, hs'⟩] at hds
    exact ⟨ds, hds⟩

theorem named_once (h : Trace m (slots ++ (t, u) :: more) n) (ht : t.var? = some v)
    (hm : v ∉ m.heads) (hbefore : ∀ e ∈ slots, e.1.var? ≠ some v)
    (hafter : ∀ e ∈ more, e.1.var? ≠ some v) :
    u = .var v ∧ n.duplicates.get? v = some [] := by
  obtain ⟨k, hfirst, hrest⟩ := h.split
  have hnew : k.duplicates.get? v = none := by
    rw [hfirst.get?_of_unnamed hbefore]
    exact get?_eq_none_iff.2 hm
  cases hrest with
  | cons hvisit hrest =>
    rw [hrest.get?_of_unnamed hafter]
    cases hvisit with
    | constant hc => simp [ht] at hc
    | opened ht' _ =>
      obtain rfl := Option.some.inj (ht.symm.trans ht')
      exact ⟨rfl, SortedMap.get?_insert_self ..⟩
    | repeated ht' hv _ | kept ht' hv _ =>
      obtain rfl := Option.some.inj (ht.symm.trans ht')
      exact absurd (hv.symm.trans hnew) (by simp)

end Trace

end Equalities

theorem Stage.trace (s : Stage) (slots : List Term) :
    Equalities.Trace s.map (slots.zip (s.out slots)) (s.after slots).map := by
  induction slots generalizing s with
  | nil => exact .nil
  | cons t ts ih =>
    obtain ⟨u, hout, hv⟩ := s.out_cons t ts
    rw [hout, List.zip_cons_cons, after_cons]
    exact .cons hv (ih _)

end QueryVars
