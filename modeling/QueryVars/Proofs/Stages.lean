import Mathlib.Data.List.Infix
import QueryVars.Equality.Rename
import QueryVars.Proofs.Names

/-!
# Stages of a run

A stage is an equality map together with the run that it is renamed against.
Calls lead from stage to stage, and so do the single slots of a call: renaming
is the sequence of its visits, and `Visit` says all that one visit can do.
-/

namespace QueryVars

/-- `p` holds of every input in the state that it is met in. -/
def Along (step : σ → α → σ) (p : σ → α → Prop) (s : σ) : List α → Prop
  | [] => True
  | a :: rest => p s a ∧ Along step p (step s a) rest

namespace Along

variable {step : σ → α → σ} {p q : σ → α → Prop} {s : σ} {as bs : List α}

instance decidable [∀ s a, Decidable (p s a)] (s : σ) :
    (as : List α) → Decidable (Along step p s as)
  | [] => .isTrue trivial
  | a :: rest =>
    have := decidable (step s a) rest
    inferInstanceAs (Decidable (p s a ∧ Along step p (step s a) rest))

theorem append :
    Along step p s (as ++ bs) ↔ Along step p s as ∧ Along step p (as.foldl step s) bs := by
  induction as generalizing s with
  | nil => simp [Along]
  | cons a rest ih => simp [Along, ih, and_assoc]

theorem mono (hpq : ∀ s a, p s a → q s a) (h : Along step p s as) : Along step q s as := by
  induction as generalizing s with
  | nil => trivial
  | cons a rest ih => exact ⟨hpq s a h.1, ih h.2⟩

theorem and (h : Along step p s as) (h' : Along step q s as) :
    Along step (fun s a => p s a ∧ q s a) s as := by
  induction as generalizing s with
  | nil => trivial
  | cons a rest ih => exact ⟨⟨h.1, h'.1⟩, ih h.2 h'.2⟩

theorem invariant {I : σ → Prop} (hstep : ∀ s a, p s a → I s → I (step s a))
    (h : Along step p s as) (hs : I s) : I (as.foldl step s) := by
  induction as generalizing s with
  | nil => exact hs
  | cons a rest ih => exact ih h.2 (hstep s a h.1 hs)

/-- A flaw that an event brings about, and nothing else, shows at the end if and
only if it was there before or the event occurred. -/
theorem flaw_iff (flaw : σ → Prop) {event : σ → α → Prop}
    (hstep : ∀ s a, p s a → (flaw (step s a) ↔ flaw s ∨ event s a)) (h : Along step p s as) :
    flaw (as.foldl step s) ↔ flaw s ∨ ¬Along step (fun s a => ¬event s a) s as := by
  induction as generalizing s with
  | nil => simp [Along]
  | cons a rest ih =>
    rw [List.foldl_cons, ih h.2, hstep s a h.1, Along, not_and_or, not_not, or_assoc]

end Along

structure Stage where
  map : Equalities
  run : Run

namespace Stage

def out (s : Stage) (slots : List Term) : List Term := ((s.map.rename slots).run s.run).1.1

def after (s : Stage) (slots : List Term) : Stage :=
  ⟨((s.map.rename slots).run s.run).1.2, ((s.map.rename slots).run s.run).2⟩

def outs (s : Stage) : List (List Term) → List (List Term)
  | [] => []
  | slots :: rest => s.out slots :: (s.after slots).outs rest

def visit (s : Stage) (t : Term) : Stage := s.after [t]

/-- What a repetition of `v` would be renamed to. -/
def duplicate (s : Stage) (v : Var) : Var := v.extend (s.run.supply.suffix .random)

-- ---------------------------------------------------------------------------
-- Calls and slots
-- ---------------------------------------------------------------------------

theorem rename_append (m : Equalities) (ts us : List Term) :
    m.rename (ts ++ us) = (do
      let (first, m) ← m.rename ts
      let (rest, m) ← m.rename us
      return (first ++ rest, m)) := by
  induction ts generalizing m with
  | nil => simp [Equalities.rename]
  | cons t ts ih =>
    cases ht : t.var? with
    | none => simp [Equalities.rename_cons_of_none _ ht, ih]
    | some v => simp [Equalities.rename_cons_of_some _ ht, ih]

theorem after_append (s : Stage) (ts us : List Term) :
    s.after (ts ++ us) = (s.after ts).after us := by
  rw [after, rename_append]
  rfl

theorem out_append (s : Stage) (ts us : List Term) :
    s.out (ts ++ us) = s.out ts ++ (s.after ts).out us := by
  rw [out, rename_append]
  rfl

theorem after_eq_foldl (s : Stage) (slots : List Term) : s.after slots = slots.foldl visit s := by
  induction slots generalizing s with
  | nil => rfl
  | cons t ts ih => exact (s.after_append [t] ts).trans (ih _)

theorem foldl_after (s : Stage) (calls : List (List Term)) :
    calls.foldl after s = s.after calls.flatten := by
  induction calls generalizing s with
  | nil => rfl
  | cons slots rest ih => rw [List.foldl_cons, ih, List.flatten_cons, after_append]

theorem flatten_outs (s : Stage) (calls : List (List Term)) :
    (s.outs calls).flatten = s.out calls.flatten := by
  induction calls generalizing s with
  | nil => rfl
  | cons slots rest ih => rw [outs, List.flatten_cons, ih, List.flatten_cons, out_append]

/-- What a visit can do: leave a constant alone, open a group, append a fresh
duplicate to one, or repeat the last name of one. -/
inductive Visit (s : Stage) (t : Term) : Term → Stage → Prop
  | constant : t.var? = none → Visit s t t s
  | opened {v} : t.var? = some v → s.map.duplicates.get? v = none →
      Visit s t (.var v) ⟨s.map.insert v [], s.run⟩
  | repeated {v ds} : t.var? = some v → s.map.duplicates.get? v = some ds →
      v.category.isGroundable = true →
      Visit s t (.var (s.duplicate v)) ⟨s.map.insert v (ds ++ [s.duplicate v]),
        s.run.supply.advance .random, s.run.log ++ [.renamed v (s.duplicate v)]⟩
  | kept {v ds} : t.var? = some v → s.map.duplicates.get? v = some ds →
      v.category.isGroundable = false → Visit s t (.var (ds.getLast?.getD v)) s

theorem visit_spec (s : Stage) (t : Term) : ∃ u, s.out [t] = [u] ∧ Visit s t u (s.visit t) := by
  unfold visit out after
  cases ht : t.var? with
  | none =>
    rw [Equalities.rename_cons_of_none [] ht]
    exact ⟨t, rfl, .constant ht⟩
  | some v =>
    rw [Equalities.rename_cons_of_some [] ht]
    cases hv : s.map.duplicates.get? v with
    | none =>
      rw [Equalities.record_first hv]
      exact ⟨.var v, rfl, .opened ht hv⟩
    | some ds =>
      cases hg : v.category.isGroundable with
      | false =>
        rw [Equalities.record_ungrounding hv hg]
        exact ⟨.var (ds.getLast?.getD v), rfl, .kept ht hv hg⟩
      | true =>
        refine ⟨.var (s.duplicate v), ?_⟩
        simp only [Run.run_bind, Equalities.record_groundable hv hg]
        exact ⟨rfl, .repeated ht hv hg⟩

theorem out_cons (s : Stage) (t : Term) (ts : List Term) :
    ∃ u, s.out (t :: ts) = u :: (s.visit t).out ts ∧ Visit s t u (s.visit t) := by
  obtain ⟨u, hu, h⟩ := s.visit_spec t
  refine ⟨u, ?_, h⟩
  rw [← List.singleton_append, out_append, hu]
  rfl

theorem length_out (s : Stage) (slots : List Term) : (s.out slots).length = slots.length := by
  induction slots generalizing s with
  | nil => rfl
  | cons t ts ih =>
    obtain ⟨u, hout, -⟩ := s.out_cons t ts
    rw [hout, List.length_cons, List.length_cons, ih]

theorem length_outs (s : Stage) (calls : List (List Term)) :
    (s.outs calls).map List.length = calls.map List.length := by
  induction calls generalizing s with
  | nil => rfl
  | cons slots rest ih => simp [outs, length_out, ih]

theorem after_cons (s : Stage) (t : Term) (ts : List Term) :
    s.after (t :: ts) = (s.visit t).after ts :=
  s.after_append [t] ts

theorem Visit.grows {s next : Stage} {t u : Term} (h : Visit s t u next) :
    s.map.Grows next.map := by
  cases h with
  | constant | kept => exact .refl _
  | opened _ hv => exact Equalities.grows_open hv
  | repeated _ hv _ => exact Equalities.grows_append hv _

theorem grows_visit (s : Stage) (t : Term) : s.map.Grows (s.visit t).map := by
  obtain ⟨u, -, h⟩ := s.visit_spec t
  exact h.grows

theorem grows_after (s : Stage) (slots : List Term) : s.map.Grows (s.after slots).map := by
  induction slots generalizing s with
  | nil => exact .refl _
  | cons t ts ih => exact s.after_cons t ts ▸ (s.grows_visit t).trans (ih _)

theorem grows_calls (s : Stage) (calls : List (List Term)) :
    s.map.Grows (calls.foldl after s).map := by
  rw [foldl_after]
  exact s.grows_after _

end Stage

end QueryVars
