import QueryVars.Proofs.CanonicalTerms
import QueryVars.Proofs.Freshness

/-!
# Raw and canonical spellings of slots

Renaming looks at the variable that a slot names and not at how the slot spells it.
So renaming the canonical forms of slots without wildcards is renaming the slots and
putting what comes out into canonical form: the same slots, map, suffixes and events.
-/

namespace QueryVars

namespace Term

theorem var?_respell (t : Term) : t.respell.var? = t.var? := by
  cases hshape : t.shape with
  | node items =>
    obtain ⟨ts, rfl, -⟩ := seq_of_node hshape
    rw [respell]
    rfl
  | leaf =>
    rw [respell_of_leaf hshape]
    cases hv : t.var? with
    | none => exact hv
    | some v => rfl

theorem wildcardCount_var (v : Var) : (Term.var v).wildcardCount = 0 := by
  simp [wildcardCount, leaves, isWildcard_of_var? (var?_var v)]

end Term

namespace Equalities

def respellSlots (result : List Term × Equalities) : List Term × Equalities :=
  (result.1.map Term.respell, result.2)

theorem rename_respell (m : Equalities) (ts : List Term) :
    m.rename (ts.map Term.respell) = respellSlots <$> m.rename ts := by
  induction ts generalizing m with
  | nil => rfl
  | cons t ts ih =>
    have hvar := t.var?_respell
    cases hv : t.var? with
    | none =>
      rw [List.map_cons, rename_cons_of_none _ (hvar.trans hv), rename_cons_of_none _ hv, ih]
      rfl
    | some v =>
      rw [List.map_cons, rename_cons_of_some _ (hvar.trans hv), rename_cons_of_some _ hv]
      simp only [ih]
      rfl

theorem rename_sanitize (m : Equalities) (g : Generator) {ts : List Term}
    (h : ∀ t ∈ ts, t.wildcardCount = 0) :
    (do
      let (out, n) ← m.rename ts
      return (← Term.sanitizeAll g out, n)) = respellSlots <$> m.rename ts := by
  induction ts generalizing m with
  | nil => rfl
  | cons t ts ih =>
    obtain ⟨hfirst, hrest⟩ := List.forall_mem_cons.1 h
    -- The slot in front is respelled and the others follow as they would alone.
    have hcons : ∀ (u : Term) (n : Equalities), u.wildcardCount = 0 →
        (do
          let (rest, k) ← n.rename ts
          return (← Term.sanitizeAll g (u :: rest), k)) =
          (fun e => (u.respell :: e.1, e.2)) <$> respellSlots <$> n.rename ts := by
      intro u n hu
      rw [← ih n hrest]
      simp only [Term.sanitizeAll, Term.sanitize_eq_respell g u hu]
      rfl
    cases hv : t.var? with
    | none =>
      rw [rename_cons_of_none _ hv]
      exact hcons t m hfirst
    | some v =>
      rw [rename_cons_of_some _ hv]
      have hslot := fun e : Var × Equalities => hcons (.var e.1) e.2 (Term.wildcardCount_var e.1)
      exact congrArg (m.record v >>= ·) (funext hslot)

def named (result : List Term × Equalities) : List (Option Var) × Equalities :=
  (result.1.map Term.var?, result.2)

theorem named_respellSlots (result : List Term × Equalities) :
    named (respellSlots result) = named result := by
  simp [named, respellSlots, Term.var?_respell, Function.comp_def]

/-- As actions on a run the two orders are one, so they end with the same slots, map,
suffixes and log. Hence it does not matter to a renaming in which spelling its slots
come: every slot names the same variable afterwards. -/
theorem rename_commutes_with_sanitize (m : Equalities) (g : Generator) (ts : List Term)
    (h : ∀ t ∈ ts, t.wildcardCount = 0) :
    (do
      let us ← Term.sanitizeAll g ts
      m.rename us) =
      (do
        let (out, n) ← m.rename ts
        return (← Term.sanitizeAll g out, n)) ∧
    named <$> (do
      let us ← Term.sanitizeAll g ts
      m.rename us) = named <$> m.rename ts := by
  have hfirst : (do
      let us ← Term.sanitizeAll g ts
      m.rename us) = respellSlots <$> m.rename ts := by
    rw [Term.sanitizeAll_eq_respellAll g ts h, pure_bind, Term.respellAll_eq, rename_respell]
  refine ⟨hfirst.trans (rename_sanitize m g h).symm, ?_⟩
  rw [hfirst, Functor.map_map]
  simp only [named_respellSlots]

def sampleSlots : List Term :=
  [.symbol "?a", .seq [.str "?a", .symbol "f"], .var ⟨"?c", .joinCapable, by decide⟩, .str "?c",
    .literal (.int 3), .symbol "!!x"]

theorem rename_commutes_with_sanitize_nested :
    (∀ t ∈ sampleSlots, t.wildcardCount = 0) ∧
    (do
      let us ← Term.sanitizeAll (.ofCategory .optional) sampleSlots
      sampleMap.rename us) =
      (do
        let (out, n) ← sampleMap.rename sampleSlots
        return (← Term.sanitizeAll (.ofCategory .optional) out, n)) ∧
    named <$> (do
      let us ← Term.sanitizeAll (.ofCategory .optional) sampleSlots
      sampleMap.rename us) = named <$> sampleMap.rename sampleSlots :=
  have h : ∀ t ∈ sampleSlots, t.wildcardCount = 0 := by decide
  ⟨h, rename_commutes_with_sanitize sampleMap (.ofCategory .optional) sampleSlots h⟩

end Equalities

end QueryVars
