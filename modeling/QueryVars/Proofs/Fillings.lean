import QueryVars.Proofs.Suffixes
import QueryVars.Term.Sanitize

/-!
# What wildcards come out as

Sanitizing visits the leaves of a term in reading order and keeps its shape, so
the variable that stands in for a wildcard is found at the same leaf of the
result. Each one is drawn for: the fillings of a term are generated names, one
suffix to a wildcard.
-/

namespace QueryVars

/-- Text alone decides between the wildcard, a variable and a constant. -/
theorem Term.kind_cases (t : Term) :
    (t.kind = .wildcard ∧ t.var? = none) ∨ (∃ v, t.kind = .var v.category ∧ t.var? = some v) ∨
      (t.kind = .constant ∧ t.var? = none) := by
  have htext : ∀ text, (TokenKind.of text = .wildcard ∧ Var.ofText? text = none) ∨
      (∃ v, TokenKind.of text = .var v.category ∧ Var.ofText? text = some v) ∨
        (TokenKind.of text = .constant ∧ Var.ofText? text = none) := by
    intro text
    cases hv : Var.ofText? text with
    | some v =>
      obtain rfl := Var.ofText?_eq_some_iff.1 hv
      exact .inr (.inl ⟨v, v.kind_eq, rfl⟩)
    | none =>
      have hc := Var.ofText?_eq_none_iff.1 hv
      by_cases hw : text = wildcard
      · exact .inl ⟨by simp [TokenKind.of, hw], rfl⟩
      · exact .inr (.inr ⟨by simp [TokenKind.of, hw, hc], rfl⟩)
  cases t with
  | seq | literal => exact .inr (.inr ⟨rfl, rfl⟩)
  | symbol text | str text => exact htext text
  | var v => exact .inr (.inl ⟨v, v.kind_eq, rfl⟩)

namespace Term

variable {g : Generator} {r : Run} {t u : Term} {ts us : List Term} {v : Var}

def isWildcard (t : Term) : Bool := t.kind.isWildcard

theorem isWildcard_iff : t.isWildcard = true ↔ t.kind = .wildcard := by
  simp [isWildcard, TokenKind.isWildcard]

def filling (t u : Term) : Option Var := if t.isWildcard then u.var? else none

/-- The variables that stand in `out` where `t` has wildcards, in reading order. -/
def fillings (t out : Term) : List Var :=
  (t.leaves.zip out.leaves).filterMap fun e => filling e.1 e.2

def wildcardCount (t : Term) : Nat := t.leaves.countP isWildcard

theorem var?_of_wildcard (h : t.isWildcard = true) : t.var? = none := by
  rcases t.kind_cases with ⟨-, hv⟩ | ⟨v, hk, -⟩ | ⟨-, hv⟩
  · exact hv
  · simp [isWildcard_iff, hk] at h
  · exact hv

theorem var?_of_constant (h : t.kind = .constant) : t.var? = none := by
  rcases t.kind_cases with ⟨-, hv⟩ | ⟨v, hk, -⟩ | ⟨-, hv⟩
  · exact hv
  · simp [hk] at h
  · exact hv

theorem isWildcard_of_var? (h : t.var? = some v) : t.isWildcard = false := by
  cases hw : t.isWildcard with
  | false => rfl
  | true => simp [var?_of_wildcard hw] at h

theorem isWildcard_of_constant (h : t.kind = .constant) : t.isWildcard = false := by
  simp [isWildcard, h, TokenKind.isWildcard]

theorem filling_wildcard (h : t.isWildcard = true) (u : Term) : filling t u = u.var? := by
  simp [filling, h]

theorem filling_other (h : t.isWildcard = false) (u : Term) : filling t u = none := by
  simp [filling, h]

-- ---------------------------------------------------------------------------
-- One token
-- ---------------------------------------------------------------------------

theorem canonical_wildcard (h : t.isWildcard = true) : t.canonical g = .var <$> g.fresh := by
  simp [canonical, isWildcard_iff.1 h]

theorem canonical_other (h : t.isWildcard = false) :
    t.canonical g = pure ((t.var?.map .var).getD t) := by
  rcases t.kind_cases with ⟨hk, -⟩ | ⟨v, hk, -⟩ | ⟨hk, hv⟩
  · simp [isWildcard_iff.2 hk] at h
  · simp [canonical, hk]
  · simp [canonical, hk, hv]

theorem leaves_canonical (g : Generator) (t : Term) (h : t.leaves = [t]) :
    leaves <$> t.canonical g = (fun u => [u]) <$> t.canonical g := by
  cases hw : t.isWildcard with
  | true =>
    rw [canonical_wildcard hw, Functor.map_map, Functor.map_map]
    rfl
  | false =>
    rw [canonical_other hw, map_pure, map_pure]
    cases t.var? with
    | none => exact congrArg pure h
    | some v => rfl

-- ---------------------------------------------------------------------------
-- The leaves of a term
-- ---------------------------------------------------------------------------

mutual
theorem leaves_sanitize (g : Generator) (t : Term) :
    leaves <$> t.sanitize g = t.leaves.mapM (canonical g) := by
  cases t with
  | seq items =>
    rw [sanitize, leaves, Functor.map_map]
    exact leavesAll_sanitizeAll g items
  | symbol text => exact (leaves_canonical g (.symbol text) rfl).trans (by simp [leaves])
  | str text => exact (leaves_canonical g (.str text) rfl).trans (by simp [leaves])
  | var v => exact (leaves_canonical g (.var v) rfl).trans (by simp [leaves])
  | literal value => exact (leaves_canonical g (.literal value) rfl).trans (by simp [leaves])
theorem leavesAll_sanitizeAll (g : Generator) (ts : List Term) :
    leavesAll <$> sanitizeAll g ts = (leavesAll ts).mapM (canonical g) := by
  cases ts with
  | nil => simp [sanitizeAll, leavesAll]
  | cons t ts =>
    rw [leavesAll, List.mapM_append, ← leaves_sanitize g t, ← leavesAll_sanitizeAll g ts]
    simp [sanitizeAll, leavesAll]
end

-- ---------------------------------------------------------------------------
-- The fillings
-- ---------------------------------------------------------------------------

/-- Leaves, suffixes, and the leaves in canonical form: the suffixes are handed out
to the wildcards from left to right, and none is left over. -/
inductive Fills (g : Generator) : List Term → List Suffix → List Term → Prop
  | nil : Fills g [] [] []
  | wildcard {t ts s suffixes us} : t.isWildcard = true → Fills g ts suffixes us →
      Fills g (t :: ts) (s :: suffixes) (.var (g.name s) :: us)
  | named {t ts suffixes us v} : t.var? = some v → Fills g ts suffixes us →
      Fills g (t :: ts) suffixes (.var v :: us)
  | constant {t ts suffixes us} : t.kind = .constant → Fills g ts suffixes us →
      Fills g (t :: ts) suffixes (t :: us)

namespace Fills

variable {suffixes : List Suffix}

theorem length_eq (h : Fills g ts suffixes us) : us.length = ts.length := by
  induction h with
  | nil => rfl
  | wildcard _ _ ih | named _ _ ih | constant _ _ ih => exact congrArg Nat.succ ih

theorem fillings (h : Fills g ts suffixes us) :
    ((ts.zip us).filterMap fun e => filling e.1 e.2) = suffixes.map g.name := by
  induction h with
  | nil => rfl
  | wildcard hw _ ih => simp [filling_wildcard hw, var?, ih]
  | named hv _ ih => simp [filling_other (isWildcard_of_var? hv), ih]
  | constant hc _ ih => simp [filling_other (isWildcard_of_constant hc), ih]

end Fills

/-- Sanitizing leaves from left to right draws what drawing alone would, one suffix
for each wildcard, and hands these out. -/
theorem mapM_canonical (g : Generator) (ls : List Term) (r : Run) :
    let drawing := (g.naming.config.strategy.suffixes (ls.countP isWildcard)).run r
    ∃ us, (ls.mapM (canonical g)).run r = (us, drawing.2) ∧ Fills g ls drawing.1 us := by
  induction ls generalizing r with
  | nil => exact ⟨[], rfl, .nil⟩
  | cons t ts ih =>
    cases hw : t.isWildcard with
    | true =>
      obtain ⟨us, hrun, hfill⟩ :=
        ih { r with supply := r.supply.advance g.naming.config.strategy }
      rw [List.countP_cons_of_pos hw, List.mapM_cons, canonical_wildcard hw]
      let first : Term := .var (g.name (r.supply.suffix g.naming.config.strategy))
      refine ⟨first :: us, ?_, .wildcard hw hfill⟩
      exact congrArg (fun out => (first :: out.1, out.2)) hrun
    | false =>
      obtain ⟨us, hrun, hfill⟩ := ih r
      rw [List.countP_cons_of_neg (by simp [hw]), List.mapM_cons, canonical_other hw]
      let first : Term := (t.var?.map .var).getD t
      refine ⟨first :: us, ?_, ?_⟩
      · exact congrArg (fun out => (first :: out.1, out.2)) hrun
      · rcases t.kind_cases with ⟨hk, -⟩ | ⟨v, -, hv⟩ | ⟨hk, hv⟩
        · simp [isWildcard_iff.2 hk] at hw
        · simpa [first, hv] using Fills.named hv hfill
        · simpa [first, hv] using Fills.constant hk hfill

theorem sanitize_fills (g : Generator) (t : Term) (r : Run) :
    let drawing := (g.naming.config.strategy.suffixes t.wildcardCount).run r
    ((t.sanitize g).run r).2 = drawing.2 ∧
      Fills g t.leaves drawing.1 ((t.sanitize g).run r).1.leaves := by
  obtain ⟨us, hrun, hfill⟩ := mapM_canonical g t.leaves r
  rw [← leaves_sanitize, Run.run_map] at hrun
  obtain ⟨rfl, hnext⟩ := Prod.mk.inj hrun
  exact ⟨hnext, hfill⟩

theorem length_leaves_sanitize (g : Generator) (t : Term) (r : Run) :
    ((t.sanitize g).run r).1.leaves.length = t.leaves.length :=
  (t.sanitize_fills g r).2.length_eq

theorem suffixes_generates (g : Generator) (n : Nat) (r : Run) :
    let drawing := (g.naming.config.strategy.suffixes n).run r
    Generates r.supply (List.replicate n g.naming.config.strategy) (drawing.1.map g.name)
      drawing.2.supply := by
  induction n generalizing r with
  | zero => exact .nil
  | succ n ih =>
    let next : Run := { r with supply := r.supply.advance g.naming.config.strategy }
    exact .cons (g.name_endsIn _) (ih next)

theorem sanitize_generates (g : Generator) (t : Term) (r : Run) :
    Generates r.supply (List.replicate t.wildcardCount g.naming.config.strategy)
      (t.fillings ((t.sanitize g).run r).1) ((t.sanitize g).run r).2.supply := by
  obtain ⟨hnext, hfill⟩ := t.sanitize_fills g r
  rw [fillings, hfill.fillings, hnext]
  exact suffixes_generates g _ r

-- ---------------------------------------------------------------------------
-- The items of a sequence
-- ---------------------------------------------------------------------------

def Sanitized (g : Generator) (t u : Term) : Prop := ∃ r, ((t.sanitize g).run r).1 = u

theorem seq_or_token (t : Term) :
    (∃ items, t = .seq items) ∨ t.leaves = [t] ∧ ∀ g, t.sanitize g = t.canonical g := by
  cases t with
  | seq items => exact .inl ⟨items, rfl⟩
  | symbol | str | var | literal => exact .inr ⟨by simp [leaves], fun g => by simp [sanitize]⟩

theorem Sanitized.of_wildcard (h : Sanitized g t u) (hw : t.isWildcard = true) :
    t.leaves = [t] ∧ ∃ w, u = .var w := by
  obtain ⟨r, rfl⟩ := h
  rcases t.seq_or_token with ⟨items, rfl⟩ | ⟨hleaf, hsan⟩
  · cases hw
  · rw [hsan, canonical_wildcard hw]
    exact ⟨hleaf, _, rfl⟩

theorem Sanitized.var?_eq (h : Sanitized g t u) (hw : t.isWildcard = false) : u.var? = t.var? := by
  obtain ⟨r, rfl⟩ := h
  rcases t.seq_or_token with ⟨items, rfl⟩ | ⟨-, hsan⟩
  · rw [sanitize]
    rfl
  · rw [hsan, canonical_other hw]
    change ((t.var?.map .var).getD t).var? = t.var?
    cases hv : t.var? with
    | none => exact hv
    | some v => rfl

theorem Sanitized.length_leaves (h : Sanitized g t u) : u.leaves.length = t.leaves.length := by
  obtain ⟨r, rfl⟩ := h
  exact length_leaves_sanitize g t r

theorem sanitizeAll_sanitized (g : Generator) (ts : List Term) (r : Run) :
    List.Forall₂ (Sanitized g) ts ((sanitizeAll g ts).run r).1 := by
  induction ts generalizing r with
  | nil => exact .nil
  | cons t ts ih => exact .cons ⟨r, rfl⟩ (ih _)

theorem items_fillings (h : List.Forall₂ (Sanitized g) ts us) :
    ((ts.zip us).filterMap fun e => filling e.1 e.2).Sublist (fillings (.seq ts) (.seq us)) := by
  unfold fillings
  rw [leaves, leaves]
  induction h with
  | nil => exact .slnil
  | @cons t u ts us htu _ ih =>
    rw [leavesAll, leavesAll, List.zip_append htu.length_leaves.symm, List.filterMap_append,
      List.zip_cons_cons, List.filterMap_cons]
    cases hw : t.isWildcard with
    | false =>
      rw [filling_other hw]
      exact ih.trans (List.sublist_append_right _ _)
    | true =>
      obtain ⟨hleaf, w, rfl⟩ := htu.of_wildcard hw
      simpa [filling_wildcard hw, hleaf, leaves, List.filterMap_cons] using ih

end Term

end QueryVars
