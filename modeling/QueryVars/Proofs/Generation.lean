import Mathlib.Data.Multiset.AddSub
import QueryVars.Proofs.Fillings
import QueryVars.Proofs.Stages

/-!
# Generated names never repeat

Names are generated for new variables, for given ones, for the wildcards of a term
and for repeated slots. A run may mix these as it likes, with any base names and
both strategies, and may be handed names that it generated itself. As long as the
random source yields random text and the counter does not come round, no name is
generated twice.
-/

namespace QueryVars

-- ---------------------------------------------------------------------------
-- What renaming generates
-- ---------------------------------------------------------------------------

namespace Stage

variable {s next : Stage} {t u : Term}

theorem Visit.generates (h : Visit s t u next) :
    ∃ drawn names, Generates s.run.supply drawn names next.run.supply ∧
      drawn.count .sequential = 0 ∧ next.map.recorded.Perm (names ++ s.map.recorded) := by
  cases h with
  | constant | kept => exact ⟨[], [], .nil, rfl, .refl _⟩
  | opened _ hv => exact ⟨[], [], .nil, rfl, Equalities.recorded_open hv⟩
  | @repeated v _ _ hv _ =>
    exact ⟨[.random], [s.duplicate v], .one (v.extend_endsIn _), rfl,
      Equalities.recorded_append hv _⟩

theorem after_generates (s : Stage) (slots : List Term) :
    ∃ drawn names, Generates s.run.supply drawn names (s.after slots).run.supply ∧
      drawn.count .sequential = 0 ∧
      (s.after slots).map.recorded.Perm (names ++ s.map.recorded) := by
  induction slots generalizing s with
  | nil => exact ⟨[], [], .nil, rfl, .refl _⟩
  | cons t ts ih =>
    obtain ⟨u, -, hv⟩ := s.visit_spec t
    obtain ⟨drawn, names, hgen, hcount, hperm⟩ := hv.generates
    obtain ⟨drawn', names', hgen', hcount', hperm'⟩ := ih (s.visit t)
    refine ⟨drawn ++ drawn', names ++ names', s.after_cons t ts ▸ hgen.append hgen', ?_, ?_⟩
    · rw [List.count_append, hcount, hcount']
    · rw [after_cons]
      refine hperm'.trans ((hperm.append_left _).trans ?_)
      rw [← List.append_assoc]
      exact List.perm_append_comm.append_right _

end Stage

-- ---------------------------------------------------------------------------
-- Operations
-- ---------------------------------------------------------------------------

/-- An operation that generates names. The variables, terms and maps that it is
handed may stem from anywhere, from earlier operations too. -/
inductive Generation
  | fresh (g : Generator)
  | freshMany (g : Generator) (count : Nat)
  | uniquify (v : Var)
  | uniquifyWith (g : Generator) (v : Var)
  | sanitize (g : Generator) (t : Term)
  | sanitizePredicate (t : Term) (naming : Naming)
  | rename (m : Equalities) (slots : List Term)

namespace Generation

/-- The names that an operation generates: those that it returns, that it leaves
in the place of wildcards or that it puts on record. -/
def perform : Generation → RunM (List Var)
  | .fresh g => do return [← g.fresh]
  | .freshMany g count => g.freshMany count
  | .uniquify v => do return [← v.uniquify .random]
  | .uniquifyWith g v => do return [← g.uniquify v]
  | .sanitize g t => do return t.fillings (← t.sanitize g)
  | .sanitizePredicate t naming => do return t.fillings (← t.sanitizePredicate naming)
  | .rename m slots => do
    let (_, n) ← m.rename slots
    return n.recorded.diff m.recorded

def performAll : List Generation → RunM (List Var)
  | [] => pure []
  | op :: rest => do
    let names ← op.perform
    let more ← performAll rest
    return names ++ more

def countedDraws : Generation → Nat
  | .fresh g | .uniquifyWith g _ => g.naming.config.strategy.countedDraws 1
  | .freshMany g count => g.naming.config.strategy.countedDraws count
  | .sanitize g t => g.naming.config.strategy.countedDraws t.wildcardCount
  | .sanitizePredicate t naming => naming.config.strategy.countedDraws t.wildcardCount
  | .uniquify _ | .rename .. => 0

def totalCounted : List Generation → Nat
  | [] => 0
  | op :: rest => op.countedDraws + totalCounted rest

end Generation

theorem Generator.freshMany_generates (g : Generator) (count : Nat) (r : Run) :
    Generates r.supply (List.replicate count g.naming.config.strategy)
      ((g.freshMany count).run r).1 ((g.freshMany count).run r).2.supply := by
  induction count generalizing r with
  | zero => exact .nil
  | succ n ih =>
    let next : Run := { r with supply := r.supply.advance g.naming.config.strategy }
    exact .cons (g.name_endsIn _) (ih next)

namespace Generation

theorem perform_generates (op : Generation) (r : Run) :
    ∃ drawn names, Generates r.supply drawn names (op.perform.run r).2.supply ∧
      drawn.count .sequential = op.countedDraws ∧ (op.perform.run r).1.Perm names := by
  cases op with
  | fresh g =>
    exact ⟨_, _, .one (g.name_endsIn _), Strategy.count_replicate _ 1, .refl _⟩
  | freshMany g count =>
    exact ⟨_, _, g.freshMany_generates count r, Strategy.count_replicate _ count, .refl _⟩
  | uniquify v => exact ⟨_, _, .one (v.extend_endsIn _), rfl, .refl _⟩
  | uniquifyWith g v =>
    exact ⟨_, _, .one (v.extend_endsIn _), Strategy.count_replicate _ 1, .refl _⟩
  | sanitize g t =>
    exact ⟨_, _, t.sanitize_generates g r, Strategy.count_replicate _ _, .refl _⟩
  | sanitizePredicate t naming =>
    exact ⟨_, _, t.sanitize_generates ⟨t.wildcardCategory, naming⟩ r,
      Strategy.count_replicate _ _, .refl _⟩
  | rename m slots =>
    obtain ⟨drawn, names, hgen, hcount, hperm⟩ := Stage.after_generates ⟨m, r⟩ slots
    refine ⟨drawn, names, hgen, hcount, ?_⟩
    -- Taking away what was on record before leaves just what is new.
    have hnew : ((names ++ m.recorded).diff m.recorded).Perm names := by
      rw [← Multiset.coe_eq_coe, ← Multiset.coe_sub, ← Multiset.coe_add,
        Multiset.add_sub_cancel_right]
    exact (hperm.diff_right m.recorded).trans hnew

theorem performAll_generates (ops : List Generation) (r : Run) :
    ∃ drawn names, Generates r.supply drawn names ((performAll ops).run r).2.supply ∧
      drawn.count .sequential = totalCounted ops ∧
      ((performAll ops).run r).1.Perm names := by
  induction ops generalizing r with
  | nil => exact ⟨[], [], .nil, rfl, .refl _⟩
  | cons op rest ih =>
    obtain ⟨drawn, names, hgen, hcount, hperm⟩ := op.perform_generates r
    obtain ⟨drawn', names', hgen', hcount', hperm'⟩ := ih (op.perform.run r).2
    refine ⟨drawn ++ drawn', names ++ names', hgen.append hgen', ?_, hperm.append hperm'⟩
    rw [List.count_append, hcount, hcount', totalCounted]

/-- Every suffix that is drawn goes to one name, and no two names are equal. -/
theorem generated_names_nodup {ops : List Generation} {r : Run}
    (hr : r.supply.Reliable ((performAll ops).run r).2.supply)
    (hc : totalCounted ops ≤ UInt64.size) :
    let result := (performAll ops).run r
    (result.1.map Var.name).Nodup ∧
      result.1.length =
        totalCounted ops + (result.2.supply.issued - r.supply.issued) := by
  intro result
  obtain ⟨drawn, names, hgen, hcount, hperm⟩ := performAll_generates ops r
  have hnodup : names.Nodup := hgen.nodup hr (hcount ▸ hc)
  refine ⟨?_, ?_⟩
  · exact (hperm.nodup_iff.2 hnodup).map fun v w => Var.ext
  · rw [hperm.length_eq, hgen.length_names, hcount, hgen.issued_eq, Nat.add_sub_cancel_left]

/-- Stems that look like generated names, names that are generated from generated
ones, and both strategies in turn. -/
def sample : List Generation :=
  let counting (base : String) (h : Config.Valid ⟨base, .sequential⟩) : Naming := ⟨_, h⟩
  [.fresh ⟨.joinCapable, counting "a" (by decide)⟩,
    .fresh ⟨.joinCapable, counting "a_" (by decide)⟩,
    .uniquifyWith ⟨.optional, counting "b" (by decide)⟩ ⟨"?a__0", .joinCapable, by decide⟩,
    .freshMany (.ofCategory .optional) 2,
    .uniquify ⟨"!gen__#0", .optional, by decide⟩,
    .sanitizePredicate (.seq [.symbol "p", .symbol "_", .seq [.str "_", .symbol "?x"]])
      (counting "x__1" (by decide)),
    .rename .empty [.symbol "?a__0", .var ⟨"?a__0", .joinCapable, by decide⟩, .str "?a__0"]]

theorem generated_names_nodup_mixed :
    let start := Run.start numberedBodies
    let result := (performAll sample).run start
    start.supply.Reliable result.2.supply ∧ totalCounted sample ≤ UInt64.size ∧
      result.1.map Var.name = ["?a__0", "?a___1", "?a__0__2", "!gen__#0", "!gen__#1",
        "!gen__#0__#2", "!x__1__3", "!x__1__4", "?a__0__#3", "?a__0__#4"] ∧
      (result.1.map Var.name).Nodup := by
  intro start result
  have hr : start.supply.Reliable result.2.supply := Supply.reliable_numbered 0 0 _
  have hc : totalCounted sample ≤ UInt64.size := by decide +kernel
  exact ⟨hr, hc, by decide +kernel, (generated_names_nodup hr hc).1⟩

end Generation

end QueryVars
