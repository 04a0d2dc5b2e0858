import QueryVars.Proofs.Fillings

/-!
# Shape and leaves

A term is made up of its shape, which is how its sequences are nested, and of its
leaves in reading order. Sanitizing keeps the shape and rewrites the leaves: each
wildcard takes the next suffix, a leaf that names a variable becomes that variable,
and a constant stays. This fixes the result, and with it the variables that it has:
those of the term, in their order, among the generated ones.
-/

namespace QueryVars.Term

variable {g : Generator} {r : Run} {t u : Term} {ts us ls : List Term} {suffixes : List Suffix}

inductive Shape
  | leaf
  | node (items : List Shape)

mutual
def shape : Term → Shape
  | .seq items => .node (shapes items)
  | .symbol _ | .str _ | .var _ | .literal _ => .leaf
def shapes : List Term → List Shape
  | [] => []
  | t :: ts => shape t :: shapes ts
end

theorem leaves_of_leaf (h : t.shape = .leaf) : t.leaves = [t] := by
  rcases t.seq_or_token with ⟨items, rfl⟩ | ⟨hleaf, -⟩
  · simp [shape] at h
  · exact hleaf

theorem seq_of_node {items : List Shape} (h : t.shape = .node items) :
    ∃ ts, t = .seq ts ∧ shapes ts = items := by
  cases t with
  | seq ts => exact ⟨ts, rfl, by simpa [shape] using h⟩
  | symbol | str | var | literal => simp [shape] at h

mutual
theorem length_leaves_of_shape (t u : Term) (h : u.shape = t.shape) :
    u.leaves.length = t.leaves.length := by
  cases t with
  | seq ts =>
    rw [shape] at h
    obtain ⟨us, rfl, hitems⟩ := seq_of_node h
    rw [leaves, leaves]
    exact length_leavesAll_of_shapes ts us hitems
  | symbol | str | var | literal =>
    rw [shape] at h
    simp [leaves_of_leaf h, leaves]
theorem length_leavesAll_of_shapes (ts us : List Term) (h : shapes us = shapes ts) :
    (leavesAll us).length = (leavesAll ts).length := by
  cases ts with
  | nil =>
    cases us with
    | nil => rfl
    | cons => simp [shapes] at h
  | cons t ts =>
    cases us with
    | nil => simp [shapes] at h
    | cons u us =>
      obtain ⟨hfirst, hrest⟩ := List.cons.inj h
      rw [leavesAll, leavesAll, List.length_append, List.length_append,
        length_leaves_of_shape t u hfirst, length_leavesAll_of_shapes ts us hrest]
end

mutual
theorem eq_of_leaves (t u : Term) (hs : u.shape = t.shape) (hl : u.leaves = t.leaves) : u = t := by
  cases t with
  | seq ts =>
    rw [shape] at hs
    obtain ⟨us, rfl, hitems⟩ := seq_of_node hs
    rw [leaves, leaves] at hl
    rw [eq_of_leavesAll ts us hitems hl]
  | symbol | str | var | literal =>
    rw [shape] at hs
    simpa [leaves_of_leaf hs, leaves] using hl
theorem eq_of_leavesAll (ts us : List Term) (hs : shapes us = shapes ts)
    (hl : leavesAll us = leavesAll ts) : us = ts := by
  cases ts with
  | nil =>
    cases us with
    | nil => rfl
    | cons => simp [shapes] at hs
  | cons t ts =>
    cases us with
    | nil => simp [shapes] at hs
    | cons u us =>
      obtain ⟨hfirst, hrest⟩ := List.cons.inj hs
      rw [leavesAll, leavesAll] at hl
      obtain ⟨hlfirst, hlrest⟩ := List.append_inj hl (length_leaves_of_shape t u hfirst)
      rw [eq_of_leaves t u hfirst hlfirst, eq_of_leavesAll ts us hrest hlrest]
end

-- ---------------------------------------------------------------------------
-- The shape is kept
-- ---------------------------------------------------------------------------

theorem shape_canonical (g : Generator) (r : Run) (h : t.shape = .leaf) :
    ((t.canonical g).run r).1.shape = .leaf := by
  cases hw : t.isWildcard with
  | true =>
    rw [canonical_wildcard hw, Run.run_map]
    rfl
  | false =>
    rw [canonical_other hw, Run.run_pure]
    cases t.var? with
    | none => exact h
    | some v => rfl

mutual
theorem shape_sanitize (g : Generator) (t : Term) (r : Run) :
    ((t.sanitize g).run r).1.shape = t.shape := by
  cases t with
  | seq items =>
    rw [sanitize, Run.run_map, shape, shape, shapes_sanitizeAll g items r]
  | symbol | str | var | literal =>
    rw [sanitize]
    · exact shape_canonical g r rfl
    · simp
theorem shapes_sanitizeAll (g : Generator) (ts : List Term) (r : Run) :
    shapes ((sanitizeAll g ts).run r).1 = shapes ts := by
  cases ts with
  | nil => rfl
  | cons t ts =>
    rw [sanitizeAll, Run.run_bind, Run.run_bind, Run.run_pure, shapes, shapes,
      shape_sanitize g t r, shapes_sanitizeAll g ts]
end

-- ---------------------------------------------------------------------------
-- The leaves are rewritten
-- ---------------------------------------------------------------------------

/-- What stands in `us` where `ls` has its wildcards, in order. -/
def atWildcards (ls us : List Term) : List Term :=
  ((ls.zip us).filter fun e => e.1.isWildcard).map Prod.snd

theorem atWildcards_cons (h : t.isWildcard = true) :
    atWildcards (t :: ls) (u :: us) = u :: atWildcards ls us := by
  simp [atWildcards, h]

theorem atWildcards_cons_of_not (h : t.isWildcard = false) :
    atWildcards (t :: ls) (u :: us) = atWildcards ls us := by
  simp [atWildcards, h]

/-- What is owed to each leaf: a constant stays, a leaf that names a variable becomes
that variable, and the wildcard at `i` among the wildcards becomes the marker, the base
name and the suffix at `i`. -/
structure LeafWise (g : Generator) (ls : List Term) (suffixes : List Suffix) (us : List Term) :
    Prop where
  length : us.length = ls.length
  constant : ∀ e ∈ ls.zip us, e.1.kind = .constant → e.2 = e.1
  named : ∀ e ∈ ls.zip us, ∀ v, e.1.var? = some v → e.2 = .var v
  wildcard : List.Forall₂ (fun s u => ∃ v, u = .var v ∧
    v.name = g.category.marker ++ g.naming.config.baseName ++ s.text ∧ v.category = g.category)
    suffixes (atWildcards ls us)

theorem Fills.leafWise (h : Fills g ls suffixes us) : LeafWise g ls suffixes us := by
  induction h with
  | nil => exact ⟨rfl, by simp, by simp, .nil⟩
  | wildcard hw _ ih =>
    refine ⟨congrArg Nat.succ ih.length, ?_, ?_, ?_⟩
    · refine List.forall_mem_cons.2 ⟨fun hc => ?_, ih.constant⟩
      simp [isWildcard_of_constant hc] at hw
    · refine List.forall_mem_cons.2 ⟨fun v hv => ?_, ih.named⟩
      simp [isWildcard_of_var? hv] at hw
    · rw [atWildcards_cons hw]
      exact .cons ⟨_, rfl, (String.append_assoc ..).symm, rfl⟩ ih.wildcard
  | named hv _ ih =>
    refine ⟨congrArg Nat.succ ih.length, ?_, ?_, ?_⟩
    · refine List.forall_mem_cons.2 ⟨fun hc => ?_, ih.constant⟩
      simp [var?_of_constant hc] at hv
    · refine List.forall_mem_cons.2 ⟨fun w hw => ?_, ih.named⟩
      exact congrArg Term.var (Option.some.inj (hv.symm.trans hw))
    · rw [atWildcards_cons_of_not (isWildcard_of_var? hv)]
      exact ih.wildcard
  | constant hc _ ih =>
    refine ⟨congrArg Nat.succ ih.length, ?_, ?_, ?_⟩
    · exact List.forall_mem_cons.2 ⟨fun _ => rfl, ih.constant⟩
    · refine List.forall_mem_cons.2 ⟨fun v hv => ?_, ih.named⟩
      simp [var?_of_constant hc] at hv
    · rw [atWildcards_cons_of_not (isWildcard_of_constant hc)]
      exact ih.wildcard

theorem LeafWise.tail {t u : Term} (h : LeafWise g (t :: ls) suffixes (u :: us))
    (hw : t.isWildcard = false) : LeafWise g ls suffixes us where
  length := Nat.succ.inj h.length
  constant := (List.forall_mem_cons.1 h.constant).2
  named := (List.forall_mem_cons.1 h.named).2
  wildcard := by
    rw [← atWildcards_cons_of_not hw]
    exact h.wildcard

theorem LeafWise.fills (h : LeafWise g ls suffixes us) : Fills g ls suffixes us := by
  induction ls generalizing suffixes us with
  | nil =>
    obtain rfl := List.length_eq_zero_iff.1 h.length
    cases h.wildcard
    exact .nil
  | cons t ls ih =>
    obtain ⟨u, us, rfl⟩ := List.exists_cons_of_length_eq_add_one h.length
    rcases t.kind_cases with ⟨hk, -⟩ | ⟨v, -, hv⟩ | ⟨hc, -⟩
    · have hw := isWildcard_iff.2 hk
      have hrow := h.wildcard
      rw [atWildcards_cons hw] at hrow
      cases hrow with
      | @cons s _ suffixes _ hmade hrest =>
        obtain ⟨v, rfl, hname, -⟩ := hmade
        obtain rfl : v = g.name s := Var.ext (hname.trans (String.append_assoc ..))
        refine .wildcard hw (ih ⟨Nat.succ.inj h.length, ?_, ?_, hrest⟩)
        · exact (List.forall_mem_cons.1 h.constant).2
        · exact (List.forall_mem_cons.1 h.named).2
    · obtain rfl : u = .var v := (List.forall_mem_cons.1 h.named).1 v hv
      exact .named hv (ih (h.tail (isWildcard_of_var? hv)))
    · obtain rfl : u = t := (List.forall_mem_cons.1 h.constant).1 hc
      exact .constant hc (ih (h.tail (isWildcard_of_constant hc)))

theorem Fills.unique {vs : List Term} (h : Fills g ls suffixes us) (h' : Fills g ls suffixes vs) :
    us = vs := by
  induction h generalizing vs with
  | nil =>
    cases h'
    rfl
  | wildcard hw _ ih =>
    cases h' with
    | wildcard _ h' => rw [ih h']
    | named hv => simp [isWildcard_of_var? hv] at hw
    | constant hc => simp [isWildcard_of_constant hc] at hw
  | named hv _ ih =>
    cases h' with
    | wildcard hw => simp [isWildcard_of_var? hv] at hw
    | named hv' h' => rw [ih h', Option.some.inj (hv.symm.trans hv')]
    | constant hc => simp [var?_of_constant hc] at hv
  | constant hc _ ih =>
    cases h' with
    | wildcard hw => simp [isWildcard_of_constant hc] at hw
    | named hv => simp [var?_of_constant hc] at hv
    | constant _ h' => rw [ih h']

-- ---------------------------------------------------------------------------
-- The variables
-- ---------------------------------------------------------------------------

namespace Fills

theorem vars_sublist (h : Fills g ls suffixes us) :
    (ls.filterMap var?).Sublist (us.filterMap var?) := by
  induction h with
  | nil => exact .slnil
  | wildcard hw _ ih => simpa [List.filterMap_cons, var?_of_wildcard hw] using ih.cons _
  | named hv _ ih => simpa [List.filterMap_cons, hv] using ih
  | constant hc _ ih => simpa [List.filterMap_cons, var?_of_constant hc] using ih

theorem vars_perm (h : Fills g ls suffixes us) :
    (us.filterMap var?).Perm (suffixes.map g.name ++ ls.filterMap var?) := by
  induction h with
  | nil => exact .refl _
  | wildcard hw _ ih => simpa [List.filterMap_cons, var?_of_wildcard hw] using ih
  | named hv _ ih =>
    simpa [List.filterMap_cons, hv] using (ih.cons _).trans List.perm_middle.symm
  | constant hc _ ih => simpa [List.filterMap_cons, var?_of_constant hc] using ih

/-- A name that was generated and also stood in the term is taken out of both. -/
theorem vars_filter (h : Fills g ls suffixes us) {generated : List Var}
    (hs : suffixes.map g.name ⊆ generated) :
    (us.filterMap var?).filter (· ∉ generated) = (ls.filterMap var?).filter (· ∉ generated) := by
  induction h with
  | nil => rfl
  | wildcard hw _ ih =>
    obtain ⟨hfirst, hrest⟩ := List.cons_subset.1 hs
    simpa [List.filterMap_cons, var?_of_wildcard hw, hfirst] using ih hrest
  | named hv _ ih =>
    simp only [List.filterMap_cons, hv, var?_var, List.filter_cons, ih hs]
  | constant hc _ ih => simpa [List.filterMap_cons, var?_of_constant hc] using ih hs

end Fills

/-- Sanitizing draws one suffix for each wildcard. What it returns is the one term of
the same shape with these leaves; it has the variables of the term, in their order,
and the generated ones. -/
theorem sanitize_effect (g : Generator) (t : Term) (r : Run) :
    let out := ((t.sanitize g).run r).1
    let drawing := (g.naming.config.strategy.suffixes t.wildcardCount).run r
    let generated := drawing.1.map g.name
    drawing.1.length = t.wildcardCount ∧ ((t.sanitize g).run r).2 = drawing.2 ∧
    (∀ u, u.shape = t.shape ∧ LeafWise g t.leaves drawing.1 u.leaves ↔ u = out) ∧
    t.vars.Sublist out.vars ∧ out.vars.Perm (generated ++ t.vars) ∧
    out.vars.filter (· ∉ generated) = t.vars.filter (· ∉ generated) := by
  intro out drawing generated
  obtain ⟨hnext, hfill⟩ := t.sanitize_fills g r
  have hshape : out.shape = t.shape := shape_sanitize g t r
  refine ⟨Strategy.length_suffixes _ _ r, hnext, ?_, hfill.vars_sublist, hfill.vars_perm,
    hfill.vars_filter (List.Subset.refl _)⟩
  intro u
  constructor
  · rintro ⟨hu, hleaves⟩
    exact eq_of_leaves out u (hu.trans hshape.symm) (hleaves.fills.unique hfill)
  · rintro rfl
    exact ⟨hshape, hfill.leafWise⟩

end QueryVars.Term
