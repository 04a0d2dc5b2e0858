import QueryVars.Proofs.Shapes

/-!
# Canonical terms

A term is canonical if none of its leaves is the wildcard or a raw token that names
a variable. Sanitizing is the projection onto these terms: whatever it returns is
canonical, and what is canonical it returns as it is, for any generator and at the
price of no suffix. As long as there is no wildcard, sanitizing is respelling.
-/

namespace QueryVars

theorem TokenKind.of_eq_constant_iff {text : String} :
    of text = .constant ↔ ¬(text = QueryVars.wildcard ∨ ∃ v : Var, v.name = text) := by
  rw [Var.exists_name_iff]
  unfold of
  split
  next h => simp [h]
  next h => cases Category.of? text <;> simp [h]

namespace Term

variable {g : Generator} {t : Term} {ts us ls : List Term} {suffixes : List Suffix}

/-- A symbol or a string that is the wildcard or names a variable. -/
def Raw (t : Term) : Prop :=
  ∃ text, (t = .symbol text ∨ t = .str text) ∧ (text = wildcard ∨ ∃ v : Var, v.name = text)

def Canonical (t : Term) : Prop := ∀ leaf ∈ t.leaves, ¬leaf.Raw

theorem not_raw_iff : ¬t.Raw ↔ t.kind = .constant ∨ ∃ v, t = .var v := by
  cases t with
  | seq | literal => simp [Raw, kind, text?, TokenKind.ofText?]
  | var v => simp [Raw]
  | symbol text | str text =>
    simp [Raw, kind, text?, TokenKind.ofText?, TokenKind.of_eq_constant_iff]

-- ---------------------------------------------------------------------------
-- What sanitizing returns
-- ---------------------------------------------------------------------------

theorem Fills.not_raw (h : Fills g ls suffixes us) : ∀ u ∈ us, ¬u.Raw := by
  induction h with
  | nil => simp
  | wildcard _ _ ih | named _ _ ih =>
    exact List.forall_mem_cons.2 ⟨not_raw_iff.2 (.inr ⟨_, rfl⟩), ih⟩
  | constant hc _ ih => exact List.forall_mem_cons.2 ⟨not_raw_iff.2 (.inl hc), ih⟩

theorem canonical_sanitize (g : Generator) (t : Term) (r : Run) :
    ((t.sanitize g).run r).1.Canonical :=
  (t.sanitize_fills g r).2.not_raw

-- ---------------------------------------------------------------------------
-- Respelling
-- ---------------------------------------------------------------------------

mutual
def respell : Term → Term
  | .seq items => .seq (respellAll items)
  | t => (t.var?.map .var).getD t
def respellAll : List Term → List Term
  | [] => []
  | t :: ts => respell t :: respellAll ts
end

theorem respellAll_eq (ts : List Term) : respellAll ts = ts.map respell := by
  induction ts with
  | nil => rfl
  | cons t ts ih => simp [respellAll, ih]

theorem respell_of_leaf (h : t.shape = .leaf) : t.respell = (t.var?.map .var).getD t := by
  cases t with
  | seq items => simp [shape] at h
  | symbol | str | var | literal => simp [respell]

theorem sanitize_of_leaf (h : t.shape = .leaf) : t.sanitize g = t.canonical g := by
  rcases t.seq_or_token with ⟨items, rfl⟩ | ⟨-, htoken⟩
  · simp [shape] at h
  · exact htoken g

theorem wildcardCount_seq_eq_zero {items : List Term} (h : (seq items).wildcardCount = 0) :
    ∀ t ∈ items, t.wildcardCount = 0 := by
  rw [wildcardCount, leaves, leavesAll_eq, List.countP_flatMap, List.sum_eq_zero_iff_forall_eq_nat] at h
  exact List.forall_mem_map.1 h

theorem sanitize_leaf_eq_respell (hleaf : t.shape = .leaf) (h : t.wildcardCount = 0) :
    t.sanitize g = pure t.respell := by
  have hw : t.isWildcard = false := by simpa [wildcardCount, leaves_of_leaf hleaf] using h
  rw [sanitize_of_leaf hleaf, canonical_other hw, respell_of_leaf hleaf]

mutual
theorem sanitize_eq_respell (g : Generator) (t : Term) (h : t.wildcardCount = 0) :
    t.sanitize g = pure t.respell := by
  cases t with
  | seq items =>
    rw [sanitize, sanitizeAll_eq_respellAll g items (wildcardCount_seq_eq_zero h), map_pure, respell]
  | symbol | str | var | literal => exact sanitize_leaf_eq_respell rfl h
theorem sanitizeAll_eq_respellAll (g : Generator) (ts : List Term)
    (h : ∀ t ∈ ts, t.wildcardCount = 0) : sanitizeAll g ts = pure (respellAll ts) := by
  cases ts with
  | nil => rfl
  | cons t ts =>
    obtain ⟨hfirst, hrest⟩ := List.forall_mem_cons.1 h
    rw [sanitizeAll, sanitize_eq_respell g t hfirst, sanitizeAll_eq_respellAll g ts hrest]
    rfl
end

example : respell (.seq [.symbol "f", .seq [.str "?x", .literal .null], .symbol "_"]) =
    .seq [.symbol "f", .seq [.var ⟨"?x", .joinCapable, by decide⟩, .literal .null], .symbol "_"] :=
  rfl

-- ---------------------------------------------------------------------------
-- Sanitizing again
-- ---------------------------------------------------------------------------

theorem Canonical.wildcardCount_eq_zero (h : t.Canonical) : t.wildcardCount = 0 := by
  refine List.countP_eq_zero.2 fun leaf hleaf => ?_
  rcases not_raw_iff.1 (h leaf hleaf) with hc | ⟨v, rfl⟩
  · simp [isWildcard_of_constant hc]
  · simp [isWildcard_of_var? (var?_var v)]

theorem respell_of_not_raw (hleaf : t.shape = .leaf) (h : ¬t.Raw) : t.respell = t := by
  rw [respell_of_leaf hleaf]
  rcases not_raw_iff.1 h with hc | ⟨v, rfl⟩
  · rw [var?_of_constant hc]
    rfl
  · rfl

mutual
theorem respell_of_canonical (t : Term) (h : t.Canonical) : t.respell = t := by
  cases t with
  | seq items =>
    rw [Canonical, leaves] at h
    rw [respell, respellAll_of_canonical items h]
  | symbol | str | var | literal =>
    exact respell_of_not_raw rfl (h _ (by rw [leaves_of_leaf rfl]; exact List.mem_singleton_self _))
theorem respellAll_of_canonical (ts : List Term) (h : ∀ leaf ∈ leavesAll ts, ¬leaf.Raw) :
    respellAll ts = ts := by
  cases ts with
  | nil => rfl
  | cons t ts =>
    obtain ⟨hfirst, hrest⟩ := List.forall_mem_append.1 h
    rw [respellAll, respell_of_canonical t hfirst, respellAll_of_canonical ts hrest]
end

/-- However it is sanitized again, the term is returned as it is, no suffix is drawn,
and nothing is logged but the event of a whole predicate. -/
structure Settled (t : Term) : Prop where
  sanitize : ∀ g, t.sanitize g = pure t
  sanitizePredicate : ∀ naming, t.sanitizePredicate naming = do
    Run.emit (.sanitized t.wildcardCategory naming.config.baseName)
    return t

theorem Canonical.settled (h : t.Canonical) : Settled t := by
  have hsanitize : ∀ g, t.sanitize g = pure t := by
    intro g
    rw [sanitize_eq_respell g t h.wildcardCount_eq_zero, respell_of_canonical t h]
  refine ⟨hsanitize, fun naming => ?_⟩
  rw [sanitizePredicate, hsanitize, pure_bind]

theorem Settled.run_eq (h : Settled t) (g : Generator) (r : Run) :
    ((t.sanitize g).run r).1 = t := by
  rw [h.sanitize g, Run.run_pure]

/-- Both for a generator of the caller and for a whole predicate under any naming:
sanitizing leaves nothing to do for another time, and it returns a term unchanged if
and only if that term is canonical. -/
theorem sanitize_projects (g : Generator) (naming : Naming) (t : Term) (r : Run) :
    let out := ((t.sanitize g).run r).1
    let prepared := ((t.sanitizePredicate naming).run r).1
    Settled out ∧ (out = t ↔ t.Canonical) ∧ Settled prepared ∧ (prepared = t ↔ t.Canonical) := by
  intro out prepared
  have hfixed : ∀ g, ((t.sanitize g).run r).1 = t ↔ t.Canonical := fun g =>
    ⟨fun h => h ▸ canonical_sanitize g t r, fun h => h.settled.run_eq g r⟩
  let g' : Generator := ⟨t.wildcardCategory, naming⟩
  have hprepared : prepared = ((t.sanitize g').run r).1 := rfl
  rw [hprepared]
  exact ⟨(canonical_sanitize g t r).settled, hfixed g, (canonical_sanitize g' t r).settled,
    hfixed g'⟩

end Term

end QueryVars
