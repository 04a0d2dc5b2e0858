import QueryVars.Proofs.Draws
import QueryVars.Proofs.Grounding
import QueryVars.Proofs.Occurrences

/-!
# Logs

What is done in a run can be read off its log. A pair is logged for every slot that is
renamed, and those pairs are what the groups of the map have grown by; a predicate that
is sanitized is logged with what its wildcards have become; branches that are
intersected are logged with the size of the result. Whatever else happens is silent.
-/

namespace QueryVars

-- ---------------------------------------------------------------------------
-- Renaming
-- ---------------------------------------------------------------------------

def loggedFor (v : Var) (logged : List (Var × Var)) : List Var :=
  (logged.filter fun e => e.1 = v).map Prod.snd

theorem loggedFor_append (v : Var) (logged more : List (Var × Var)) :
    loggedFor v (logged ++ more) = loggedFor v logged ++ loggedFor v more := by
  simp [loggedFor]

namespace Stage

variable {s middle next : Stage} {t u : Term} {logged more : List (Var × Var)}

/-- These pairs were logged between two stages, and they are all that the recorded
duplicates have grown by. -/
structure Accounts (s : Stage) (logged : List (Var × Var)) (next : Stage) : Prop where
  log : next.run.log = s.run.log ++ logged.map fun e => .renamed e.1 e.2
  groups : ∀ v, next.map.duplicatesOf v = s.map.duplicatesOf v ++ loggedFor v logged
  pairs : next.map.pairs.Perm (s.map.pairs ++ logged)

namespace Accounts

theorem silent (hrun : next.run = s.run)
    (hgroups : ∀ v, next.map.duplicatesOf v = s.map.duplicatesOf v)
    (hpairs : next.map.pairs.Perm s.map.pairs) : s.Accounts [] next where
  log := by rw [hrun, List.map_nil, List.append_nil]
  groups v := by rw [hgroups v, loggedFor, List.filter_nil, List.map_nil, List.append_nil]
  pairs := by rwa [List.append_nil]

theorem refl (s : Stage) : s.Accounts [] s := .silent rfl (fun _ => rfl) (.refl _)

theorem trans (h : s.Accounts logged middle) (h' : middle.Accounts more next) :
    s.Accounts (logged ++ more) next where
  log := by rw [h'.log, h.log, List.map_append, List.append_assoc]
  groups v := by rw [h'.groups, h.groups, loggedFor_append, List.append_assoc]
  pairs := by
    rw [← List.append_assoc]
    exact h'.pairs.trans (h.pairs.append_right more)

end Accounts

theorem Visit.accounts (h : Visit s t u next) : s.Accounts (t.renaming? u).toList next := by
  cases h with
  | constant ht =>
    rw [Term.renaming?_of_none ht]
    exact .refl s
  | opened ht hv =>
    rw [Term.renaming?_same ht]
    exact .silent rfl (Equalities.duplicatesOf_open hv) (Equalities.pairs_open hv)
  | @repeated v ds ht hv hg =>
    rw [duplicate, Term.renaming?_extend ht hg]
    refine ⟨rfl, fun w => ?_, ?_⟩
    · rw [Equalities.duplicatesOf_append hv]
      by_cases hw : w = v
      · simp [loggedFor, hw]
      · simp [loggedFor, hw, Ne.symm hw]
    · exact (Equalities.pairs_append hv _).trans (List.perm_append_singleton _ _).symm
  | kept ht _ hg =>
    rw [Term.renaming?_ungrounding ht hg]
    exact .refl s

theorem after_accounts (s : Stage) (slots : List Term) :
    s.Accounts (renamings (slots.zip (s.out slots))) (s.after slots) := by
  induction slots generalizing s with
  | nil => exact .refl s
  | cons t ts ih =>
    obtain ⟨u, hout, hv⟩ := s.out_cons t ts
    rw [hout, List.zip_cons_cons, after_cons, renamings_cons]
    exact hv.accounts.trans (ih (s.visit t))

end Stage

-- ---------------------------------------------------------------------------
-- Sanitizing
-- ---------------------------------------------------------------------------

theorem Strategy.log_suffixes (strategy : Strategy) (n : Nat) (r : Run) :
    ((strategy.suffixes n).run r).2.log = r.log := by
  induction n generalizing r with
  | zero => rfl
  | succ n ih => exact ih _

namespace Term

variable {u : Term}

/-- To sanitize a term is to draw for its wildcards, and draws are not logged. -/
theorem log_sanitize (g : Generator) (t : Term) (r : Run) :
    ((t.sanitize g).run r).2.log = r.log := by
  rw [(t.sanitize_fills g r).1, Strategy.log_suffixes]

theorem log_sanitizePredicate (t : Term) (naming : Naming) (r : Run) :
    ((t.sanitizePredicate naming).run r).2.log =
      r.log ++ [.sanitized t.wildcardCategory naming.config.baseName] :=
  congrArg (· ++ [_]) (t.log_sanitize ⟨t.wildcardCategory, naming⟩ r)

theorem exists_suffix_of_filling (g : Generator) (t : Term) (r : Run) {w : Var}
    (hw : w ∈ t.fillings ((t.sanitize g).run r).1) : ∃ suffix, g.name suffix = w := by
  rw [fillings, (t.sanitize_fills g r).2.fillings] at hw
  obtain ⟨suffix, -, hsuffix⟩ := List.mem_map.1 hw
  exact ⟨suffix, hsuffix⟩

end Term

theorem Config.config_of_naming {config : Config} {naming : Naming}
    (h : config.naming = .ok naming) : naming.config = config := by
  unfold Config.naming at h
  split at h <;> cases h
  rfl

/-- Of every run: renaming appends to the log, in slot order, one pair for each slot
that repeats a groundable variable, with the name that came out there. The pairs of a
variable are what its group has grown by, and all of them together are what the map
has. A predicate that is sanitized appends one event, with the category and the base
name that its wildcards have got; to sanitize a term alone appends none. To intersect
branches appends one event if there is a branch and no two disagree, with the number
of branches and the size of what is returned; otherwise the run stays as it was. -/
theorem log_tells_what_happened :
    (∀ (s : Stage) (slots : List Term),
      let pairs := slots.zip (s.out slots)
      let next := s.after slots
      let logged := renamings pairs
      next.run.log = s.run.log ++ logged.map (fun e => .renamed e.1 e.2) ∧
      renamedSlots s.map.heads pairs = logged.map (fun e => (e.1, .var e.2)) ∧
      (∀ v, next.map.duplicatesOf v = s.map.duplicatesOf v ++ loggedFor v logged) ∧
      next.map.pairs.Perm (s.map.pairs ++ logged)) ∧
    (∀ (t : Term) (config : Config) (naming : Naming) (r : Run), config.naming = .ok naming →
      let (u, next) := (t.sanitizePredicate naming).run r
      next.log = r.log ++ [.sanitized t.wildcardCategory config.baseName] ∧
      (t.fillings u).map Var.category = List.replicate t.wildcardCount t.wildcardCategory ∧
      ∀ w ∈ t.fillings u, ∃ suffix : Suffix,
        w.name = t.wildcardCategory.marker ++ (config.baseName ++ suffix.text)) ∧
    (∀ (g : Generator) (t : Term) (r : Run), ((t.sanitize g).run r).2.log = r.log) ∧
    ∀ (branches : List Drift) (r : Run),
      let (result, next) := (Drift.reconcile branches).run r
      result = Drift.intersect branches ∧
      (∀ d, branches ≠ [] → result = .ok d →
        next.log = r.log ++ [.intersected branches.length d.size]) ∧
      (branches = [] ∨ (∃ fault, result = .error fault) → next = r) := by
  refine ⟨?_, ?_, Term.log_sanitize, ?_⟩
  · intro s slots pairs next logged
    have h := s.after_accounts slots
    exact ⟨h.log, s.renamedSlots_out (fun _ => Iff.rfl) slots, h.groups, h.pairs⟩
  · intro t config naming r hnaming
    obtain rfl := Config.config_of_naming hnaming
    refine ⟨t.log_sanitizePredicate naming r, Term.category_fillings _ t r, fun w hw => ?_⟩
    obtain ⟨suffix, rfl⟩ := Term.exists_suffix_of_filling ⟨t.wildcardCategory, naming⟩ t r hw
    exact ⟨suffix, rfl⟩
  · intro branches r
    have hresult := Drift.reconcile_result branches r
    cases hrun : (Drift.reconcile branches).run r with
    | mk result next =>
      rw [hrun] at hresult
      refine ⟨hresult, fun d hne hd => ?_, ?_⟩
      · rw [Drift.reconcile_ok hne (hresult.symm.trans hd)] at hrun
        cases hrun
        rfl
      · rintro (rfl | ⟨fault, hfault⟩)
        · cases hrun
          rfl
        · rw [Drift.reconcile_error (hresult.symm.trans hfault)] at hrun
          cases hrun
          rfl

/-- First occurrences and a repeated ungrounding variable leave no event. -/
example :
    let s : Stage := ⟨.empty, Run.start fun _ => "a"⟩
    (s.after [.symbol "?x", .symbol "!!u", .str "?x", .symbol "!!u"]).run.log =
      [.renamed ⟨"?x", .joinCapable, by decide⟩ ⟨"?x__a", .joinCapable, by decide⟩] := by
  decide +kernel

end QueryVars
