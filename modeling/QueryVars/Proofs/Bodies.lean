import QueryVars.Proofs.Generation
import QueryVars.Proofs.RenameSound
import QueryVars.Query.Body

/-!
# Query bodies

The predicates of a body are sanitized one by one, each under a naming of its
own, and renamed over one map. The wildcards of a later predicate are filled
after the repetitions of an earlier one, so the names from both passes, and those
of the source, have to be told apart over the whole body.
-/

namespace QueryVars

abbrev Body := List (Term × Naming)

/-- What became of one argument of a predicate. -/
structure Slot where
  written : Term
  sanitized : Term
  renamed : Term

def Slot.filling (e : Slot) : Option Var := Term.filling e.written e.sanitized

namespace Prepared

variable {p : Prepared} {t : Term}

def history (t : Term) (p : Prepared) : List Slot :=
  (t.slots.zip (p.sanitized.slots.zip p.slots)).map fun e => ⟨e.1, e.2.1, e.2.2⟩

structure Matches (t : Term) (p : Prepared) : Prop where
  sanitized : p.sanitized.slots.length = t.slots.length
  renamed : p.slots.length = p.sanitized.slots.length

theorem Matches.renamings (h : p.Matches t) :
    (p.history t).map (fun e => (e.sanitized, e.renamed)) = p.sanitized.slots.zip p.slots := by
  have hlen : (p.sanitized.slots.zip p.slots).length ≤ t.slots.length := by
    rw [List.length_zip, h.renamed, Nat.min_self, h.sanitized]
  rw [history, List.map_map]
  exact List.map_snd_zip hlen

theorem Matches.sanitizings (h : p.Matches t) :
    (p.history t).map (fun e => (e.written, e.sanitized)) = t.slots.zip p.sanitized.slots := by
  have hfst : (p.sanitized.slots.zip p.slots).map Prod.fst = p.sanitized.slots :=
    List.map_fst_zip h.renamed.ge
  rw [history, List.map_map]
  conv_rhs => rw [← hfst, List.zip_map_right]
  rfl

end Prepared

namespace Body

def sources (body : Body) : List Var := body.flatMap fun e => e.1.vars

/-- The variables that stand in for wildcards, also for those that are no
argument. -/
def fillings (body : Body) (out : List Prepared) : List Var :=
  (List.zipWith (fun e p => e.1.fillings p.sanitized) body out).flatten

def slots (body : Body) (out : List Prepared) : List Slot :=
  (List.zipWith (fun e p => p.history e.1) body out).flatten

def countedDraws : Body → Nat
  | [] => 0
  | e :: rest => e.2.config.strategy.countedDraws e.1.wildcardCount + countedDraws rest

theorem sequential_of_countedDraws {body : Body} (h : 0 < body.countedDraws) :
    ∃ e ∈ body, e.2.config.strategy = .sequential := by
  induction body with
  | nil => cases h
  | cons e rest ih =>
    by_cases hs : e.2.config.strategy = .sequential
    · exact ⟨e, List.mem_cons_self, hs⟩
    · rw [countedDraws, Strategy.countedDraws, if_neg hs, Nat.zero_add] at h
      obtain ⟨e', he', hs'⟩ := ih h
      exact ⟨e', List.mem_cons_of_mem _ he', hs'⟩

end Body

namespace Term

variable {g : Generator} {t u : Term} {v : Var}

theorem slots_vars (hu : u ∈ t.slots) (hv : u.var? = some v) : v ∈ t.vars := by
  cases t with
  | seq items =>
    cases items with
    | nil => cases hu
    | cons op items =>
      have hleaf : u ∈ u.leaves := by
        rcases u.seq_or_token with ⟨items, rfl⟩ | ⟨hleaf, -⟩
        · cases hv
        · exact hleaf ▸ List.mem_singleton_self u
      refine List.mem_filterMap.2 ⟨u, ?_, hv⟩
      rw [leaves, leavesAll_eq]
      exact List.mem_flatMap.2 ⟨u, List.mem_cons_of_mem _ hu, hleaf⟩
  | symbol | str | var | literal => cases hu

theorem sanitize_slots (g : Generator) (t : Term) (r : Run) :
    let u := ((t.sanitize g).run r).1
    List.Forall₂ (Sanitized g) t.slots u.slots ∧
      ((t.slots.zip u.slots).filterMap fun e => filling e.1 e.2).Sublist (t.fillings u) := by
  intro u
  cases t with
  | seq items =>
    have hall := sanitizeAll_sanitized g items r
    have hu : u = .seq ((sanitizeAll g items).run r).1 := by
      simp only [u, sanitize]
      rfl
    rw [hu]
    generalize ((sanitizeAll g items).run r).1 = us at hall
    cases hall with
    | nil => exact ⟨.nil, List.nil_sublist _⟩
    | cons hop hrest =>
      refine ⟨hrest, List.Sublist.trans ?_ (items_fillings (.cons hop hrest))⟩
      exact (List.sublist_cons_self _ _).filterMap _
  | symbol | str | var | literal =>
    have hu : u.slots = [] := by
      simp only [u, sanitize]
      cases hw : isWildcard _ with
      | true => rw [canonical_wildcard hw]; rfl
      | false =>
        rw [canonical_other hw]
        cases hv : var? _ <;> rfl
    rw [hu]
    exact ⟨.nil, List.nil_sublist _⟩

theorem sanitizePredicate_spec {naming : Naming} {r next : Run}
    (h : (t.sanitizePredicate naming).run r = (u, next)) :
    List.Forall₂ (Sanitized ⟨t.wildcardCategory, naming⟩) t.slots u.slots ∧
      ((t.slots.zip u.slots).filterMap fun e => filling e.1 e.2).Sublist (t.fillings u) ∧
      Generates r.supply (List.replicate t.wildcardCount naming.config.strategy) (t.fillings u)
        next.supply := by
  let g : Generator := ⟨t.wildcardCategory, naming⟩
  obtain ⟨rfl, rfl⟩ := Prod.mk.inj h
  obtain ⟨hslots, hfill⟩ := t.sanitize_slots g r
  exact ⟨hslots, hfill, t.sanitize_generates g r⟩

end Term

theorem Prepared.matches_of_sanitized {t u : Term} {naming : Naming} {r next : Run}
    (h : (t.sanitizePredicate naming).run r = (u, next)) (m : Equalities) :
    Matches t ⟨u, Stage.out ⟨m, next⟩ u.slots⟩ :=
  ⟨(Term.sanitizePredicate_spec h).1.length_eq.symm, Stage.length_out _ _⟩

-- ---------------------------------------------------------------------------
-- Predicate by predicate
-- ---------------------------------------------------------------------------

/-- A stretch of a body. Each predicate is sanitized first, and its arguments are
renamed in the run that this leads to. -/
inductive Prepares : Stage → Body → List Prepared → Stage → Prop
  | nil {s} : Prepares s [] [] s
  | cons {s t naming u r rest out final} : (t.sanitizePredicate naming).run s.run = (u, r) →
      Prepares (Stage.after ⟨s.map, r⟩ u.slots) rest out final →
      Prepares s ((t, naming) :: rest) (⟨u, Stage.out ⟨s.map, r⟩ u.slots⟩ :: out) final

theorem Equalities.prepareBody_prepares (m : Equalities) (body : Body) (r : Run) :
    let result := (m.prepareBody body).run r
    Prepares ⟨m, r⟩ body result.1.1 ⟨result.1.2, result.2⟩ := by
  induction body generalizing m r with
  | nil => exact .nil
  | cons e rest ih => exact .cons rfl (ih _ _)

namespace Prepares

variable {s final : Stage} {body : Body} {out : List Prepared}

theorem shape (h : Prepares s body out final) :
    List.Forall₂ (fun e p => p.Matches e.1) body out := by
  induction h with
  | nil => exact .nil
  | cons hrun _ ih => exact .cons (Prepared.matches_of_sanitized hrun _) ih

theorem trace (h : Prepares s body out final) :
    Equalities.Trace s.map ((body.slots out).map fun e => (e.sanitized, e.renamed)) final.map := by
  induction h with
  | nil => exact .nil
  | @cons s t naming u r rest out final hrun h ih =>
    have hmatches := Prepared.matches_of_sanitized hrun s.map
    rw [Body.slots, List.zipWith_cons_cons, List.flatten_cons, List.map_append,
      hmatches.renamings]
    exact (Stage.trace ⟨s.map, r⟩ u.slots).append ih

theorem slot (h : Prepares s body out final) :
    ∀ e ∈ body.slots out, (∃ g, Term.Sanitized g e.written e.sanitized) ∧
      ∀ v, e.written.var? = some v → v ∈ body.sources := by
  induction h with
  | nil => intro e he; cases he
  | @cons s t naming u r rest out final hrun h ih =>
    have hmatches := Prepared.matches_of_sanitized hrun s.map
    obtain ⟨-, hslots⟩ := List.forall₂_iff_zip.1 (Term.sanitizePredicate_spec hrun).1
    intro e he
    rw [Body.slots, List.zipWith_cons_cons, List.flatten_cons, List.mem_append] at he
    rw [Body.sources, List.flatMap_cons]
    rcases he with he | he
    · have hpair : (e.written, e.sanitized) ∈ t.slots.zip u.slots := by
        rw [← hmatches.sanitizings]
        exact List.mem_map_of_mem he
      refine ⟨⟨_, hslots hpair⟩, fun v hv => List.mem_append_left _ ?_⟩
      exact Term.slots_vars (List.of_mem_zip hpair).1 hv
    · obtain ⟨hsan, hsource⟩ := ih e he
      exact ⟨hsan, fun v hv => List.mem_append_right _ (hsource v hv)⟩

theorem slot_fillings (h : Prepares s body out final) :
    ((body.slots out).filterMap Slot.filling).Sublist (body.fillings out) := by
  induction h with
  | nil => exact .slnil
  | @cons s t naming u r rest out final hrun h ih =>
    have hmatches := Prepared.matches_of_sanitized hrun s.map
    have hfirst := (Term.sanitizePredicate_spec hrun).2.1
    rw [← hmatches.sanitizings, List.filterMap_map] at hfirst
    rw [Body.slots, Body.fillings, List.zipWith_cons_cons, List.zipWith_cons_cons,
      List.flatten_cons, List.flatten_cons, List.filterMap_append]
    exact hfirst.append ih

theorem generates (h : Prepares s body out final) :
    ∃ drawn names, Generates s.run.supply drawn names final.run.supply ∧
      drawn.count .sequential = body.countedDraws ∧
      (names ++ s.map.recorded).Perm (body.fillings out ++ final.map.recorded) := by
  induction h with
  | nil => exact ⟨[], [], .nil, rfl, .refl _⟩
  | @cons s t naming u r rest out final hrun h ih =>
    obtain ⟨-, -, hfilled⟩ := Term.sanitizePredicate_spec hrun
    obtain ⟨drawn, names, hrenamed, hcount, hperm⟩ := Stage.after_generates ⟨s.map, r⟩ u.slots
    obtain ⟨drawn', names', hrest, hcount', hperm'⟩ := ih
    refine ⟨_, _, hfilled.append (hrenamed.append hrest), ?_, ?_⟩
    · rw [List.count_append, List.count_append, Strategy.count_replicate, hcount, hcount',
        Nat.zero_add]
      rfl
    · rw [Body.fillings, List.zipWith_cons_cons, List.flatten_cons]
      rw [List.perm_iff_count] at hperm hperm' ⊢
      intro v
      have hv := hperm v
      have hv' := hperm' v
      simp only [List.count_append, Body.fillings] at hv hv' ⊢
      omega

end Prepares

-- ---------------------------------------------------------------------------
-- The whole body
-- ---------------------------------------------------------------------------

namespace Body

variable {body : Body} {out : List Prepared} {s final : Stage} {e : Slot} {v w : Var}

structure Sound (body : Body) (out : List Prepared) (m : Equalities) : Prop where
  shape : List.Forall₂ (fun e p => p.Matches e.1) body out
  /-- No two generated names are equal, whatever they were generated for. -/
  generated : (body.fillings out ++ m.recorded).Nodup
  fresh : ∀ v ∈ body.sources, v ∉ body.fillings out ++ m.recorded
  fillings : ((body.slots out).filterMap Slot.filling).Sublist (body.fillings out)
  wildcard : ∀ e ∈ body.slots out, e.written.isWildcard = true →
    ∃ w, e.filling = some w ∧ e.sanitized = .var w ∧ e.renamed = .var w ∧
      m.group? w = some [w] ∧ w ∉ body.sources ∧
      m.drift.get? w = none ∧ ∀ d, m.drift.get? d ≠ some w
  resolved : ∀ e ∈ body.slots out, ∀ v, e.sanitized.var? = some v →
    ∃ w, e.renamed = .var w ∧ m.drift.resolve w = v
  distinct : (body.slots out).Pairwise fun e f =>
    e.sanitized.namesGroundable = true → f.sanitized.namesGroundable = true →
      e.renamed.text? ≠ f.renamed.text?
  constant : ∀ e ∈ body.slots out, e.sanitized.var? = none → e.renamed = e.sanitized

/-- No name of the source looks as if it had been generated from `first` up to
`last`. Where the counter plays no part, a name may well hold a separator. -/
structure Clear (body : Body) (first last : Supply) : Prop where
  random : ∀ v ∈ body.sources, ∀ k < last.issued, first.issued ≤ k → ¬v.EndsIn ⟨first.source k⟩
  counted : (∃ e ∈ body, e.2.config.strategy = .sequential) →
    ∀ v ∈ body.sources, ¬Suffix.separator.toList <:+: v.name.toList

theorem Clear.notMem {first last : Supply} {drawn : List Strategy} {names : List Var}
    (h : body.Clear first last) (hgen : Generates first drawn names last)
    (hcount : drawn.count .sequential = body.countedDraws) (hv : v ∈ body.sources) : v ∉ names := by
  intro hm
  rcases hgen.endsIn hm with ⟨i, hi, he⟩ | ⟨k, hk, hlt, he⟩
  · have hpos : 0 < body.countedDraws := hcount ▸ Nat.zero_lt_of_lt hi
    exact h.counted (sequential_of_countedDraws hpos) v hv he.separator
  · exact h.random v hv k hlt hk he

/-- What an argument names after sanitizing either stood in the source or was
filled in for the argument itself. -/
theorem source_or_filling (h : Prepares s body out final) (he : e ∈ body.slots out)
    (hv : e.sanitized.var? = some v) : v ∈ body.sources ∨ e.filling = some v := by
  obtain ⟨⟨g, hsan⟩, hsource⟩ := h.slot e he
  cases hw : e.written.isWildcard with
  | false => exact .inl (hsource v (hsan.var?_eq hw ▸ hv))
  | true => exact .inr (by simp [Slot.filling, Term.filling, hw, hv])

theorem nodup_names (h : Prepares s body out final) (hs : s.map = .empty)
    (hgen : (body.fillings out ++ final.map.recorded).Nodup)
    (hsource : ∀ v ∈ body.sources, v ∉ body.fillings out ++ final.map.recorded) :
    final.map.names.Nodup := by
  obtain ⟨-, hr, hdisj⟩ := List.nodup_append.1 hgen
  refine Equalities.nodup_names_iff.2 ⟨hr, ?_⟩
  rintro ⟨v, hv, hhead⟩
  rcases h.trace.mem_heads hhead with hold | ⟨_, hm, hvar⟩
  · rw [hs] at hold
    cases hold
  · obtain ⟨e, he, rfl⟩ := List.mem_map.1 hm
    rcases source_or_filling h he hvar with hsrc | hfill
    · exact hsource v hsrc (List.mem_append_right _ hv)
    · have hmem := h.slot_fillings.subset (List.mem_filterMap.2 ⟨e, he, hfill⟩)
      exact hdisj v hmem v hv rfl

theorem filling_alone (h : Prepares s body out final) (hs : s.map = .empty)
    (hgen : (body.fillings out).Nodup) (hsource : ∀ v ∈ body.sources, v ∉ body.fillings out)
    (he : e ∈ body.slots out) (hw : e.filling = some w) (hu : e.sanitized = .var w) :
    e.renamed = .var w ∧ final.map.duplicates.get? w = some [] := by
  have hmem : w ∈ body.fillings out :=
    h.slot_fillings.subset (List.mem_filterMap.2 ⟨e, he, hw⟩)
  -- After sanitizing, only what was filled in with `w` names it.
  have hother : ∀ f ∈ body.slots out, f.filling ≠ some w → f.sanitized.var? ≠ some w := by
    intro f hf hne hvar
    rcases source_or_filling h hf hvar with hsrc | hfill
    · exact hsource w hsrc hmem
    · exact hne hfill
  obtain ⟨before, after, hsplit⟩ := List.append_of_mem he
  have hfillings : ((body.slots out).filterMap Slot.filling).Nodup := h.slot_fillings.nodup hgen
  have htrace := h.trace
  rw [hsplit] at hother hfillings htrace
  rw [List.filterMap_append, List.filterMap_cons, hw] at hfillings
  rw [List.map_append, List.map_cons] at htrace
  obtain ⟨-, hlater, hdisj⟩ := List.nodup_append.1 hfillings
  have hvar : e.sanitized.var? = some w := by rw [hu, Term.var?]
  have hnew : w ∉ s.map.heads := by
    rw [hs]
    exact List.not_mem_nil
  refine htrace.named_once hvar hnew (List.forall_mem_map.2 ?_) (List.forall_mem_map.2 ?_)
  · intro f hf
    refine hother f (List.mem_append_left _ hf) fun hfill => ?_
    exact hdisj w (List.mem_filterMap.2 ⟨f, hf, hfill⟩) w List.mem_cons_self rfl
  · intro f hf
    refine hother f (List.mem_append_right _ (List.mem_cons_of_mem _ hf)) fun hfill => ?_
    exact (List.nodup_cons.1 hlater).1 (List.mem_filterMap.2 ⟨f, hf, hfill⟩)

/-- A wildcard among the arguments gets a name that nothing else has to do with. -/
theorem wildcard_alone (h : Prepares s body out final) (hs : s.map = .empty)
    (hgen : (body.fillings out ++ final.map.recorded).Nodup)
    (hsource : ∀ v ∈ body.sources, v ∉ body.fillings out ++ final.map.recorded)
    (he : e ∈ body.slots out) (hw : e.written.isWildcard = true) :
    ∃ w, e.filling = some w ∧ e.sanitized = .var w ∧ e.renamed = .var w ∧
      final.map.group? w = some [w] ∧ w ∉ body.sources ∧
      final.map.drift.get? w = none ∧ ∀ d, final.map.drift.get? d ≠ some w := by
  obtain ⟨hfillings, hrecorded, hapart⟩ := List.nodup_append.1 hgen
  obtain ⟨⟨g, hsan⟩, -⟩ := h.slot e he
  obtain ⟨-, w, hu⟩ := hsan.of_wildcard hw
  have hfill : e.filling = some w := by simp [Slot.filling, Term.filling, hw, hu, Term.var?]
  have hmem : w ∈ body.fillings out :=
    h.slot_fillings.subset (List.mem_filterMap.2 ⟨e, he, hfill⟩)
  have hclear : ∀ v ∈ body.sources, v ∉ body.fillings out :=
    fun v hv hm => hsource v hv (List.mem_append_left _ hm)
  have hnew : w ∉ final.map.recorded := fun hm => hapart w hmem w hm rfl
  obtain ⟨hrenamed, hgroup⟩ := filling_alone h hs hfillings hclear he hfill hu
  refine ⟨w, hfill, hu, hrenamed, by simp [Equalities.group?, hgroup], ?_, ?_, ?_⟩
  · exact fun hm => hclear w hm hmem
  · exact (Equalities.drift_get?_eq_none_iff hrecorded).2 hnew
  · intro d hd
    have hpair := (Equalities.drift_get?_iff hrecorded).1 hd
    obtain ⟨ds, hds, hd⟩ := (Equalities.mem_pairs_iff _ w d).1 hpair
    obtain rfl := Option.some.inj (hgroup.symm.trans hds)
    cases hd

theorem prepareBody_sound {body : Body} {r : Run}
    (hr : r.supply.Reliable ((Equalities.empty.prepareBody body).run r).2.supply)
    (hclear : body.Clear r.supply ((Equalities.empty.prepareBody body).run r).2.supply)
    (hc : body.countedDraws ≤ UInt64.size) :
    let result := (Equalities.empty.prepareBody body).run r
    body.Sound result.1.1 result.1.2 := by
  intro result
  have h : Prepares ⟨.empty, r⟩ body result.1.1 ⟨result.1.2, result.2⟩ :=
    Equalities.empty.prepareBody_prepares body r
  obtain ⟨drawn, names, hgen, hcount, hperm⟩ := h.generates
  rw [show Equalities.empty.recorded = [] from rfl, List.append_nil] at hperm
  have hgenerated := hperm.nodup_iff.1 (hgen.nodup hr (hcount ▸ hc))
  have hsource : ∀ v ∈ body.sources, v ∉ body.fillings result.1.1 ++ result.1.2.recorded :=
    fun v hv hm => hclear.notMem hgen hcount hv (hperm.mem_iff.2 hm)
  have hnodup : result.1.2.names.Nodup := nodup_names h rfl hgenerated hsource
  refine ⟨h.shape, hgenerated, hsource, h.slot_fillings, ?_, ?_, ?_, ?_⟩
  · exact fun e he hw => wildcard_alone h rfl hgenerated hsource he hw
  · intro e he v hv
    obtain ⟨w, hw, hgrouped⟩ := h.trace.grouped _ (List.mem_map_of_mem he) v hv
    exact ⟨w, hw, hgrouped.resolve hnodup⟩
  · exact List.pairwise_map.1 (h.trace.distinct hnodup)
  · exact fun e he => h.trace.constant _ (List.mem_map_of_mem he)

/-- Wildcards as operator, argument and part of an argument, and variables that
come back in a predicate with another strategy. -/
def sample : Body :=
  let counting : Naming := ⟨⟨"x", .sequential⟩, by decide⟩
  [(.seq [.symbol "p", .symbol "?x", .symbol "_", .str "?x"], .default),
    (.seq [.symbol "q", .symbol "!!z", .symbol "_", .seq [.symbol "_", .symbol "?y"]], counting),
    (.seq [.symbol "_", .str "_", .symbol "?x", .str "!!z", .literal (.int 1)], counting),
    (.symbol "_", .default)]

theorem prepareBody_sound_sample :
    let start := Run.start sampleBodies
    ∃ result, (Equalities.empty.prepareBody sample).run start = result ∧
      start.supply.Reliable result.2.supply ∧ sample.Clear start.supply result.2.supply ∧
      sample.countedDraws ≤ UInt64.size ∧
      result.1.1.map (fun p => p.slots.map Term.text?) =
        [[some "?x", some ("!gen__" ++ sampleBodies 0), some ("?x__" ++ sampleBodies 1)],
          [some "!!z", some "!!x__0", none],
          [some "!!x__3", some ("?x__" ++ sampleBodies 2), some "!!z", none], []] ∧
      sample.Sound result.1.1 result.1.2 := by
  intro start
  have hsound := @prepareBody_sound sample start
  generalize hrun : (Equalities.empty.prepareBody sample).run start = result at hsound
  have hissued : result.2.supply.issued = 4 := by
    rw [← hrun]
    decide +kernel
  have hr : start.supply.Reliable result.2.supply := by
    have hplain : ∀ k < 4, '_' ∉ (sampleBodies k).toList ∧ 20 < (sampleBodies k).length := by
      decide +kernel
    have hdistinct : ∀ k < 4, ∀ i < k, sampleBodies i ≠ sampleBodies k := by decide +kernel
    rw [← hissued] at hplain hdistinct
    exact ⟨fun k _ hk => .of_length (hplain k hk).1 (hplain k hk).2,
      fun i k _ hik hk => hdistinct k hk i hik⟩
  have hclear : sample.Clear start.supply result.2.supply := by
    have hrandom : ∀ v ∈ sample.sources, ∀ k < 4,
        ¬(⟨sampleBodies k⟩ : Suffix).text.toList <:+ v.name.toList := by decide +kernel
    have hcounted : ∀ v ∈ sample.sources, ¬Suffix.separator.toList <:+: v.name.toList := by
      decide +kernel
    rw [← hissued] at hrandom
    exact ⟨fun v hv k hk _ => hrandom v hv k hk, fun _ => hcounted⟩
  have hc : sample.countedDraws ≤ UInt64.size := by decide +kernel
  refine ⟨result, rfl, hr, hclear, hc, ?_, hsound hr hclear hc⟩
  rw [← hrun]
  decide +kernel

end Body

end QueryVars
