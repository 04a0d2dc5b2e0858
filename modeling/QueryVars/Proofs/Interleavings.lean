import QueryVars.Proofs.Draws
import QueryVars.Proofs.Traces

/-!
# Interleavings

Maps that share a supply do not depend on each other otherwise. However the calls
on them are interleaved, and whatever was drawn before, each map ends with the
same groups: only the suffixes in them are exchanged for others, one for one.
-/

namespace QueryVars

-- ---------------------------------------------------------------------------
-- Two maps side by side
-- ---------------------------------------------------------------------------

namespace Equalities

variable {m n m' n' : Equalities} {t u u' : Term} {v w : Var} {k : Nat}

/-- The same heads, and for each of them groups of the same length. -/
def Alike (m n : Equalities) : Prop :=
  ∀ v, (m.group? v).map List.length = (n.group? v).map List.length

/-- One slot came out as `u` and as `u'`: as it is, or as the names at one index
of the groups of its variable. -/
inductive Counterpart (m n : Equalities) (t : Term) : Term → Term → Prop
  | constant : t.var? = none → Counterpart m n t t t
  | named {v k w w'} : t.var? = some v → m.nameAt? v k = some w → n.nameAt? v k = some w' →
      Counterpart m n t (.var w) (.var w')

theorem nameAt?_succ (h : m.nameAt? v (k + 1) = some w) : (m.duplicatesOf v)[k]? = some w := by
  obtain ⟨ds, hds, hk⟩ := nameAt?_succ_iff.1 h
  rw [duplicatesOf, hds]
  exact hk

theorem nameAt?_insert (hw : m.nameAt? v k = some w) {head : Var} {ds : List Var}
    (hds : m.duplicatesOf head <+: ds) : (m.insert head ds).nameAt? v k = some w := by
  unfold nameAt?
  rw [group?_insert]
  split
  next hv =>
    subst hv
    cases k with
    | zero => rw [nameAt?_zero hw]; rfl
    | succ k =>
      obtain ⟨hlt, hget⟩ := List.getElem?_eq_some_iff.1 (nameAt?_succ hw)
      exact (List.prefix_iff_getElem?.1 hds k hlt).trans (congrArg some hget)
  next => exact hw

theorem length_duplicatesOf (m : Equalities) (v : Var) :
    (m.duplicatesOf v).length = ((m.group? v).map List.length).getD 1 - 1 := by
  unfold duplicatesOf group?
  cases m.duplicates.get? v <;> rfl

theorem Alike.heads (h : m.Alike n) : m.heads = n.heads := by
  refine SortedMap.keys_congr fun v => ?_
  have hv := congrArg Option.isSome (h v)
  simp only [group?, Option.isSome_map] at hv
  rw [SortedMap.mem_keys_iff, SortedMap.mem_keys_iff, SortedMap.contains, SortedMap.contains, hv]

end Equalities

def Var.grow (v : Var) : Option Nat → Nat
  | none => 1
  | some k => if v.category.isGroundable then k + 1 else k

namespace Stage

open Equalities (Alike Counterpart)

variable {s s' next next' : Stage} {t u u' : Term} {v w : Var} {k : Nat}

theorem Visit.nameAt? (h : Visit s t u next) (hw : s.map.nameAt? v k = some w) :
    next.map.nameAt? v k = some w := by
  cases h with
  | constant | kept => exact hw
  | opened _ hv => exact Equalities.nameAt?_insert hw (by simp [Equalities.duplicatesOf, hv])
  | repeated _ hv _ => exact Equalities.nameAt?_insert hw (by simp [Equalities.duplicatesOf, hv])

theorem Visit.last (h : Visit s t u next) (ht : t.var? = some v) :
    ∃ group w, next.map.group? v = some group ∧ group.getLast? = some w ∧ u = .var w ∧
      group.length = v.grow ((s.map.group? v).map List.length) := by
  cases h with
  | constant hc => simp [ht] at hc
  | opened ht' hv =>
    obtain rfl := Option.some.inj (ht.symm.trans ht')
    refine ⟨[v], v, ?_, rfl, rfl, ?_⟩
    · rw [Equalities.group?_insert, if_pos rfl]
    · simp [Equalities.group?, hv, Var.grow]
  | @repeated _ ds ht' hv hg =>
    obtain rfl := Option.some.inj (ht.symm.trans ht')
    refine ⟨v :: (ds ++ [s.duplicate v]), s.duplicate v, ?_, ?_, rfl, ?_⟩
    · rw [Equalities.group?_insert, if_pos rfl]
    · rw [← List.cons_append, List.getLast?_concat]
    · simp [Equalities.group?, hv, Var.grow, hg]
  | @kept _ ds ht' hv hg =>
    obtain rfl := Option.some.inj (ht.symm.trans ht')
    refine ⟨v :: ds, ds.getLast?.getD v, ?_, List.getLast?_cons, rfl, ?_⟩
    · rw [Equalities.group?, hv, Option.map_some]
    · simp [Equalities.group?, hv, Var.grow, hg]

theorem Visit.alike (h : Visit s t u next) (h' : Visit s' t u' next') (ha : s.map.Alike s'.map) :
    next.map.Alike next'.map ∧ Counterpart next.map next'.map t u u' := by
  constructor
  · intro v
    by_cases ht : t.var? = some v
    · obtain ⟨group, -, hgroup, -, -, hlen⟩ := h.last ht
      obtain ⟨group', -, hgroup', -, -, hlen'⟩ := h'.last ht
      rw [hgroup, hgroup', Option.map_some, Option.map_some, hlen, hlen', ha v]
    · simp only [Equalities.group?, h.get?_of_ne ht, h'.get?_of_ne ht]
      exact ha v
  · cases ht : t.var? with
    | none =>
      obtain rfl := h.eq_of_constant ht
      obtain rfl := h'.eq_of_constant ht
      exact .constant ht
    | some v =>
      obtain ⟨group, w, hgroup, hw, rfl, hlen⟩ := h.last ht
      obtain ⟨group', w', hgroup', hw', rfl, hlen'⟩ := h'.last ht
      -- Groups of one length have their last names at one index.
      have hsame : group'.length = group.length := by rw [hlen, hlen', ha v]
      rw [List.getLast?_eq_getElem?] at hw hw'
      rw [hsame] at hw'
      refine .named (k := group.length - 1) ht ?_ ?_
      · rw [Equalities.nameAt?, hgroup, Option.bind_some, hw]
      · rw [Equalities.nameAt?, hgroup', Option.bind_some, hw']

end Stage

namespace Equalities.Trace

variable {m n m' n' : Equalities} {slots slots' : List (Term × Term)} {v w : Var} {k : Nat}

theorem nameAt? (h : Trace m slots n) (hw : m.nameAt? v k = some w) : n.nameAt? v k = some w := by
  induction h with
  | nil => exact hw
  | cons hv _ ih => exact ih (hv.nameAt? hw)

theorem counterpart {t u u' : Term} (h : Trace m slots n)
    (h' : Trace m' slots' n') (hc : Counterpart m m' t u u') : Counterpart n n' t u u' := by
  cases hc with
  | constant ht => exact .constant ht
  | named ht hw hw' => exact .named ht (h.nameAt? hw) (h'.nameAt? hw')

theorem alike (h : Trace m slots n) (h' : Trace m' slots' n') (ha : m.Alike m')
    (hslots : slots.map Prod.fst = slots'.map Prod.fst) :
    n.Alike n' ∧
      List.Forall₂ (fun e e' => e.1 = e'.1 ∧ Counterpart n n' e.1 e.2 e'.2) slots slots' := by
  induction h generalizing m' slots' with
  | nil =>
    obtain rfl : slots' = [] := List.map_eq_nil_iff.1 hslots.symm
    cases h'
    exact ⟨ha, .nil⟩
  | cons hv h ih =>
    cases h' with
    | nil => cases hslots
    | cons hv' h' =>
      obtain ⟨rfl, hrest⟩ := List.cons.inj hslots
      obtain ⟨hnext, hc⟩ := hv.alike hv' ha
      obtain ⟨hfinal, hall⟩ := ih h' hnext hrest
      exact ⟨hfinal, .cons ⟨rfl, h.counterpart h' hc⟩ hall⟩

end Equalities.Trace

-- ---------------------------------------------------------------------------
-- Exchanging suffixes
-- ---------------------------------------------------------------------------

/-- From `m`, the one run made `n` and the other `n'`: every duplicate that is
new ends in one of the suffixes `drawn`, for which the other has its exchange. -/
def Equalities.Exchanged (σ : Suffix → Suffix) (drawn : Set Suffix) (m n n' : Equalities) : Prop :=
  ∀ v, ∃ ss : List Suffix, (∀ x ∈ ss, x ∈ drawn) ∧
    n.duplicatesOf v = m.duplicatesOf v ++ ss.map v.extend ∧
    n'.duplicatesOf v = m.duplicatesOf v ++ (ss.map σ).map v.extend

inductive Term.Exchanged (σ : Suffix → Suffix) (drawn : Set Suffix) : Term → Term → Prop
  | same {u} : Exchanged σ drawn u u
  | suffix {v : Var} {x} : x ∈ drawn → Exchanged σ drawn (.var (v.extend x)) (.var (v.extend (σ x)))

theorem Equalities.Counterpart.exchanged {σ : Suffix → Suffix} {drawn : Set Suffix}
    {m n n' : Equalities} {t u u' : Term} (hc : Counterpart n n' t u u')
    (h : m.Exchanged σ drawn n n') : u.Exchanged σ drawn u' := by
  cases hc with
  | constant => exact .same
  | @named v k w w' _ hw hw' =>
    cases k with
    | zero =>
      obtain rfl := nameAt?_zero hw
      obtain rfl := nameAt?_zero hw'
      exact .same
    | succ k =>
      obtain ⟨ss, hdrawn, hn, hn'⟩ := h v
      have hk := nameAt?_succ hw
      have hk' := nameAt?_succ hw'
      rw [hn] at hk
      rw [hn'] at hk'
      by_cases hold : k < (m.duplicatesOf v).length
      · rw [List.getElem?_append_left hold] at hk hk'
        obtain rfl := Option.some.inj (hk.symm.trans hk')
        exact .same
      · have hold : (m.duplicatesOf v).length ≤ k := Nat.le_of_not_lt hold
        rw [List.getElem?_append_right hold, List.getElem?_map] at hk hk'
        obtain ⟨x, hx, rfl⟩ := Option.map_eq_some_iff.1 hk
        rw [List.getElem?_map, hx] at hk'
        obtain rfl := Option.some.inj hk'
        exact .suffix (hdrawn x (List.mem_of_getElem? hx))

-- ---------------------------------------------------------------------------
-- Two interleavings
-- ---------------------------------------------------------------------------

namespace Fork

variable {n : Nat} {calls calls' : List (Fin n × List Term)}

def callsOn (i : Fin n) (calls : List (Fin n × List Term)) : List (List Term) :=
  (calls.filter fun c => c.1 = i).map Prod.snd

def rewritten (f : Fork n) (i : Fin n) : List (Fin n × List Term) → List (Term × Term)
  | [] => []
  | c :: rest =>
    (if c.1 = i then c.2.zip ((f.stage c.1).out c.2) else []) ++ (f.call c).rewritten i rest

theorem rewritten_slots (f : Fork n) (i : Fin n) (calls : List (Fin n × List Term)) :
    (f.rewritten i calls).map Prod.fst = (callsOn i calls).flatten := by
  induction calls generalizing f with
  | nil => rfl
  | cons c rest ih =>
    rw [rewritten, List.map_append, ih]
    by_cases hi : c.1 = i
    · have hlen : c.2.length ≤ ((f.stage c.1).out c.2).length := (Stage.length_out _ _).ge
      simp [callsOn, hi, List.map_fst_zip (hi ▸ hlen)]
    · simp [callsOn, hi]

theorem trace (f : Fork n) (i : Fin n) (calls : List (Fin n × List Term)) :
    Equalities.Trace (f.maps i) (f.rewritten i calls) ((calls.foldl call f).maps i) := by
  induction calls generalizing f with
  | nil => exact .nil
  | cons c rest ih =>
    refine Equalities.Trace.append ?_ (ih (f.call c))
    split
    next hi =>
      subst hi
      rw [maps_call_self]
      exact (f.stage c.1).trace c.2
    next hi =>
      rw [maps_call_of_ne f (Ne.symm hi)]
      exact .nil

/-- The runs of `f` and `f'` begin with the same maps, but they may have different
supplies, and what was drawn from these before is of no account. -/
theorem interleavings_agree {f f' : Fork n} (hmaps : f'.maps = f.maps)
    (hcalls : ∀ i, callsOn i calls = callsOn i calls') :
    let last := calls.foldl call f
    let last' := calls'.foldl call f'
    (∀ i, (last.maps i).heads = (last'.maps i).heads ∧ (last.maps i).Alike (last'.maps i) ∧
      List.Forall₂ (fun e e' => e.1 = e'.1 ∧
        Equalities.Counterpart (last.maps i) (last'.maps i) e.1 e.2 e'.2)
        (f.rewritten i calls) (f'.rewritten i calls')) ∧
    (f.run.supply.Distinct last.run.supply → f'.run.supply.Distinct last'.run.supply →
      ∃ σ : Suffix → Suffix, let drawn := f.run.supply.issuedUntil last.run.supply
        Set.BijOn σ drawn (f'.run.supply.issuedUntil last'.run.supply) ∧
        ∀ i, (f.maps i).Exchanged σ drawn (last.maps i) (last'.maps i) ∧
          List.Forall₂ (fun e e' => e.2.Exchanged σ drawn e'.2)
            (f.rewritten i calls) (f'.rewritten i calls')) := by
  intro last last'
  have halike : ∀ i, (last.maps i).Alike (last'.maps i) ∧
      List.Forall₂ (fun e e' => e.1 = e'.1 ∧
        Equalities.Counterpart (last.maps i) (last'.maps i) e.1 e.2 e'.2)
        (f.rewritten i calls) (f'.rewritten i calls') := by
    intro i
    refine (f.trace i calls).alike (f'.trace i calls') (fun v => by rw [hmaps]) ?_
    rw [rewritten_slots, rewritten_slots, hcalls i]
  refine ⟨fun i => ⟨(halike i).1.heads, halike i⟩, fun hd hd' => ?_⟩
  -- The order of the draws may differ, but not how many there are for a variable.
  obtain ⟨p, hp⟩ := f.draws_calls calls
  obtain ⟨q, hq⟩ := f'.draws_calls calls'
  have hlen : ∀ a : Fin n × Var, (drawnFor p a).length = (drawnFor q a).length := by
    rintro ⟨i, v⟩
    have hsame : ((last.maps i).duplicatesOf v).length = ((last'.maps i).duplicatesOf v).length := by
      rw [Equalities.length_duplicatesOf, (halike i).1 v, Equalities.length_duplicatesOf]
    rw [hp.maps, hq.maps, hmaps, List.length_append, List.length_append, List.length_map,
      List.length_map] at hsame
    exact Nat.add_left_cancel hsame
  obtain ⟨σ, hσ, hmap⟩ := exists_exchange (hp.issues.nodup hd) (hq.issues.nodup hd') hlen
  have hdrawn : {x | x ∈ p.map Prod.snd} = f.run.supply.issuedUntil last.run.supply :=
    Set.ext fun x => hp.issues.mem_iff
  have hdrawn' : {x | x ∈ q.map Prod.snd} = f'.run.supply.issuedUntil last'.run.supply :=
    Set.ext fun x => hq.issues.mem_iff
  rw [hdrawn, hdrawn'] at hσ
  have hexchanged : ∀ i, (f.maps i).Exchanged σ (f.run.supply.issuedUntil last.run.supply)
      (last.maps i) (last'.maps i) := by
    intro i v
    refine ⟨drawnFor p (i, v), fun x hx => ?_, hp.maps i v, ?_⟩
    · exact hdrawn ▸ (drawnFor_sublist p (i, v)).subset hx
    · rw [← hmap, ← hmaps]
      exact hq.maps i v
  refine ⟨σ, hσ, fun i => ⟨hexchanged i, ?_⟩⟩
  exact (halike i).2.imp fun _ _ he => he.2.exchanged (hexchanged i)

/-- The same calls without interleaving: all those on one map, then all those on
the next. -/
def oneByOne (calls : List (Fin n × List Term)) : List (Fin n × List Term) :=
  (List.finRange n).flatMap fun i => (callsOn i calls).map (Prod.mk i)

theorem interleavings_agree_one_by_one :
    let f := copies 2 sampleMap ⟨⟨0, 0, numberedBodies⟩, []⟩
    let f' := copies 2 sampleMap ⟨⟨3, 5, numberedBodies⟩, []⟩
    ∃ last last', sampleTurns.foldl call f = last ∧ (oneByOne sampleTurns).foldl call f' = last' ∧
      f'.maps = f.maps ∧ (∀ i, callsOn i sampleTurns = callsOn i (oneByOne sampleTurns)) ∧
      f.run.supply.Distinct last.run.supply ∧ f'.run.supply.Distinct last'.run.supply ∧
      (last.maps 1).recorded.map Var.name = ["?b", "?a__#1"] ∧
      (last'.maps 1).recorded.map Var.name = ["?b", "?a__#7"] ∧
      (∀ i, (last.maps i).Alike (last'.maps i)) ∧
      ∃ σ, Set.BijOn σ (f.run.supply.issuedUntil last.run.supply)
          (f'.run.supply.issuedUntil last'.run.supply) ∧
        ∀ i, (f.maps i).Exchanged σ (f.run.supply.issuedUntil last.run.supply) (last.maps i)
          (last'.maps i) := by
  intro f f'
  have hmaps : f'.maps = f.maps := rfl
  have hcalls : ∀ i, callsOn i sampleTurns = callsOn i (oneByOne sampleTurns) := by
    intro i
    match i with
    | 0 => rfl
    | 1 => rfl
  have hagree := interleavings_agree hmaps hcalls
  generalize hlast : sampleTurns.foldl call f = last at hagree
  generalize hlast' : (oneByOne sampleTurns).foldl call f' = last' at hagree
  have hd : f.run.supply.Distinct last.run.supply := (Supply.reliable_numbered 0 0 _).distinct
  have hd' : f'.run.supply.Distinct last'.run.supply := (Supply.reliable_numbered 3 5 _).distinct
  obtain ⟨halike, hexchange⟩ := hagree
  obtain ⟨σ, hσ, hall⟩ := hexchange hd hd'
  refine ⟨last, last', rfl, rfl, hmaps, hcalls, hd, hd', ?_, ?_, fun i => (halike i).2.1, σ, hσ,
    fun i => (hall i).1⟩
  · rw [← hlast]
    decide +kernel
  · rw [← hlast']
    decide +kernel

end Fork

end QueryVars
