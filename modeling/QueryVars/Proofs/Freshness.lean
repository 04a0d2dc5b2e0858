import QueryVars.Codec.Maps
import QueryVars.Proofs.Groups
import QueryVars.Proofs.Stages

/-!
# Fresh suffixes and reachable maps

Random suffixes are taken to be fresh: one that is drawn in a call ends no name
that the call was handed and none that the map holds by then. Nothing is asked
of a suffix that is not drawn. What one visit keeps under this assumption, every
reachable map has: no duplicate is on record twice.
-/

namespace QueryVars

/-- The next random suffix ends no name in `known`. -/
def Supply.New (s : Supply) (known : List Var) : Prop :=
  ∀ v ∈ known, ¬(s.suffix .random).text.toList <:+ v.name.toList

instance (s : Supply) (known : List Var) : Decidable (s.New known) := by
  unfold Supply.New
  infer_instance

theorem Supply.New.extend_notMem {s : Supply} {known : List Var} (h : s.New known) (v : Var) :
    v.extend (s.suffix .random) ∉ known := by
  intro hm
  refine h _ hm ⟨v.name.toList, ?_⟩
  simp [Var.extend]

/-- Only a slot that repeats a groundable variable draws a suffix. -/
def Equalities.repeats (m : Equalities) (t : Term) : Bool :=
  t.var?.any fun v => v.category.isGroundable && m.duplicates.contains v

namespace Stage

variable {known other : List Var} {s next : Stage} {t u : Term} {slots : List Term} {v w : Var}
  {ds : List Var}

/-- The suffix that the slot draws, if it draws one, is new. -/
def NewFor (known : List Var) (s : Stage) (t : Term) : Prop :=
  s.map.repeats t → s.run.supply.New (known ++ s.map.names)

instance (known : List Var) (s : Stage) (t : Term) : Decidable (s.NewFor known t) := by
  unfold NewFor
  infer_instance

def FreshFor (known : List Var) (s : Stage) (slots : List Term) : Prop :=
  Along visit (NewFor known) s slots

/-- No suffix drawn in a call ends a name that the call was handed. -/
def Fresh (s : Stage) (slots : List Term) : Prop := s.FreshFor (slots.filterMap Term.var?) slots

instance (s : Stage) (slots : List Term) : Decidable (s.Fresh slots) := by
  unfold Fresh FreshFor
  infer_instance

theorem repeats_eq_true (ht : t.var? = some v) (hv : s.map.duplicates.get? v = some ds)
    (hg : v.category.isGroundable = true) : s.map.repeats t = true := by
  simp [Equalities.repeats, ht, hg, SortedMap.contains, hv]

theorem NewFor.duplicate_notMem (h : s.NewFor known t) (ht : t.var? = some v)
    (hv : s.map.duplicates.get? v = some ds) (hg : v.category.isGroundable = true) :
    s.duplicate v ∉ known ∧ s.duplicate v ∉ s.map.names := by
  have hnew := (h (repeats_eq_true ht hv hg)).extend_notMem v
  simpa [duplicate, not_or] using hnew

theorem NewFor.mono (hk : known ⊆ other) (h : s.NewFor other t) : s.NewFor known t := by
  intro hr v hv
  refine h hr v ?_
  rcases List.mem_append.1 hv with hv | hv
  · exact List.mem_append_left _ (hk hv)
  · exact List.mem_append_right _ hv

theorem FreshFor.mono (hk : known ⊆ other) (h : s.FreshFor other slots) :
    s.FreshFor known slots :=
  Along.mono (fun _ _ => NewFor.mono hk) h

theorem along_calls {p : Stage → Term → Prop} {calls : List (List Term)} :
    Along after (fun s slots => Along visit p s slots) s calls ↔ Along visit p s calls.flatten := by
  induction calls generalizing s with
  | nil => simp [Along]
  | cons slots rest ih => rw [Along, ih, List.flatten_cons, Along.append, after_eq_foldl]

theorem freshFor_flatten {calls : List (List Term)} (h : Along after Fresh s calls) :
    s.FreshFor [] calls.flatten :=
  along_calls.1 (Along.mono (fun _ _ => FreshFor.mono (List.nil_subset _)) h)

-- ---------------------------------------------------------------------------
-- What a visit keeps
-- ---------------------------------------------------------------------------

theorem visit_induction {I : Stage → Prop} (hf : s.FreshFor known slots)
    (hstep : ∀ s t u next, s.NewFor known t → Visit s t u next → I s → I next) (hs : I s) :
    I (s.after slots) := by
  rw [after_eq_foldl]
  refine Along.invariant (fun s t hn hi => ?_) hf hs
  obtain ⟨u, -, h⟩ := s.visit_spec t
  exact hstep s t u _ hn h hi

theorem Visit.mem_recorded (hn : s.NewFor known t) (h : Visit s t u next)
    (hd : w ∈ next.map.recorded) : w ∈ s.map.recorded ∨ w ∉ known ∧ w ∉ s.map.names := by
  cases h with
  | constant | kept => exact .inl hd
  | opened _ hv => exact .inl ((Equalities.recorded_open hv).mem_iff.1 hd)
  | repeated ht hv hg =>
    rcases List.mem_cons.1 ((Equalities.recorded_append hv _).mem_iff.1 hd) with rfl | hd
    · exact .inr (hn.duplicate_notMem ht hv hg)
    · exact .inl hd

theorem Visit.nodup_recorded (hn : s.NewFor known t) (h : Visit s t u next)
    (hr : s.map.recorded.Nodup) : next.map.recorded.Nodup := by
  cases h with
  | constant | kept => exact hr
  | opened _ hv => exact (Equalities.recorded_open hv).nodup_iff.2 hr
  | repeated ht hv hg =>
    have hnew := (hn.duplicate_notMem ht hv hg).2
    refine (Equalities.recorded_append hv _).nodup_iff.2 (hr.cons fun hd => hnew ?_)
    exact Equalities.mem_names_iff.2 (.inr hd)

theorem mem_recorded_after (hf : s.FreshFor known slots) (hd : w ∈ (s.after slots).map.recorded) :
    w ∈ s.map.recorded ∨ w ∉ known := by
  refine visit_induction (I := fun next => w ∈ next.map.recorded → w ∈ s.map.recorded ∨ w ∉ known)
    hf (fun _ _ _ _ hn h hi hd => ?_) .inl hd
  rcases h.mem_recorded hn hd with hd | hd
  · exact hi hd
  · exact .inr hd.1

theorem nodup_recorded_after (hf : s.FreshFor known slots) (hr : s.map.recorded.Nodup) :
    (s.after slots).map.recorded.Nodup :=
  visit_induction hf (fun _ _ _ _ hn h => h.nodup_recorded hn) hr

theorem nodup_recorded_calls {calls : List (List Term)} (hf : Along after Fresh s calls)
    (hr : s.map.recorded.Nodup) : (calls.foldl after s).map.recorded.Nodup := by
  rw [foldl_after]
  exact nodup_recorded_after (freshFor_flatten hf) hr

end Stage

namespace Equalities

inductive Initial : Equalities → Prop
  | empty : Initial .empty
  | ofGroups {m gs} : ofGroups gs = .ok m → Initial m
  | ofJson {m j} : ofJson j = .ok m → Initial m

/-- The maps that calls lead to, whatever else happens between them. -/
inductive Reachable : Equalities → Prop
  | initial {m} : Initial m → Reachable m
  | call {m r slots} : Reachable m → Stage.Fresh ⟨m, r⟩ slots →
      Reachable (Stage.after ⟨m, r⟩ slots).map

variable {m : Equalities}

theorem ofGroups_of_ofJson (h : ofJson j = .ok m) : ∃ gs, ofGroups gs = .ok m := by
  unfold ofJson read at h
  obtain ⟨_, -, hgs⟩ := Decoded.bind_eq_ok_iff.1 h
  exact ⟨_, Decoded.ofFault_eq_ok_iff.1 hgs⟩

theorem Initial.nodup_names (h : m.Initial) : m.names.Nodup := by
  cases h with
  | empty => exact .nil
  | ofGroups h => exact nodup_names_of_ofGroups h
  | ofJson h =>
    obtain ⟨gs, hgs⟩ := ofGroups_of_ofJson h
    exact nodup_names_of_ofGroups hgs

theorem Reachable.calls {s : Stage} {calls : List (List Term)} (h : s.map.Reachable)
    (hf : Along Stage.after Stage.Fresh s calls) : (calls.foldl Stage.after s).map.Reachable := by
  induction calls generalizing s with
  | nil => exact h
  | cons slots rest ih => exact ih (.call h hf.1) hf.2

theorem Reachable.nodup_recorded (h : m.Reachable) : m.recorded.Nodup := by
  induction h with
  | initial h => exact (nodup_names_iff.1 h.nodup_names).1
  | call _ hf ih => exact Stage.nodup_recorded_after hf ih

end Equalities

def sampleBodies : Nat → String
  | 0 => "0b5d9e1c7a2f4c3e8d6b1a0f9e8d7c6b"
  | 1 => "4f1e2d3c4b5a49788796a5b4c3d2e1f0"
  | 2 => "9a8b7c6d5e4f40318293a4b5c6d7e8f9"
  | _ => "c0ffee00c0ff4e00beefbeefbeefbeef"

def sampleGroups : List (Var × List Var) :=
  let a : Var := ⟨"?a", .joinCapable, by decide⟩
  [(a, [a, ⟨"?b", .joinCapable, by decide⟩])]

def sampleMap : Equalities := (Equalities.ofGroups sampleGroups).toOption.getD .empty

theorem ofGroups_sampleGroups : Equalities.ofGroups sampleGroups = .ok sampleMap := by decide

def sampleCalls : List (List Term) :=
  [[.symbol "?a", .symbol "!!x", .str "?c", .symbol "?c"],
    [.str "?c", .symbol "_", .symbol "!!x", .literal (.int 3)]]

end QueryVars
