import QueryVars.Proofs.Intersection
import QueryVars.Session.Command

/-!
# Failing commands

A session consists of its maps, its supply of suffixes and its log. A command
first reads, which may fail and changes nothing, and then acts, which changes
the session and cannot fail. Reconciling drift maps is the one action that can
fail, and it logs nothing when it does. So a failure leaves the session as it
was, and a list of commands can do without those that fail.
-/

namespace QueryVars

namespace Session

variable {m : SessionM α} {f : α → SessionM β}

def Reading (m : SessionM α) : Prop := ∀ s, (m.run.run s).2 = s

def Total (m : SessionM α) : Prop := ∀ s, ∃ a, (m.run.run s).1 = .ok a

/-- A failure leaves the session as it was. -/
def Clean (m : SessionM α) : Prop :=
  ∀ s t failure, m.run.run s = (.error failure, t) → t = s

-- ---------------------------------------------------------------------------
-- Sequences of actions
-- ---------------------------------------------------------------------------

theorem Total.clean (h : Total m) : Clean m := by
  intro s t failure hrun
  obtain ⟨a, ha⟩ := h s
  rw [hrun] at ha
  cases ha

theorem Reading.bind (hm : Reading m) (hf : ∀ a, Reading (f a)) : Reading (m >>= f) := by
  intro s
  have hs := hm s
  rw [bind_run]
  cases hrun : m.run.run s with
  | mk result next =>
    rw [hrun] at hs
    cases hs
    cases result with
    | ok a => exact hf a next
    | error failure => rfl

theorem Total.bind (hm : Total m) (hf : ∀ a, Total (f a)) : Total (m >>= f) := by
  intro s
  obtain ⟨a, ha⟩ := hm s
  rw [bind_run]
  cases hrun : m.run.run s with
  | mk result next =>
    rw [hrun] at ha
    cases ha
    exact hf a next

/-- What is read first may fail, and so may what follows. -/
theorem Reading.bind_clean (hm : Reading m) (hf : ∀ a, Clean (f a)) : Clean (m >>= f) := by
  intro s t failure hrun
  have hs := hm s
  rw [bind_run] at hrun
  cases hfirst : m.run.run s with
  | mk result next =>
    rw [hfirst] at hrun hs
    cases hs
    cases result with
    | ok a => exact hf a next t failure hrun
    | error first =>
      cases hrun
      rfl

/-- Once something has changed, nothing may fail any more. -/
theorem Clean.bind_total (hm : Clean m) (hf : ∀ a, Total (f a)) : Clean (m >>= f) := by
  intro s t failure hrun
  rw [bind_run] at hrun
  cases hfirst : m.run.run s with
  | mk result next =>
    rw [hfirst] at hrun
    cases result with
    | ok a =>
      obtain ⟨b, hb⟩ := hf a next
      simp [hrun] at hb
    | error first =>
      cases hrun
      exact hm s _ _ hfirst

theorem reading_mapM {f : α → SessionM β} (hf : ∀ a, Reading (f a)) (as : List α) :
    Reading (as.mapM f) := by
  induction as with
  | nil => exact fun _ => rfl
  | cons a as ih =>
    rw [List.mapM_cons]
    exact (hf a).bind fun b => ih.bind fun bs _ => rfl

-- ---------------------------------------------------------------------------
-- Primitives
-- ---------------------------------------------------------------------------

theorem reading_pure (a : α) : Reading (pure a) := fun _ => rfl

theorem Reading.reply (hm : Reading m) (reply : α → β) :
    Reading (m >>= fun a => pure (reply a)) :=
  hm.bind fun a => reading_pure (reply a)

theorem reading_ofFault (result : Except Fault α) : Reading (ofFault result) :=
  fun s => by simp

theorem reading_ofDecoded (result : Decoded α) : Reading (ofDecoded result) :=
  fun s => by simp

theorem reading_getEqualities (name : String) : Reading (getEqualities name) := by
  intro s
  rw [getEqualities_run]
  cases s.equalities.get? name <;> rfl

theorem reading_getDrift (name : String) : Reading (getDrift name) := by
  intro s
  rw [getDrift_run]
  cases s.drifts.get? name <;> rfl

theorem total_pure (a : α) : Total (pure a) := fun _ => ⟨a, rfl⟩

theorem Total.reply (hm : Total m) (reply : α → β) : Total (m >>= fun a => pure (reply a)) :=
  hm.bind fun a => total_pure (reply a)

theorem total_perform (m : RunM α) : Total (perform m) := fun _ => ⟨_, rfl⟩

theorem total_setEqualities (name : String) (m : Equalities) : Total (setEqualities name m) :=
  fun _ => ⟨(), rfl⟩

theorem total_setDrift (name : String) (d : Drift) : Total (setDrift name d) :=
  fun _ => ⟨(), rfl⟩

/-- The event is emitted when it is clear that no two branches disagree. -/
theorem clean_reconcile (branches : List Drift) :
    Clean (perform (Drift.reconcile branches) >>= ofFault) := by
  intro s t failure hrun
  rw [bind_run, perform_run] at hrun
  cases hresult : Drift.intersect branches with
  | error fault =>
    rw [Drift.reconcile_error hresult] at hrun
    cases hrun
    rfl
  | ok d =>
    simp only [ofFault_run, Drift.reconcile_result, hresult] at hrun
    cases hrun

theorem clean_ofFault_reconcile {f : Drift → SessionM β} (branches : List Drift)
    (hf : ∀ d, Total (f d)) :
    Clean (perform (Drift.reconcile branches) >>= fun result => ofFault result >>= f) := by
  rw [← bind_assoc]
  exact (clean_reconcile branches).bind_total hf

-- ---------------------------------------------------------------------------
-- Arguments
-- ---------------------------------------------------------------------------

theorem reading_readNaming (config : Option Json) : Reading (readNaming config) := by
  cases config with
  | none => exact reading_pure _
  | some j => exact (reading_ofDecoded _).bind fun c => reading_ofFault _

theorem GeneratorArg.reading_read (g : GeneratorArg) : Reading g.read := by
  cases g with
  | default category => exact reading_pure _
  | described category config =>
    refine (reading_ofDecoded _).bind fun c => ?_
    cases config with
    | none => exact reading_pure _
    | some j => exact (reading_ofDecoded _).bind fun c => reading_ofFault _

theorem DriftArg.reading_read (d : DriftArg) : Reading d.read := by
  cases d with
  | object value => exact reading_ofDecoded _
  | pairs entries => exact reading_ofFault _

theorem TokensArg.reading_read (tokens : TokensArg) : Reading tokens.read := by
  cases tokens with
  | texts tokens => exact reading_pure _
  | names tokens => exact (reading_ofFault _).reply _
  | terms tokens => exact (reading_ofDecoded _).reply _

theorem TermArg.reading_read (t : TermArg) : Reading t.read := by
  cases t with
  | symbol text => exact reading_pure _
  | str text => exact reading_pure _
  | int value => exact (reading_ofDecoded _).reply _
  | seq items => exact (reading_ofDecoded _).reply _
  | var name => exact (reading_ofFault _).reply _
  | literal value => exact (reading_ofDecoded _).reply _

end Session

open Session

theorem Question.reading_ask (q : Question) : Reading q.ask := by
  cases q with
  | category value => exact (reading_ofDecoded _).reply _
  | classify tokens => exact tokens.reading_read.reply _
  | allGroundable tokens => exact tokens.reading_read.reply _
  | parse name => exact (reading_ofFault _).reply _
  | ofText text => exact reading_pure _
  | order left right =>
    exact (reading_ofFault _).bind fun v => (reading_ofFault _).reply _
  | sort names => exact (reading_ofFault _).reply _
  | inspect term => exact (reading_ofDecoded _).reply _
  | build term => exact term.reading_read.reply _
  | alike left right =>
    exact (reading_ofDecoded _).bind fun t => (reading_ofDecoded _).reply _
  | recode format value => exact (reading_ofDecoded _).reply _
  | validate config =>
    exact (reading_ofDecoded _).bind fun c => (reading_ofFault _).reply _
  | describe generator => exact generator.reading_read.reply _
  | groups family names =>
    exact (reading_ofFault _).bind fun m => (reading_ofFault _).reply _
  | driftOf equalities => exact (reading_ofDecoded _).reply _
  | drift value names =>
    exact value.reading_read.bind fun d => (reading_ofFault _).reply _

namespace Command

theorem clean_exec (c : Command) : Clean c.exec := by
  cases c with
  | suffixes strategy count =>
    exact (reading_ofDecoded _).bind_clean fun st => ((total_perform _).reply _).clean
  | fresh generator =>
    exact generator.reading_read.bind_clean fun g => ((total_perform _).reply _).clean
  | freshMany generator count =>
    exact generator.reading_read.bind_clean fun g => ((total_perform _).reply _).clean
  | uniquify name generator =>
    refine (reading_ofFault _).bind_clean fun v => ?_
    cases generator with
    | none => exact ((total_perform _).reply _).clean
    | some g => exact g.reading_read.bind_clean fun g => ((total_perform _).reply _).clean
  | canonical generator term =>
    refine generator.reading_read.bind_clean fun g => ?_
    exact (reading_ofDecoded _).bind_clean fun t => ((total_perform _).reply _).clean
  | sanitize generator term =>
    refine generator.reading_read.bind_clean fun g => ?_
    exact (reading_ofDecoded _).bind_clean fun t => ((total_perform _).reply _).clean
  | sanitizePredicate term config =>
    refine (reading_ofDecoded _).bind_clean fun t => ?_
    exact (reading_readNaming _).bind_clean fun naming => ((total_perform _).reply _).clean
  | rename slots equalities =>
    refine (reading_ofDecoded _).bind_clean fun slots => ?_
    exact (reading_ofDecoded _).bind_clean fun m => ((total_perform _).reply _).clean
  | renameRepeats slots =>
    exact (reading_ofDecoded _).bind_clean fun slots => ((total_perform _).reply _).clean
  | intersect branches =>
    refine (reading_mapM DriftArg.reading_read branches).bind_clean fun branches => ?_
    exact clean_ofFault_reconcile branches fun d => total_pure _
  | clearEqualities target => exact ((total_setEqualities _ _).reply _).clean
  | loadGroups groups target =>
    refine (reading_ofFault _).bind_clean fun m => ?_
    exact ((total_setEqualities _ _).reply _).clean
  | copyEqualities source target =>
    refine (reading_getEqualities _).bind_clean fun m => ?_
    exact ((total_setEqualities _ _).reply _).clean
  | sameEqualities left right =>
    refine (reading_getEqualities _).bind_clean fun m => ?_
    exact (reading_getEqualities _).bind_clean fun n => (total_pure _).clean
  | renameIn slots target =>
    refine (reading_ofDecoded _).bind_clean fun slots => ?_
    refine (reading_getEqualities _).bind_clean fun m => Total.clean ?_
    refine (total_perform _).bind fun result => ?_
    exact (total_setEqualities _ _).reply _
  | prepareIn term config target =>
    refine (reading_ofDecoded _).bind_clean fun t => ?_
    refine (reading_readNaming _).bind_clean fun naming => ?_
    refine (reading_getEqualities _).bind_clean fun m => Total.clean ?_
    refine (total_perform _).bind fun result => ?_
    exact (total_setEqualities _ _).reply _
  | inspectEqualities names source =>
    refine (reading_ofFault _).bind_clean fun vs => ?_
    exact (reading_getEqualities _).bind_clean fun m => (total_pure _).clean
  | recodeEqualities target =>
    refine (reading_getEqualities _).bind_clean fun m => ?_
    refine (reading_ofDecoded _).bind_clean fun recoded => ?_
    exact ((total_setEqualities _ _).reply _).clean
  | driftOf source target =>
    refine (reading_getEqualities _).bind_clean fun m => ?_
    exact ((total_setDrift _ _).reply _).clean
  | loadDrift value target =>
    refine value.reading_read.bind_clean fun d => ?_
    exact ((total_setDrift _ _).reply _).clean
  | intersectNamed sources target =>
    refine (reading_mapM reading_getDrift sources).bind_clean fun branches => ?_
    exact clean_ofFault_reconcile branches fun d => (total_setDrift _ _).reply _
  | inspectDrift source names =>
    refine (reading_getDrift _).bind_clean fun d => ?_
    exact (reading_ofFault _).bind_clean fun vs => (total_pure _).clean
  | sameDrift left right =>
    refine (reading_getDrift _).bind_clean fun d => ?_
    exact (reading_getDrift _).bind_clean fun e => (total_pure _).clean
  | ask question => exact question.reading_ask.bind_clean fun finding => (total_pure _).clean

-- ---------------------------------------------------------------------------
-- Lists of commands
-- ---------------------------------------------------------------------------

def answered (cs : List Command) (answers : List (Except Failure Reply)) : List Command :=
  ((cs.zip answers).filter fun e => e.2.isOk).map Prod.fst

@[simp] theorem answered_error (c : Command) (cs : List Command) (failure : Failure)
    (answers : List (Except Failure Reply)) :
    answered (c :: cs) (.error failure :: answers) = answered cs answers := rfl

@[simp] theorem answered_ok (c : Command) (cs : List Command) (reply : Reply)
    (answers : List (Except Failure Reply)) :
    answered (c :: cs) (.ok reply :: answers) = c :: answered cs answers := rfl

theorem execAll_cons (c : Command) (cs : List Command) (s : Session) :
    (execAll (c :: cs)).run s =
      ((c.exec.run.run s).1 :: ((execAll cs).run (c.exec.run.run s).2).1,
        ((execAll cs).run (c.exec.run.run s).2).2) := rfl

theorem execAll_answered (cs : List Command) (s : Session) :
    (execAll (answered cs ((execAll cs).run s).1)).run s =
      (((execAll cs).run s).1.filter fun answer => answer.isOk, ((execAll cs).run s).2) := by
  induction cs generalizing s with
  | nil => rfl
  | cons c cs ih =>
    rw [execAll_cons]
    cases hc : c.exec.run.run s with
    | mk answer t =>
      cases answer with
      | error failure =>
        cases clean_exec c s t failure hc
        rw [answered_error, ih, List.filter_cons_of_neg (by simp [Except.isOk, Except.toBool])]
      | ok reply =>
        rw [answered_ok, execAll_cons, hc, ih, List.filter_cons_of_pos rfl]

/-- A failing command leaves every map, the supply and the log as they were.
So the commands that do not fail give the same answers, and lead to the same
session, when those that fail are never executed. -/
theorem failures_leave_no_trace (s : Session) :
    (∀ (c : Command) (t : Session) (failure : Failure),
      c.exec.run.run s = (.error failure, t) → t = s) ∧
    ∀ cs : List Command,
      let (answers, t) := (execAll cs).run s
      (execAll (answered cs answers)).run s = (answers.filter fun answer => answer.isOk, t) :=
  ⟨fun c => clean_exec c s, fun cs => execAll_answered cs s⟩

/-- Fails after both branches have been read: they lead `?b` to different
heads. -/
def conflict : Command := .intersect [.pairs [("?b", "?a")], .pairs [("?b", "?c")]]

def freshOptional : Command := .fresh (.default .optional)

/-- The groups fail as well, after the map `m` has been stored. -/
def troubled : List Command :=
  [.clearEqualities "m", freshOptional, conflict, .loadGroups [("?a", ["?b"])] "m", freshOptional]

theorem failures_leave_no_trace_conflict :
    let s := Session.start fun k => "#" ++ toString k
    let (answers, t) := (execAll troubled).run s
    (∃ failure u, conflict.exec.run.run s = (.error failure, u) ∧ u = s) ∧
      answers.map (fun answer => answer.isOk) = [true, true, false, false, true] ∧
      (execAll [.clearEqualities "m", freshOptional, freshOptional]).run s =
        (answers.filter fun answer => answer.isOk, t) := by
  intro s
  obtain ⟨hstep, hrun⟩ := failures_leave_no_trace s
  refine ⟨⟨_, _, rfl, hstep conflict _ _ rfl⟩, by decide +kernel, ?_⟩
  exact hrun troubled

end Command

end QueryVars
