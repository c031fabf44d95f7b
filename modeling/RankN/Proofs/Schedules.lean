import RankN.Batch
import RankN.Proofs.History

/-!
# Batches under every schedule

Whatever the order in which tasks start and finish, and whenever the batch is cancelled, a batch
tells of each expression what an inference in a new context tells, or nothing.

**One step.** A task passes through its phases in order (`Progress.step?_cases`). It settles at its
start whether it is refused, by looking whether the batch has been cancelled, and writes nothing but
its own result. `Progress.Accurate` says what the results and the failure of a batch have to do with
the phases of its tasks; every step keeps it.

**Every schedule.** Task `i` *observes* the cancellation (`Job.Observes`) if it starts at a moment
of the schedule when the batch has been cancelled, from outside or by the failure of another task.
The refused tasks are those (`Job.refused_iff_observes`).

**Completion.** No limit blocks a batch: as long as some task is not over, one can start or finish,
so every schedule can be extended until all are over (`Progress.exists_complete`).

**Tracing** records the steps of the inferences and does not change their answers
(`Context.infer_trace`), because the runs with and without a record are twins.

Main result: `Batch.execute_agrees`.
-/

namespace RankN

/-! ## Recorded steps -/

theorem Ty.restamp_id (t : Ty) : t.restamp id = t := Ty.restamp_eq_self (fun _ _ => rfl) le_rfl

theorem TypeError.restamp_id (why : TypeError) : why.restamp id = why := by
  have hm : ∀ m : MVar, m.restamp id = m := fun _ => rfl
  cases why <;> simp [restamp, Ty.restamp_id, hm]

/-- From equal supplies, the same stamps are drawn. -/
theorem Pairing.ofSupplies_self (n : Nat) (traced : Prop) (before : List Event) :
    (ofSupplies n n traced before).stamp = id := by
  funext k
  show (if k < n then k else k + (n - n)) = k
  split <;> omega

/-- **Recording changes no answer**, nor where an error is found. -/
theorem Context.infer_trace (on listen : Bool) (e : Expr) (env : Env) :
    ((({} : Context).trace on listen).infer e env).1 = (({} : Context).infer e env).1 ∧
    ((({} : Context).trace on listen).infer e env).2.invalid =
      (({} : Context).infer e env).2.invalid := by
  by_cases he : e = .absent
  · simp only [Context.infer, he, if_true]
    exact ⟨trivial, rfl⟩
  by_cases henv : env = []
  · simp only [Context.infer, he, henv, if_true, if_false]
    exact ⟨trivial, rfl⟩
  set c := ({} : Context).trace on listen
  have hempty : (({} : Context).start e env).Empty := ⟨rfl, rfl, rfl⟩
  have hempty' : (c.start e env).Empty := ⟨rfl, rfl, rfl⟩
  set ρ := Pairing.ofSupplies (({} : Context).start e env).stamps (c.start e env).stamps False []
  have hid : ρ.stamp = id := Pairing.ofSupplies_self _ _ _
  have hty : ∀ t : Ty, ρ.ty t = t := fun t => by rw [Pairing.ty, hid, Ty.restamp_id]
  have hconcludes : ρ.Concludes (({} : Context).infer e env) (c.infer e env) :=
    Pairing.infer_concludes Pairing.ofSupplies_faithful (.inr ⟨rfl, rfl⟩) (.inr ⟨rfl, rfl⟩) he henv
      henv (Pairing.alike_self (fun _ => rfl) (fun t _ => hty t) fun _ => rfl)
      (Pairing.sameNames_env (fun _ t _ => hty t) fun _ _ hxy => congrArg env.find? hxy)
      (hempty.twin hempty' id (Pairing.ofSupplies_stamps le_rfl))
  generalize ({} : Context).infer e env = x, c.infer e env = y at hconcludes
  cases hconcludes with
  | ok hi hi' _ => exact ⟨congrArg Except.ok (hty _), hi'.trans hi.symm⟩
  | error hwhy hexpr _ =>
    have hwhy' := Pairing.ofSupplies_errors hwhy
    rw [hid, TypeError.restamp_id] at hwhy'
    exact ⟨by rw [hwhy'], hexpr.symm⟩
  | fault hfg hi hi' _ => exact ⟨by rw [Pairing.ofSupplies_faults hfg], hi'.trans hi.symm⟩

/-- The result holds the expression and what the inference tells about it: its answer, and where the
error was found. -/
def Result.Tells (res : Result) (e : Expr) (x : Except (Stop TypeError) Ty × Context) : Prop :=
  res.expr = e ∧ res.outcome = x.1 ∧ res.invalid = x.2.invalid

namespace Batch

/-! ## Phases -/

namespace Phase

/-- The task is over. -/
def isDone : Phase → Bool
  | .done _ => true
  | _ => false

/-- The task has seen that the batch was cancelled. -/
def isRefused : Phase → Bool
  | .waiting => false
  | .started refused | .done refused => refused

/-- How many steps the task has to take. -/
def left : Phase → Nat
  | .waiting => 2
  | .started _ => 1
  | .done _ => 0

end Phase

namespace Progress

variable {job : Job} {p p' : Progress} {s : Step} {i : Nat}

/-- All tasks are over. -/
def Complete (p : Progress) : Prop := ∀ ph ∈ p.phases, ph.isDone = true

instance (p : Progress) : Decidable p.Complete := inferInstanceAs (Decidable (∀ ph ∈ p.phases, _))

/-- Task `i` was refused. -/
def Refused (p : Progress) (i : Nat) : Prop := ∃ ph, p.phases[i]? = some ph ∧ ph.isRefused = true

/-- **What a step does.** -/
theorem step?_cases (h : p.step? job s = some p') :
    (∃ i, s = .start i ∧ p.phases[i]? = some .waiting ∧
      p' = { p with phases := p.phases.set i (.started p.cancelled) }) ∨
    (∃ i e, s = .finish i ∧ p.phases[i]? = some (.started false) ∧ job.exprs[i]? = some e ∧
      p' = { p with
        phases := p.phases.set i (.done false), results := p.results.set i (job.result e) }) ∨
    (∃ i, s = .finish i ∧ p.phases[i]? = some (.started true) ∧
      p' = { p with phases := p.phases.set i (.done true), failed := true, cancelled := true }) ∨
    s = .cancel ∧ p' = { p with cancelled := true } := by
  cases s with
  | start i =>
    simp only [step?] at h
    split at h
    · rename_i hi
      cases h
      exact .inl ⟨i, rfl, hi.1, rfl⟩
    · cases h
  | finish i =>
    simp only [step?] at h
    split at h
    · rename_i e hi he
      cases h
      exact .inr (.inl ⟨i, e, rfl, hi, he, rfl⟩)
    · rename_i hi _
      cases h
      exact .inr (.inr (.inl ⟨i, rfl, hi, rfl⟩))
    · cases h
  | cancel =>
    cases h
    exact .inr (.inr (.inr ⟨rfl, rfl⟩))

/-! ## Results -/

/-- The results of a batch are those of the tasks that are over and were not refused, and the batch
has failed if a refused task is over. -/
structure Accurate (job : Job) (p : Progress) : Prop where
  phases : p.phases.length = job.exprs.length
  results : ∀ i : Nat, p.results[i]? =
    job.exprs[i]?.map fun e => if p.phases[i]? = some (.done false) then job.result e else {}
  failed : p.failed = true ↔ ∃ i : Nat, p.phases[i]? = some (.done true)

theorem phase_initial {ph : Phase} (hi : (initial job).phases[i]? = some ph) : ph = .waiting := by
  obtain ⟨_, _, rfl⟩ := List.mem_map.1 (List.mem_of_getElem? hi)
  rfl

theorem accurate_initial (job : Job) : (initial job).Accurate job where
  phases := List.length_map _
  results i := by
    have hphase : (initial job).phases[i]? ≠ some (.done false) := fun hi => by
      cases phase_initial hi
    simp only [hphase, if_false]
    exact List.getElem?_map
  failed := by
    constructor
    · intro h
      cases h
    · rintro ⟨i, hi⟩
      cases phase_initial hi

/-- A step does not change the phases of other tasks. -/
theorem phases_set {a b : Phase} (hi : p.phases[i]? = some a) (j : Nat) :
    (p.phases.set i b)[j]? = if i = j then some b else p.phases[j]? := by
  obtain ⟨hlt, -⟩ := List.getElem?_eq_some_iff.1 hi
  rw [List.getElem?_set]
  simp only [hlt, if_true]

theorem Accurate.step (hp : p.Accurate job) (h : p.step? job s = some p') : p'.Accurate job := by
  rcases step?_cases h with ⟨i, -, hi, rfl⟩ | ⟨i, e, -, hi, he, rfl⟩ | ⟨i, -, hi, rfl⟩ | ⟨-, rfl⟩
  · refine ⟨(List.length_set ..).trans hp.phases, fun j => ?_, ?_⟩
    · rw [hp.results j, phases_set hi]
      grind
    · simp only [phases_set hi]
      rw [hp.failed]
      grind
  · refine ⟨(List.length_set ..).trans hp.phases, fun j => ?_, ?_⟩
    · have hlength : i < p.results.length := by
        have := hp.results i
        rw [he] at this
        exact (List.getElem?_eq_some_iff.1 this).1
      rw [phases_set hi, List.getElem?_set, hp.results j]
      grind
    · simp only [phases_set hi]
      rw [hp.failed]
      grind
  · refine ⟨(List.length_set ..).trans hp.phases, fun j => ?_, ?_⟩
    · rw [hp.results j, phases_set hi]
      grind
    · simp only [phases_set hi, true_iff]
      exact ⟨i, if_pos rfl⟩
  · exact ⟨hp.phases, hp.results, hp.failed⟩

theorem execute_concat (job : Job) (p : Progress) (schedule : List Step) (s : Step) :
    p.execute job (schedule ++ [s]) =
      ((p.execute job schedule).step? job s).getD (p.execute job schedule) := by
  simp [execute]

/-- **Results are accurate after every schedule.** -/
theorem Accurate.execute (hp : p.Accurate job) (schedule : List Step) :
    (p.execute job schedule).Accurate job := by
  induction schedule using List.reverseRecOn with
  | nil => exact hp
  | append_singleton schedule s ih =>
    rw [execute_concat]
    cases hs : (p.execute job schedule).step? job s with
    | none => exact ih
    | some p' => exact ih.step hs

theorem Accurate.length_results (hp : p.Accurate job) : p.results.length = job.exprs.length := by
  have hnone : ∀ i, p.results.length ≤ i ↔ job.exprs.length ≤ i := by
    intro i
    rw [← List.getElem?_eq_none_iff, ← List.getElem?_eq_none_iff, hp.results,
      Option.map_eq_none_iff]
  exact le_antisymm ((hnone _).2 le_rfl) ((hnone _).1 le_rfl)

/-- The phase of a task of a complete batch. -/
theorem Complete.phase (hcomplete : p.Complete) (hp : p.Accurate job) {e : Expr}
    (he : job.exprs[i]? = some e) : ∃ refused, p.phases[i]? = some (.done refused) := by
  have hlt : i < p.phases.length := hp.phases ▸ (List.getElem?_eq_some_iff.1 he).1
  have hdone := hcomplete _ (List.getElem_mem hlt)
  rw [List.getElem?_eq_getElem hlt]
  generalize p.phases[i] = ph at hdone
  cases ph with
  | done refused => exact ⟨refused, rfl⟩
  | _ => cases hdone

/-- A task that was not refused has left its result. -/
theorem Complete.result (hcomplete : p.Complete) (hp : p.Accurate job) {e : Expr}
    (he : job.exprs[i]? = some e) :
    (p.Refused i ∧ p.results[i]? = some {}) ∨
      (¬ p.Refused i ∧ p.results[i]? = some (job.result e)) := by
  obtain ⟨refused, hi⟩ := hcomplete.phase hp he
  have hresult := hp.results i
  rw [he] at hresult
  cases refused with
  | true => exact .inl ⟨⟨_, hi, rfl⟩, by simpa [hi] using hresult⟩
  | false =>
    refine .inr ⟨fun ⟨ph, hph, hrefused⟩ => ?_, by simpa [hi] using hresult⟩
    rw [hi] at hph
    cases hph
    cases hrefused

/-- If no task was refused, all have left their results. -/
theorem Complete.results_eq (hcomplete : p.Complete) (hp : p.Accurate job)
    (h : ∀ i, ¬ p.Refused i) : p.results = job.exprs.map job.result := by
  refine List.ext_getElem? fun i => ?_
  rw [List.getElem?_map]
  cases he : job.exprs[i]? with
  | none => rw [hp.results, he]; rfl
  | some e =>
    rcases hcomplete.result hp he with ⟨hrefused, -⟩ | ⟨-, hres⟩
    · exact absurd hrefused (h i)
    · exact hres

/-- A complete batch has failed if a task was refused. -/
theorem Complete.failed_iff (hcomplete : p.Complete) (hp : p.Accurate job) :
    p.failed = true ↔ ∃ i, p.Refused i := by
  rw [hp.failed]
  refine ⟨fun ⟨i, hi⟩ => ⟨i, _, hi, rfl⟩, fun ⟨i, ph, hi, hrefused⟩ => ⟨i, ?_⟩⟩
  have hdone := hcomplete ph (List.mem_of_getElem? hi)
  cases ph with
  | done refused => rwa [show refused = true from hrefused] at hi
  | _ => cases hdone

/-! ## Completion -/

/-- How many steps the tasks have to take. -/
def remaining (p : Progress) : Nat := (p.phases.map Phase.left).sum

theorem remaining_set {l : List Phase} {a b : Phase} (hi : l[i]? = some a) (hab : b.left < a.left) :
    ((l.set i b).map Phase.left).sum < (l.map Phase.left).sum := by
  induction l generalizing i with
  | nil => simp at hi
  | cons c l ih =>
    cases i with
    | zero =>
      simp only [List.getElem?_cons_zero, Option.some.injEq] at hi
      simp only [List.set_cons_zero, List.map_cons, List.sum_cons, hi]
      omega
    | succ i =>
      have := ih hi
      simp only [List.set_cons_succ, List.map_cons, List.sum_cons]
      omega

/-- Whatever the limit, one task may run. -/
theorem hasRoom_of_idle (h : p.active = 0) : p.hasRoom job = true := by
  simp only [hasRoom, h, Bool.or_eq_true, decide_eq_true_eq]
  omega

/-- **A batch that is not complete can go on**, whatever its limit: a task that has started can
finish, and if there is none, there is room for one that waits. -/
theorem exists_step (hp : p.phases.length = job.exprs.length) (h : ¬ p.Complete) :
    ∃ s p', s ≠ .cancel ∧ p.step? job s = some p' ∧ p'.remaining < p.remaining := by
  by_cases hstarted : ∃ refused, .started refused ∈ p.phases
  · obtain ⟨refused, hmem⟩ := hstarted
    obtain ⟨i, hi⟩ := List.mem_iff_getElem?.1 hmem
    have hlt : i < job.exprs.length := hp ▸ (List.getElem?_eq_some_iff.1 hi).1
    have he : job.exprs[i]? = some job.exprs[i] := List.getElem?_eq_getElem hlt
    refine ⟨.finish i, ?_⟩
    have hleft : (Phase.done refused).left < (Phase.started refused).left := Nat.zero_lt_one
    cases refused with
    | false =>
      have hstep : p.step? job (.finish i) = some { p with
          phases := p.phases.set i (.done false),
          results := p.results.set i (job.result job.exprs[i]) } := by simp only [step?, hi, he]
      exact ⟨_, Step.noConfusion, hstep, remaining_set hi hleft⟩
    | true =>
      have hstep : p.step? job (.finish i) = some { p with
          phases := p.phases.set i (.done true), failed := true, cancelled := true } := by
        simp only [step?, hi, he]
      exact ⟨_, Step.noConfusion, hstep, remaining_set hi hleft⟩
  · have hwaiting : ∃ ph ∈ p.phases, ph.isDone ≠ true := by simpa [Complete] using h
    obtain ⟨ph, hmem, hdone⟩ := hwaiting
    obtain ⟨i, hi⟩ := List.mem_iff_getElem?.1 hmem
    have hph : ph = .waiting := by
      cases ph with
      | waiting => rfl
      | started refused => exact absurd ⟨refused, hmem⟩ hstarted
      | done => exact absurd rfl hdone
    have hactive : p.active = 0 := by
      refine List.countP_eq_zero.2 fun a ha => ?_
      cases a with
      | started refused => exact absurd ⟨refused, ha⟩ hstarted
      | _ => simp
    rw [hph] at hi
    exact ⟨.start i, _, Step.noConfusion, if_pos ⟨hi, hasRoom_of_idle hactive⟩,
      remaining_set hi Nat.one_lt_two⟩

/-- Every batch can be completed, without cancelling it. -/
theorem exists_complete (hp : p.Accurate job) :
    ∃ more, .cancel ∉ more ∧ (p.execute job more).Complete := by
  induction hn : p.remaining using Nat.strong_induction_on generalizing p with
  | _ n ih =>
    by_cases h : p.Complete
    · exact ⟨[], List.not_mem_nil, h⟩
    · obtain ⟨s, p', hcancel, hs, hlt⟩ := exists_step hp.phases h
      obtain ⟨more, hnone, hmore⟩ := ih p'.remaining (hn ▸ hlt) (hp.step hs) rfl
      refine ⟨s :: more, List.not_mem_cons_of_ne_of_not_mem hcancel.symm hnone, ?_⟩
      show (more.foldl _ ((p.step? job s).getD p)).Complete
      rw [hs]
      exact hmore

/-! ## One task after the other -/

/-- The first `n` tasks are over, and the others wait. -/
structure Through (job : Job) (n : Nat) (p : Progress) : Prop where
  phases : ∀ i : Nat, p.phases[i]? =
    if i < n then some (.done false) else job.exprs[i]?.map fun _ => .waiting
  cancelled : p.cancelled = false

theorem through_initial (job : Job) : (initial job).Through job 0 :=
  ⟨fun _ => List.getElem?_map, rfl⟩

theorem Through.active {n : Nat} (hp : p.Through job n) : p.active = 0 := by
  refine List.countP_eq_zero.2 fun a ha => ?_
  obtain ⟨i, hi⟩ := List.mem_iff_getElem?.1 ha
  rw [hp.phases] at hi
  cases a with
  | started refused => split at hi <;> simp at hi
  | _ => simp

/-- One more task starts and finishes. -/
theorem Through.next {n : Nat} (hp : p.Through job n) (hn : n < job.exprs.length) :
    (p.execute job [.start n, .finish n]).Through job (n + 1) := by
  have hwaiting : p.phases[n]? = some .waiting := by simp [hp.phases, hn]
  have hroom : p.hasRoom job = true := hasRoom_of_idle hp.active
  have hstart : p.step? job (.start n) =
      some { p with phases := p.phases.set n (.started false) } := by
    simp only [step?, hwaiting, hroom, hp.cancelled, true_and, if_true]
  have hstarted : (p.phases.set n (.started false))[n]? = some (.started false) := by
    rw [phases_set hwaiting, if_pos rfl]
  have he : job.exprs[n]? = some job.exprs[n] := List.getElem?_eq_getElem hn
  have hexecute : p.execute job [.start n, .finish n] = { p with
      phases := (p.phases.set n (.started false)).set n (.done false),
      results := p.results.set n (job.result job.exprs[n]) } := by
    simp only [execute, List.foldl_cons, List.foldl_nil, hstart, Option.getD_some]
    simp only [step?, hstarted, he, Option.getD_some]
  rw [hexecute]
  refine ⟨fun i => ?_, hp.cancelled⟩
  simp only [List.set_set]
  rw [phases_set hwaiting, hp.phases i]
  grind

theorem Through.eq_done (hp : p.Through job job.exprs.length) {ph : Phase}
    (hi : p.phases[i]? = some ph) : ph = .done false := by
  rw [hp.phases] at hi
  split at hi
  · exact (Option.some.inj hi).symm
  · rename_i hlt
    rw [List.getElem?_eq_none (Nat.le_of_not_lt hlt)] at hi
    cases hi

theorem through_run (job : Job) : job.run.Through job job.exprs.length := by
  have main : ∀ n ≤ job.exprs.length, ((initial job).execute job
      ((List.range n).flatMap fun i => [.start i, .finish i])).Through job n := by
    intro n hn
    induction n with
    | zero => exact through_initial job
    | succ n ih =>
      rw [List.range_succ, List.flatMap_append, execute, List.foldl_append]
      exact (ih (by omega)).next hn
  exact main _ le_rfl

end Progress

/-! ## Cancellation -/

namespace Job

variable {job : Job} {i : Nat}

/-- Under the schedule, task `i` starts at a moment when the batch has been cancelled. -/
def Observes (job : Job) (schedule : List Step) (i : Nat) : Prop :=
  ∃ before after, schedule = before ++ .start i :: after ∧
    ((job.execute before).step? job (.start i)).isSome ∧ (job.execute before).cancelled = true

theorem observes_concat (schedule : List Step) (s : Step) :
    job.Observes (schedule ++ [s]) i ↔ job.Observes schedule i ∨
      (s = .start i ∧ ((job.execute schedule).step? job s).isSome ∧
        (job.execute schedule).cancelled = true) := by
  constructor
  · rintro ⟨before, after, heq, hstart, hcancelled⟩
    rcases after.eq_nil_or_concat with rfl | ⟨after, s', rfl⟩
    · obtain ⟨rfl, hs⟩ := List.append_inj' heq rfl
      cases hs
      exact .inr ⟨rfl, hstart, hcancelled⟩
    · rw [List.concat_eq_append, ← List.cons_append, ← List.append_assoc] at heq
      exact .inl ⟨before, after, (List.append_inj' heq rfl).1, hstart, hcancelled⟩
  · rintro (⟨before, after, rfl, hstart, hcancelled⟩ | ⟨rfl, hstart, hcancelled⟩)
    · exact ⟨before, after ++ [s], by simp, hstart, hcancelled⟩
    · exact ⟨schedule, [], rfl, hstart, hcancelled⟩

/-- A step refuses a task if it starts it after the batch has been cancelled. -/
theorem refused_step {p p' : Progress} {s : Step} (h : p.step? job s = some p') :
    p'.Refused i ↔ p.Refused i ∨ (s = .start i ∧ p.cancelled = true) := by
  unfold Progress.Refused
  rcases Progress.step?_cases h with ⟨j, rfl, hj, rfl⟩ | ⟨j, e, rfl, hj, -, rfl⟩ |
    ⟨j, rfl, hj, rfl⟩ | ⟨rfl, rfl⟩
  · simp only [Progress.phases_set hj]
    grind [Phase.isRefused]
  · simp only [Progress.phases_set hj]
    grind [Phase.isRefused]
  · simp only [Progress.phases_set hj]
    grind [Phase.isRefused]
  · simp

/-- **The refused tasks are those that observe the cancellation.** -/
theorem refused_iff_observes (job : Job) (schedule : List Step) (i : Nat) :
    (job.execute schedule).Refused i ↔ job.Observes schedule i := by
  induction schedule using List.reverseRecOn with
  | nil =>
    constructor
    · rintro ⟨ph, hi, hrefused⟩
      cases Progress.phase_initial hi
      cases hrefused
    · rintro ⟨before, after, heq, -⟩
      simp at heq
  | append_singleton schedule s ih =>
    rw [observes_concat, ← ih]
    have hconcat : job.execute (schedule ++ [s]) =
        ((job.execute schedule).step? job s).getD (job.execute schedule) :=
      Progress.execute_concat job (Progress.initial job) schedule s
    rw [hconcat]
    cases hs : (job.execute schedule).step? job s with
    | none => simp
    | some p' =>
      rw [Option.getD_some, refused_step hs]
      simp

theorem accurate (job : Job) (schedule : List Step) : (job.execute schedule).Accurate job :=
  (Progress.accurate_initial job).execute schedule

/-- What an inference tells is never empty: no type can be inferred for an absent expression. -/
theorem result_ne_empty (job : Job) (e : Expr) : job.result e ≠ {} := by
  intro h
  have he : e = .absent := congrArg Result.expr h
  have houtcome : (job.context.infer e job.env).1 = .ok .absent := congrArg Result.outcome h
  simp [Context.infer, he] at houtcome

/-- One task after the other, no task is refused. -/
theorem run_results (job : Job) : job.run.results = job.exprs.map job.result := by
  have hthrough := Progress.through_run job
  have hcomplete : job.run.Complete := by
    intro ph hph
    obtain ⟨i, hi⟩ := List.mem_iff_getElem?.1 hph
    rw [hthrough.eq_done hi]
    rfl
  refine hcomplete.results_eq (job.accurate (inOrder job)) ?_
  rintro i ⟨ph, hi, hrefused⟩
  cases hthrough.eq_done hi
  cases hrefused

end Job

/-! ## Agreement -/

/-- **A batch agrees with one inference after the other**, for any expressions and any limit, and
whether or not steps are recorded. Every schedule can be completed without cancelling the batch, and
there is one result for each expression. Let all tasks be over. The result of a task is empty
exactly if the task observed that the batch was cancelled; otherwise it holds the expression and
what an inference in a new context tells about it. The batch has not failed exactly if no task
observed a cancellation, and then its results are those of one task after the other. -/
theorem execute_agrees (env : Env) (exprs : List Expr) (limit : Int) (trace listen : Bool)
    (schedule : List Step) :
    let job : Job := { env, exprs, limit, context := ({} : Context).trace trace listen }
    let p := job.execute schedule
    (∃ more, .cancel ∉ more ∧ (job.execute (schedule ++ more)).Complete) ∧
    p.results.length = exprs.length ∧
    (p.Complete →
      (∀ i e, exprs[i]? = some e → ∃ res, p.results[i]? = some res ∧
        (res = {} ↔ job.Observes schedule i) ∧
        (¬ job.Observes schedule i → res.Tells e (({} : Context).infer e env))) ∧
      (p.failed = false ↔ ∀ i, ¬ job.Observes schedule i) ∧
      (p.failed = false → p.results = job.run.results)) := by
  intro job p
  have hp : p.Accurate job := job.accurate schedule
  have hobserves : ∀ i, p.Refused i ↔ job.Observes schedule i := job.refused_iff_observes schedule
  refine ⟨?_, hp.length_results, fun hcomplete => ?_⟩
  · obtain ⟨more, hnone, hmore⟩ := Progress.exists_complete hp
    refine ⟨more, hnone, ?_⟩
    rwa [Job.execute, Progress.execute, List.foldl_append]
  have hfailed : p.failed = false ↔ ∀ i, ¬ job.Observes schedule i := by
    rw [← Bool.not_eq_true, hcomplete.failed_iff hp]
    simp only [hobserves, not_exists]
  refine ⟨fun i e he => ?_, hfailed, fun hnone => ?_⟩
  · rcases hcomplete.result hp he with ⟨hrefused, hres⟩ | ⟨hrefused, hres⟩ <;>
      rw [hobserves] at hrefused
    · exact ⟨{}, hres, iff_of_true rfl hrefused, fun h => absurd hrefused h⟩
    · refine ⟨job.result e, hres, iff_of_false (job.result_ne_empty e) hrefused, fun _ => ?_⟩
      exact ⟨rfl, Context.infer_trace trace listen e env⟩
  · rw [job.run_results]
    exact hcomplete.results_eq hp fun i hi => hfailed.1 hnone i ((hobserves i).1 hi)

/-- Two tasks start, in reverse order, before the batch is cancelled. The third one has to wait for
them, because of the limit, and is refused. -/
theorem execute_agrees_when_cancelled :
    let env : Env := [[("z", .var "int")]]
    let exprs : List Expr := [.fn "x" (.var "x"), .var "y", .var "z"]
    let job : Job := { env, exprs, limit := 2, context := ({} : Context).trace true true }
    let schedule : List Step :=
      [.start 1, .start 0, .start 2, .cancel, .finish 1, .start 2, .finish 2, .finish 0]
    ((job.execute schedule).Complete ∧ job.Observes schedule 2 ∧ ¬ job.Observes schedule 1) ∧
    (job.execute schedule).results[2]? = some ({} : Result) ∧
    (∃ res, (job.execute schedule).results[1]? = some res ∧
      res.Tells (.var "y") (({} : Context).infer (.var "y") env)) ∧
    (job.execute schedule).failed ≠ false := by
  intro env exprs job schedule
  have hcomplete : (job.execute schedule).Complete := by decide +kernel
  have hobserves : job.Observes schedule 2 :=
    ⟨[.start 1, .start 0, .start 2, .cancel, .finish 1], [.finish 2, .finish 0], rfl,
      by decide +kernel, by decide +kernel⟩
  have hnot : ¬ job.Observes schedule 1 := by
    rw [← job.refused_iff_observes]
    rintro ⟨ph, hph, hrefused⟩
    have hdone : (job.execute schedule).phases[1]? = some (.done false) := by decide +kernel
    rw [hdone] at hph
    cases hph
    cases hrefused
  obtain ⟨hresults, hfailed, -⟩ := (execute_agrees env exprs 2 true true schedule).2.2 hcomplete
  obtain ⟨res₂, hres₂, hempty, -⟩ := hresults 2 (.var "z") rfl
  obtain ⟨res₁, hres₁, -, htells⟩ := hresults 1 (.var "y") rfl
  rw [hempty.2 hobserves] at hres₂
  exact ⟨⟨hcomplete, hobserves, hnot⟩, hres₂, ⟨res₁, hres₁, htells hnot⟩,
    fun h => hfailed.1 h 2 hobserves⟩

end Batch

end RankN
