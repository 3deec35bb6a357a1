import Mathlib.Algebra.GroupWithZero.Nat
import NestHarness.Queue.Ledger

/-!
# Exactly-once delivery

With one consumer for each key, every job runs the body of its own call once, a consumer's jobs run
one after the other in the order they were added, and each call gets the outcome of its own job. The
calls, workers and bodies of a process come to rest after finitely many steps, and then no job and
no call is left over.
-/

namespace NestHarness

namespace Ledger

/-- Each job is that of a call of its own, starts one body at most, which is that of its call, and
ends at most once; the bodies of a consumer start in the order of the jobs, each after the end of
the one before; a call gets the outcome of its job. -/
structure ExactlyOnce (s : Ledger) (P : Process) : Prop where
  added : s.adders.length = s.deployment.jobs.length
  adders : s.adders.Nodup
  own : ∀ e ∈ s.executions, ∃ d, s.adders[e.job]? = some d ∧ e.Of P d
  once : (s.executions.map (·.job)).Nodup
  fifo : ∀ key, s.executed key <+: s.deployment.queueOf key
  serial : ∀ e ∈ s.executions, ∀ e' ∈ s.executions, e.consumerKey = e'.consumerKey →
    e.job ∉ s.outcomes.map (·.1) → e'.job ∉ s.outcomes.map (·.1) → e.job = e'.job
  ended : ∀ j ∈ s.outcomes.map (·.1), j ∈ s.executions.map (·.job)
  outcomes : (s.outcomes.map (·.1)).Nodup
  results : (s.results.map (·.1)).Nodup
  settled : ∀ d o, (d, o) ∈ s.results → ∃ j r, s.adders[j]? = some d ∧ (j, r) ∈ s.outcomes ∧
    o = WriteQueueRegistry.dispatched r

/-- A step of a call, a worker or a body. -/
def Event.work : Event → Bool
  | .dispatch _ | .take _ | .finish _ _ => true
  | .load _ | .startup | .call _ _ => false

/-- No call, worker or body can go on. -/
def AtRest (handlerOf : UseQueueMethod → JobHandler) (s : Ledger) : Prop :=
  ∀ e : Event, e.work = true → step handlerOf s e = none

/-- Every job of a queue has been executed, and every call has got the outcome of its job. -/
structure Drained (s : Ledger) (P : Process) : Prop where
  executed : ∀ key, s.executed key = s.deployment.queueOf key
  settled : ∀ (d : Nat) (c : Dispatch), P.dispatches[d]? = some c → ∃ j r, s.adders[j]? = some d ∧
    j ∈ s.executions.map (·.job) ∧ (j, r) ∈ s.outcomes ∧
    (d, WriteQueueRegistry.dispatched r) ∈ s.results

variable {handlerOf : UseQueueMethod → JobHandler} {s s' : Ledger} {P P' : Process} {d i j : Nat}
  {c : Dispatch} {job : Job}

theorem Kept.exec {ls : List Event} (h : Run.exec (Ledger.step handlerOf) s ls = some s')
    (hs : ∃ P, Kept handlerOf s P) : ∃ P, Kept handlerOf s' P := by
  refine Run.invariant (I := fun s => ∃ P, Kept handlerOf s P) ?_ h hs
  intro s e s' ⟨P, hP⟩ hstep
  obtain ⟨P', hP', _⟩ := hP.step hstep
  exact ⟨P', hP'⟩

theorem Progress.running (h : Progress s P) (hjob : s.deployment.jobs[j]? = some job)
    (hstarted : job.state.started = true) (hended : j ∉ s.outcomes.map (·.1)) :
    job.state.running = true := by
  have hknown := h.known job (List.mem_of_getElem? hjob)
  have hend := h.ended j job hjob
  obtain ⟨queue, name, args, state⟩ := job
  cases state with
  | active => rfl
  | waiting => cases hstarted
  | completed | failed => exact absurd (hend rfl) hended
  | stalled | noHandler => exact hknown.elim

theorem Kept.exactlyOnce (h : Kept handlerOf s P) (hone : (P.built.map (·.consumerKey)).Nodup) :
    s.ExactlyOnce P where
  added := h.length
  adders := h.adders
  own := h.execution
  once := h.executions
  fifo := (h.progress hone).fifo
  serial e he e' he' hkey hend hend' := by
    have hprogress := h.progress hone
    obtain ⟨job, hjob, hstarted⟩ := h.begun e.job (List.mem_map_of_mem he)
    obtain ⟨job', hjob', hstarted'⟩ := h.begun e'.job (List.mem_map_of_mem he')
    have hqueue : job.queue = job'.queue :=
      (h.executed_queue he hjob).symm.trans (hkey.trans (h.executed_queue he' hjob'))
    exact hprogress.serial e.job e'.job job job' hjob hjob' hqueue
      (hprogress.running hjob hstarted hend) (hprogress.running hjob' hstarted' hend')
  ended j hj := by
    obtain ⟨job, hjob, hended⟩ := h.ended j hj
    refine (h.progress hone).started j job hjob ?_
    cases hs : job.state with
    | completed | failed => rfl
    | waiting | active | stalled | noHandler =>
      rw [hs] at hended
      cases hended
  outcomes := h.outcomes
  results := h.results
  settled := h.result

/-! ## Rest -/

theorem AtRest.finish (h : s.AtRest handlerOf) (hjob : s.deployment.jobs[j]? = some job) {p : Nat}
    {handler : JobHandler} : job.state ≠ .active p i handler := by
  intro hs
  have hnone := h (.finish j (.ok .null)) rfl
  simp [Ledger.step, Event.toDeployment, Deployment.step, hjob, hs] at hnone

theorem AtRest.not_busy (h : s.AtRest handlerOf) (p i : Nat) : s.deployment.busy p i = false := by
  rw [Deployment.busy, List.any_eq_false]
  intro job hmem hbusy
  obtain ⟨j, hjob⟩ := List.mem_iff_getElem?.mp hmem
  cases hs : job.state with
  | active p' i' handler => exact h.finish hjob hs
  | waiting | stalled | completed | failed | noHandler => simp [hs] at hbusy

theorem Kept.not_waiting (h : Kept handlerOf s P) (hrest : s.AtRest handlerOf)
    (hjob : s.deployment.jobs[j]? = some job) : job.state ≠ .waiting := by
  intro hwaiting
  obtain ⟨i, hkey, _⟩ := h.dispatched h.faithful.toInv hjob
  obtain ⟨b, hb, hbkey⟩ := Process.keyOf_eq_some.mp hkey
  have hsome : (s.deployment.oldest b.consumerKey).isSome := by
    rw [Deployment.oldest, List.findIdx?_isSome, List.any_eq_true]
    exact ⟨job, List.mem_of_getElem? hjob, decide_eq_true ⟨hbkey.symm, hwaiting⟩⟩
  obtain ⟨k, hk⟩ := Option.isSome_iff_exists.mp hsome
  obtain ⟨⟨job', hjob', _⟩, _⟩ := oldest_cases hk
  have hnone := hrest (.take i) rfl
  simp [Ledger.step, Event.toDeployment, Deployment.step, h.process, hb, hk, hjob',
    hrest.not_busy 0 i] at hnone

theorem Kept.all_ended (h : Kept handlerOf s P) (hone : (P.built.map (·.consumerKey)).Nodup)
    (hrest : s.AtRest handlerOf) (hjob : s.deployment.jobs[j]? = some job) :
    job.state.ended = true := by
  have hknown := (h.progress hone).known job (List.mem_of_getElem? hjob)
  have hwaiting := h.not_waiting hrest hjob
  obtain ⟨queue, name, args, state⟩ := job
  cases state with
  | completed | failed => rfl
  | waiting => exact absurd rfl hwaiting
  | active => exact absurd rfl (hrest.finish hjob)
  | stalled | noHandler => exact hknown.elim

theorem Kept.all_settled (h : Kept handlerOf s P) (hone : (P.built.map (·.consumerKey)).Nodup)
    (hrest : s.AtRest handlerOf) (hc : P.dispatches[d]? = some c) : ∃ i, c.state = .settled i := by
  have hnone := hrest (.dispatch d) rfl
  have hstep : Deployment.dispatchStep s.deployment 0 P d c = none := by
    simpa [Ledger.step, Event.toDeployment, Deployment.step, h.process, hc] using hnone
  have hensured := h.faithful.ensured c (List.mem_of_getElem? hc)
  have haccepted := h.accepted d
  rw [Process.stateOf_eq hc] at haccepted
  obtain ⟨method, handler, args, state⟩ := c
  cases state with
  | called =>
    simp only [Deployment.dispatchStep] at hstep
    split at hstep <;> cases hstep
  | connecting i => cases hstep
  | ensured =>
    obtain ⟨i, hi⟩ := Option.isSome_iff_exists.mp (hensured rfl)
    simp [Deployment.dispatchStep, hi] at hstep
  | got i => cases hstep
  | accepted i j =>
    have hlt := h.adder_lt (haccepted i j rfl)
    have hjob := List.getElem?_eq_getElem hlt
    have hended := h.all_ended hone hrest hjob
    simp only [Deployment.dispatchStep, hjob] at hstep
    generalize s.deployment.jobs[j] = job at hended hstep
    obtain ⟨_, _, _, state⟩ := job
    cases state with
    | completed | failed => cases hstep
    | waiting | active | stalled | noHandler => cases hended
  | settled i => exact ⟨i, rfl⟩

theorem eq_of_prefix {l xs : List Nat} (h : l <+: xs) (hxs : xs.Nodup) (hall : ∀ x ∈ xs, x ∈ l) :
    l = xs := by
  obtain ⟨t, rfl⟩ := h
  cases t with
  | nil => exact (List.append_nil l).symm
  | cons x t =>
    have hl := hall x (List.mem_append_right _ List.mem_cons_self)
    exact absurd rfl ((List.nodup_append.mp hxs).2.2 x hl x List.mem_cons_self)

theorem Kept.drained (h : Kept handlerOf s P) (hone : (P.built.map (·.consumerKey)).Nodup)
    (hrest : s.AtRest handlerOf) : s.Drained P where
  executed key := by
    refine eq_of_prefix ((h.progress hone).fifo key) ?_ ?_
    · exact (List.pairwise_lt_range.filter _).imp Nat.ne_of_lt
    · intro j hj
      obtain ⟨job, hjob, hkey⟩ := mem_queueOf.mp hj
      have hj := (h.exactlyOnce hone).ended j
        ((h.progress hone).ended j job hjob (h.all_ended hone hrest hjob))
      obtain ⟨e, he, rfl⟩ := List.mem_map.mp hj
      exact mem_executed.mpr ⟨e, he, (h.executed_queue he hjob).trans hkey, rfl⟩
  settled d c hc := by
    obtain ⟨i, hi⟩ := h.all_settled hone hrest hc
    have hd := (h.progress hone).settled d i ((Process.stateOf_eq hc).trans (congrArg some hi))
    obtain ⟨⟨_, o⟩, ho, rfl⟩ := List.mem_map.mp hd
    obtain ⟨j, r, hj, hr, rfl⟩ := h.result _ o ho
    exact ⟨j, r, hj, (h.exactlyOnce hone).ended j (List.mem_map_of_mem hr), hr, ho⟩

end Ledger

/-! ## The steps that are left -/

/-- More than what a call and its job have left when the call moves on. -/
def DispatchState.left : DispatchState → Nat
  | .called => 7
  | .connecting _ => 6
  | .ensured => 5
  | .got _ => 4
  | .accepted _ _ => 1
  | .settled _ => 0

def JobState.left : JobState → Nat
  | .waiting => 2
  | .active _ _ _ => 1
  | .stalled | .completed | .failed | .noHandler _ => 0

theorem DispatchMove.left {jobs : List Job} {P P' : Process} {d : Nat} {c : Dispatch}
    (hm : DispatchMove jobs P d c P') : ∃ t,
      P'.dispatches = P.dispatches.modify d ({ · with state := t }) ∧
      t.left + (c.added.map (·.state.left)).sum < c.state.left := by
  cases hm with
  | found hs | construct hs | store hs | get hs | add hs | settle hs =>
    refine ⟨_, rfl, ?_⟩
    simp [Dispatch.added, hs, DispatchState.left, JobState.left]

theorem sum_modify {α : Type} {xs : List α} {f : α → α} {g : α → Nat} {i : Nat} {x : α}
    (h : xs[i]? = some x) :
    ((xs.modify i f).map g).sum + g x = (xs.map g).sum + g (f x) := by
  induction xs generalizing i with
  | nil => cases h
  | cons y xs ih =>
    cases i with
    | zero =>
      cases h
      simp
      omega
    | succ i =>
      have hi := ih (i := i) h
      simp only [List.modify_succ_cons, List.map_cons, List.sum_cons]
      omega

namespace Ledger

variable {handlerOf : UseQueueMethod → JobHandler} {s s' : Ledger} {P P' : Process} {d i j : Nat}
  {c : Dispatch} {job : Job}

/-- A bound on the steps the calls, workers and bodies have left. -/
def left (s : Ledger) (P : Process) : Nat :=
  (P.dispatches.map (·.state.left)).sum + (s.deployment.jobs.map (·.state.left)).sum

theorem left_setJob {t : JobState} (hjob : s.deployment.jobs[j]? = some job)
    (ht : t.left < job.state.left) :
    ((s.deployment.setJob j t).jobs.map (·.state.left)).sum <
      (s.deployment.jobs.map (·.state.left)).sum := by
  have hsum := sum_modify (f := fun job : Job => { job with state := t })
    (g := fun job : Job => job.state.left) hjob
  simp only [Deployment.setJob]
  simp only at hsum
  omega

theorem Kept.left_step {e : Event} (h : Kept handlerOf s P) (hwork : e.work = true)
    (hs : Ledger.step handlerOf s e = some s') :
    ∃ P', Kept handlerOf s' P' ∧ s'.left P' < s.left P := by
  obtain ⟨P', hP', _⟩ := h.step hs
  refine ⟨P', hP', ?_⟩
  obtain ⟨dep, hdep, rfl⟩ := Option.map_eq_some_iff.mp hs
  cases e with
  | load | startup | call => cases hwork
  | dispatch d =>
    simp only [Event.toDeployment, Deployment.step, Option.bind_eq_bind,
      Option.bind_eq_some_iff] at hdep
    obtain ⟨Q, hQ, c, hc, hdep⟩ := hdep
    cases h.process.symm.trans hQ
    obtain ⟨Q', hm, hprocesses, hjobs⟩ := Deployment.dispatchStep_cases hdep
    obtain ⟨t, ht, hlt⟩ := hm.left
    have hQ' : some Q' = some P' := by
      rw [← hP'.process, hprocesses]
      simp
    cases hQ'
    have hsum := sum_modify (f := fun c : Dispatch => { c with state := t })
      (g := fun c : Dispatch => c.state.left) hc
    simp only [left, hjobs, ht, List.map_append, List.sum_append_nat]
    simp only at hsum
    omega
  | take i =>
    obtain ⟨Q, b, j, job, hQ, hb, hj, hjob, rfl⟩ := Deployment.step_take hdep
    cases h.process.symm.trans hQ
    cases (show some P = some P' from h.process.symm.trans hP'.process)
    obtain ⟨⟨job', hjob', _, hwaiting⟩, _⟩ := oldest_cases hj
    cases hjob.symm.trans hjob'
    refine Nat.add_lt_add_left (left_setJob hjob ?_) _
    rw [hwaiting, Deployment.takenState]
    split <;> simp [JobState.left]
  | finish j o =>
    obtain ⟨job, hjob, hdep⟩ := Option.bind_eq_some_iff.mp hdep
    split at hdep
    · next hactive =>
      cases hdep
      cases (show some P = some P' from h.process.symm.trans hP'.process)
      refine Nat.add_lt_add_left (left_setJob hjob ?_) _
      rw [hactive]
      split <;> simp [JobState.left]
    · cases hdep

/-- A process comes to rest after finitely many steps. -/
theorem Kept.length_le {ls : List Event} (h : Kept handlerOf s P)
    (hwork : ∀ e ∈ ls, e.work = true) (hs : Run.exec (Ledger.step handlerOf) s ls = some s') :
    ls.length ≤ s.left P := by
  induction ls generalizing s P with
  | nil => exact Nat.zero_le _
  | cons e ls ih =>
    obtain ⟨t, ht, hs⟩ := Run.exec_cons_iff.mp hs
    obtain ⟨P', hP', hlt⟩ := h.left_step (hwork e List.mem_cons_self) ht
    have hle := ih hP' (fun e he => hwork e (List.mem_cons_of_mem _ he)) hs
    simp only [List.length_cons]
    omega

/-- In every run of a process in which no key has got a second consumer, each job is executed at
most once, for its own call, in the order of its queue; once the calls, workers and bodies have come
to rest, which takes them a bounded number of steps, each job has been executed and each call
settled. -/
theorem delivered {methods : List UseQueueMethod} {ls : List Event}
    (h : Run.exec (Ledger.step handlerOf) (Ledger.start methods) ls = some s)
    (hP : s.deployment.processes 0 = some P) (hone : (P.built.map (·.consumerKey)).Nodup) :
    s.ExactlyOnce P ∧ (s.AtRest handlerOf → s.Drained P) ∧
      ∃ n, ∀ ls' s', (∀ e ∈ ls', e.work = true) →
        Run.exec (Ledger.step handlerOf) s ls' = some s' → ls'.length ≤ n := by
  obtain ⟨P', hkept⟩ := Kept.exec h ⟨_, .start methods⟩
  cases hP.symm.trans hkept.process
  refine ⟨hkept.exactlyOnce hone, hkept.drained hone, s.left P, ?_⟩
  intro ls' s' hwork hs'
  exact hkept.length_le hwork hs'

/-- A sign-in and a sign-up of one process, interleaved up to the answers. -/
def servedBoth : List Event :=
  [.startup, .startup, .call Deployment.signInMethod [.str "sign-in"],
    .call Deployment.adminCreateMethod [.str "account"], .dispatch 1, .dispatch 0, .dispatch 1,
    .dispatch 0, .dispatch 1, .dispatch 0, .take 0, .finish 0 (.ok .null), .take 0,
    .dispatch 1, .finish 1 (.ok (.str "tokens")), .dispatch 0]

def userService (m : UseQueueMethod) : JobHandler :=
  ⟨0, if m = Deployment.signInMethod then 1 else 0⟩

def userMethods : List UseQueueMethod := [Deployment.adminCreateMethod, Deployment.signInMethod]

def servedLedger : Ledger :=
  (Run.exec (step userService) (start userMethods) servedBoth).get (by decide +kernel)

def servedProcess : Process := (servedLedger.deployment.processes 0).get (by decide +kernel)

theorem delivered_sample :
    Run.exec (step userService) (start userMethods) servedBoth = some servedLedger ∧
      servedLedger.adders = [1, 0] ∧ servedLedger.executed "user-consumer" = [0, 1] ∧
      servedLedger.results.map (·.1) = [1, 0] ∧ servedLedger.ExactlyOnce servedProcess := by
  have h : Run.exec (step userService) (start userMethods) servedBoth = some servedLedger :=
    (Option.some_get _).symm
  refine ⟨h, by decide +kernel, by decide +kernel, by decide +kernel, ?_⟩
  exact (delivered h (Option.some_get _).symm (by decide +kernel)).1

end Ledger

end NestHarness
