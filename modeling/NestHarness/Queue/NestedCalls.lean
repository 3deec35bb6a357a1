import Mathlib.Logic.Relation
import NestHarness.Queue.CallTree

/-!
# Nested calls of decorated methods

A call from the body of a decorated method never reaches a queue: only the calls from outside of a
worker are dispatched, every other one is an execution in the job of its root. Seen without the
queue, a run of decorated calls is a run of the undecorated methods.
-/

namespace NestHarness

open Js (Value)

open Relation

/-- What the caller gets in place of an outcome: the JSON of the value, or an `HttpException`. It
has the status and the response of an `HttpException` that was thrown, and for a plain error status
500 and the message. -/
def Nest.Carries (N : Nest) (frames : String) : Outcome → Outcome → Prop
  | .ok value, o => o = .ok value.normalize
  | .error e, o => ∃ response status,
      o = .error (N.httpException "HttpException" response status frames) ∧
      (∀ name thrown code frames',
        e = N.httpException name (.ofJson thrown) (.num code) frames' →
        ((∃ s, thrown = .str s) ∨ ∃ fields, thrown = .obj fields) →
          response = .ofJson thrown ∧ status = .num code) ∧
      (e.getResponse = none → e.getStatus = none →
        response = .obj [("message", .str e.message)] ∧ status = .num 500)

theorem Nest.carries_settled (N : Nest) (frames : String) (o : Outcome) :
    N.Carries frames o (WriteQueueRegistry.settled N frames (WriteQueueRegistry.finished o)) := by
  cases o with
  | ok value => rfl
  | error e =>
    let method : OriginalFn := fun _ => .error e
    have hmethod : method (([] : List Value).map (·.normalize)) = .error e := rfl
    have hdispatch : WriteQueueRegistry.dispatch N frames method [] = .error _ :=
      dispatch_error hmethod
    rw [WriteQueueRegistry.dispatch_eq, hmethod] at hdispatch
    refine ⟨_, _, hdispatch, ?_, ?_⟩
    · rintro name thrown code frames' rfl hthrown
      have hnullish : (Value.ofJson thrown).nullish = false := by
        rcases hthrown with ⟨s, rfl⟩ | ⟨fields, rfl⟩ <;> rfl
      simp only [Nest.httpException, coalesce_some hnullish]
      exact ⟨throughJson_ofJson thrown, rfl⟩
    · intro hresponse hstatus
      rw [hresponse, hstatus]
      exact ⟨rfl, rfl⟩

namespace CallTree

variable {σ : Type}

/-- What an execution waits for. -/
def Awaits (s : CallTree σ) (p q : CallPromise) : Prop :=
  ∃ a A i next, p = .body a ∧ s.activations[a]? = some A ∧ A.code = .await i next ∧
    A.calls[i]? = some q

/-- The execution `a` has called the execution `b` directly. -/
def Calls (s : CallTree σ) (a b : Nat) : Prop :=
  ∃ B, s.activations[b]? = some B ∧ B.caller = some a

/-- Only calls from outside are dispatched, each has one job from `queue.add` on, which gets its
arguments through JSON, and there are no other jobs. Every execution runs in the context of a
worker, in the tree of the body of a job, and what it waits for, itself or through its calls, is
never a dispatch. -/
structure Inline (s : CallTree σ) : Prop where
  outside : ∀ D ∈ s.dispatches, D.caller = none
  unique : (s.jobs.map (·.dispatch)).Nodup
  own : ∀ J ∈ s.jobs, ∃ D, s.dispatches[J.dispatch]? = some D ∧ J.method = D.method ∧
    J.args = D.args.map (·.normalize)
  enqueued : ∀ (d : Nat) (D : Queued), s.dispatches[d]? = some D → D.state.job.isSome = true →
    d ∈ s.jobs.map (·.dispatch)
  inline : ∀ (a : Nat) (A : Activation σ), s.activations[a]? = some A → A.processing = true ∧
    ∃ J ∈ s.jobs, ∃ r, J.state.body = some r ∧ ReflTransGen s.Calls r a
  unsuspended : ∀ a p, ReflTransGen s.Awaits (.body a) p → ∃ b, p = .body b

/-- What the methods have done, without the queue. -/
def erase (s : CallTree σ) : CallTree σ where
  store := s.store
  activations := s.activations.map ({ · with processing := false })
  dispatches := []
  jobs := []

/-- The steps that are the queue's. -/
def overhead (s : CallTree σ) : Nat :=
  s.dispatches.length + s.jobs.length + s.jobs.countP (·.state.isFinished) +
    s.dispatches.countP (·.state.isSettled)

/-- The outcome `o` of a call from outside is that of an execution of its method, on the JSON of its
arguments. -/
def Answers (N : Nest) (frames : String) (u : CallTree σ) (D : Queued) (o : Outcome) : Prop :=
  ∃ A ∈ u.activations, A.caller = none ∧ A.method = D.method ∧
    A.args = D.args.map (·.normalize) ∧ ∃ o', A.code = .settle o' ∧ N.Carries frames o' o

/-- A step that is not a call from outside. -/
def Event.work : Event → Bool
  | .call _ _ => false
  | .run _ | .add _ | .take _ | .finish _ | .settle _ => true

/-- Nothing can go on. -/
def AtRest (N : Nest) (frames : String) (original : UseQueueMethod → List Value → Code σ)
    (s : CallTree σ) : Prop :=
  ∀ e : Event, e.work = true → step N frames original decorated s e = none

variable {N : Nest} {frames : String} {original : UseQueueMethod → List Value → Code σ}
  {s s' : CallTree σ} {e : Event} {a d j : Nat} {A : Activation σ} {D : Queued} {J : WriteJob}

/-! ## Executions in the job of their root -/

theorem Inv.unsuspended (h : Inv N frames s) {p : CallPromise}
    (hwaits : ReflTransGen s.Awaits (.body a) p) : ∃ b, p = .body b := by
  induction hwaits with
  | refl => exact ⟨a, rfl⟩
  | tail _ hstep _ =>
    obtain ⟨b, B, i, _, _, hB, _, hq⟩ := hstep
    obtain ⟨c, hc, _⟩ := h.scope.calls b B hB _ (List.mem_of_getElem? hq)
    exact ⟨c, hc⟩

theorem Inv.rooted (h : Inv N frames s) (hA : s.activations[a]? = some A) :
    ∃ J ∈ s.jobs, ∃ r, J.state.body = some r ∧ ReflTransGen s.Calls r a := by
  induction a using Nat.strongRecOn generalizing A with
  | ind a ih =>
    cases hcaller : A.caller with
    | none =>
      obtain ⟨j, J, hJ, hbody⟩ := h.books.served a A hA hcaller
      exact ⟨J, List.mem_of_getElem? hJ, a, hbody, .refl⟩
    | some c =>
      have hlt := h.scope.caller a A hA c hcaller
      have hc : c < s.activations.length := hlt.trans (List.getElem?_eq_some_iff.mp hA).1
      obtain ⟨J, hJ, r, hbody, hcalls⟩ := ih c hlt (List.getElem?_eq_getElem hc)
      exact ⟨J, hJ, r, hbody, hcalls.tail ⟨A, hA, hcaller⟩⟩

/-- A dispatch knows its job, so it has one. -/
theorem Inv.nodup_dispatch (h : Inv N frames s) : (s.jobs.map (·.dispatch)).Nodup := by
  rw [List.Nodup, List.pairwise_map, List.pairwise_iff_getElem]
  intro i j hi hj hij heq
  obtain ⟨D, hD, hjob, _⟩ := h.books.added i _ (List.getElem?_eq_getElem hi)
  obtain ⟨D', hD', hjob', _⟩ := h.books.added j _ (List.getElem?_eq_getElem hj)
  rw [heq] at hD
  cases hD.symm.trans hD'
  exact absurd (Option.some.inj (hjob.symm.trans hjob')) (Nat.ne_of_lt hij)

theorem Inv.length_jobs_le (h : Inv N frames s) : s.jobs.length ≤ s.dispatches.length := by
  have hsubset : s.jobs.map (·.dispatch) ⊆ List.range s.dispatches.length := by
    intro d hd
    obtain ⟨J, hJ, rfl⟩ := List.mem_map.mp hd
    obtain ⟨j, hj⟩ := List.mem_iff_getElem?.mp hJ
    obtain ⟨D, hD, _⟩ := h.books.added j J hj
    exact List.mem_range.mpr (List.getElem?_eq_some_iff.mp hD).1
  have hle := List.Nodup.length_le_of_subset h.nodup_dispatch hsubset
  rwa [List.length_map, List.length_range] at hle

theorem Inv.inline (h : Inv N frames s) : s.Inline where
  outside := h.books.outside
  unique := h.nodup_dispatch
  own J hJ := by
    obtain ⟨j, hj⟩ := List.mem_iff_getElem?.mp hJ
    obtain ⟨D, hD, _, hrest⟩ := h.books.added j J hj
    exact ⟨D, hD, hrest⟩
  enqueued d D hD hjob := by
    obtain ⟨j, hj⟩ := Option.isSome_iff_exists.mp hjob
    obtain ⟨J, hJ, rfl⟩ := h.books.job d D j hD hj
    exact List.mem_map_of_mem (List.mem_of_getElem? hJ)
  inline a A hA := ⟨h.scope.processing A (List.mem_of_getElem? hA), h.rooted hA⟩
  unsuspended a p := h.unsuspended

/-! ## The undecorated methods -/

theorem getElem?_erase : s.erase.activations[a]? =
    s.activations[a]?.map ({ · with processing := false }) := List.getElem?_map

theorem outcome_erase (b : Nat) : s.erase.outcome (.body b) = s.outcome (.body b) := by
  simp only [outcome, getElem?_erase]
  cases s.activations[b]? <;> rfl

theorem erase_resume (code : Code σ) : (s.resume a A code).erase =
    s.erase.resume a { A with processing := false } code := by
  simp [erase, resume]

/-- An execution goes on alike with and without the wrapper. -/
theorem Inv.advance_erase (h : Inv N frames s) (hA : s.activations[a]? = some A) :
    (s.advance original decorated a A).map erase =
      s.erase.advance original undecorated a { A with processing := false } := by
  have hprocessing := h.scope.processing A (List.mem_of_getElem? hA)
  have hcalls := h.scope.calls a A hA
  obtain ⟨method, args, processing, caller, calls, code⟩ := A
  subst hprocessing
  cases code with
  | settle o => rfl
  | act work next => exact congrArg some (by rw [← erase_resume]; rfl)
  | call method' args' next =>
    simp [CallTree.advance, erase, resume, invoke, promise, decorated, useQueue, undecorated]
  | await i next =>
    simp only [CallTree.advance]
    cases hp : calls[i]? with
    | none => exact congrArg some (erase_resume _)
    | some p =>
      obtain ⟨b, rfl, _⟩ := hcalls p (List.mem_of_getElem? hp)
      simp only [outcome_erase, Option.map_map]
      exact congrArg (Option.map · _) (funext fun o => erase_resume _)

theorem Inv.run_erase (h : Inv N frames s) (a : Nat) :
    (CallTree.step N frames original decorated s (.run a)).map erase =
      CallTree.step N frames original undecorated s.erase (.run a) := by
  simp only [CallTree.step, getElem?_erase]
  cases hA : s.activations[a]? with
  | none => rfl
  | some A => exact h.advance_erase hA

theorem countP_set_of_false {α : Type} {xs : List α} {y : α} {i : Nat} (h : xs[i]? = some y) (x : α)
    (p : α → Bool) (hy : p y = false) :
    (xs.set i x).countP p = xs.countP p + if p x then 1 else 0 := by
  obtain ⟨hlt, rfl⟩ := List.getElem?_eq_some_iff.mp h
  rw [List.countP_set hlt, hy, if_neg Bool.false_ne_true, Nat.sub_zero]

theorem invoke_outside {method : UseQueueMethod} {args : List Value} :
    s.invoke original decorated false none method args =
      { s with dispatches := s.dispatches ++ [⟨method, args, none, .called⟩] } := rfl

theorem Inv.advance_overhead (h : Inv N frames s) (hA : s.activations[a]? = some A)
    (hadvance : s.advance original decorated a A = some s') : s'.overhead = s.overhead := by
  have hprocessing := h.scope.processing A (List.mem_of_getElem? hA)
  obtain ⟨_, ⟨code, store, rfl⟩ | ⟨method, args, next, rfl⟩⟩ := advance_cases hadvance
  · rfl
  · rw [invoke_decorated hprocessing]
    rfl

/-- A step of decorated calls is one of the undecorated methods, or one of the queue. -/
theorem Inv.step_erase (h : Inv N frames s)
    (hs : CallTree.step N frames original decorated s e = some s') :
    ∃ es, Run.exec (CallTree.step N frames original undecorated) s.erase es = some s'.erase ∧
      1 + s.overhead = es.length + s'.overhead := by
  cases step_moves hs with
  | call method args =>
    refine ⟨[], rfl, ?_⟩
    have hsettled : (s.dispatches ++ [(⟨method, args, none, .called⟩ : Queued)]).countP
        (·.state.isSettled) = s.dispatches.countP (·.state.isSettled) := List.countP_append
    simp only [overhead, invoke_outside, hsettled, List.length_append, List.length_singleton,
      List.length_nil]
    omega
  | @run a A _ hA hadvance =>
    have hrun : (s.advance original decorated a A).map erase = _ := h.advance_erase hA
    rw [hadvance, Option.map_some] at hrun
    refine ⟨[.run a], ?_, ?_⟩
    · simp [Run.exec, CallTree.step, getElem?_erase, hA, ← hrun]
    · rw [h.advance_overhead hA hadvance]
      rfl
  | @add d D hD hcalled =>
    refine ⟨[], rfl, ?_⟩
    have hsettled : (s.dispatches.set d { D with state := .waiting s.jobs.length }).countP
        (·.state.isSettled) = s.dispatches.countP (·.state.isSettled) :=
      countP_set_of_false hD _ _ (by rw [hcalled]; rfl)
    have hfinished : (s.jobs ++
        [(⟨d, D.method, D.args.map (·.normalize), .waiting⟩ : WriteJob)]).countP
          (·.state.isFinished) = s.jobs.countP (·.state.isFinished) := List.countP_append
    simp only [overhead, hsettled, hfinished, List.length_set, List.length_append,
      List.length_singleton, List.length_nil]
    omega
  | @take j J hJ hwaiting =>
    refine ⟨[.call J.method J.args], ?_, ?_⟩
    · simp [Run.exec, CallTree.step, invoke, undecorated, erase]
    · have hfinished : (s.jobs.set j { J with state := .active s.activations.length }).countP
          (·.state.isFinished) = s.jobs.countP (·.state.isFinished) :=
        countP_set_of_false hJ _ _ (by rw [hwaiting]; rfl)
      simp only [overhead, hfinished, List.length_set]
      rfl
  | @finish j J a A o hJ hactive hA ho =>
    refine ⟨[], rfl, ?_⟩
    have hfinished : (s.jobs.set j
        { J with state := .finished a (WriteQueueRegistry.finished o) }).countP
          (·.state.isFinished) = s.jobs.countP (·.state.isFinished) + 1 :=
      countP_set_of_false hJ _ _ (by rw [hactive]; rfl)
    simp only [overhead, hfinished, List.length_set, List.length_nil]
    omega
  | @settle d D j J a result hD hwaiting hJ hfinished =>
    refine ⟨[], rfl, ?_⟩
    have hsettled : (s.dispatches.set d
        { D with state := .settled j (WriteQueueRegistry.settled N frames result) }).countP
          (·.state.isSettled) = s.dispatches.countP (·.state.isSettled) + 1 :=
      countP_set_of_false hD _ _ (by rw [hwaiting]; rfl)
    simp only [overhead, hsettled, List.length_set, List.length_nil]
    omega

/-- A root call takes four steps of the queue at most. -/
theorem Inv.overhead_le (h : Inv N frames s) : s.overhead ≤ 4 * s.dispatches.length := by
  have hjobs := h.length_jobs_le
  have hfinished := List.countP_le_length (p := fun J : WriteJob => J.state.isFinished)
    (l := s.jobs)
  have hsettled := List.countP_le_length (p := fun D : Queued => D.state.isSettled)
    (l := s.dispatches)
  simp only [overhead]
  omega

/-! ## Rest -/

/-- An execution that cannot go on has ended, or waits for one that has not. -/
theorem Inv.settled_of_atRest (h : Inv N frames s) (hrest : AtRest N frames original s)
    (hA : s.activations[a]? = some A) : ∃ o, A.code = .settle o := by
  -- an execution calls later ones
  obtain ⟨n, hn⟩ : ∃ n, s.activations.length ≤ a + n := ⟨s.activations.length, Nat.le_add_left _ _⟩
  induction n using Nat.strongRecOn generalizing a A with
  | ind n ih =>
    have hnone := hrest (.run a) rfl
    simp only [CallTree.step, hA, Option.bind_eq_bind, Option.bind_some, CallTree.advance] at hnone
    split at hnone
    · exact ⟨_, by assumption⟩
    · cases hnone
    · cases hnone
    · split at hnone
      · cases hnone
      · next p hp =>
        obtain ⟨b, rfl, hab, hb⟩ := h.scope.calls a A hA p (List.mem_of_getElem? hp)
        have hlt := (List.getElem?_eq_some_iff.mp hA).1
        obtain ⟨o, ho⟩ := ih (s.activations.length - b) (by omega) (List.getElem?_eq_getElem hb)
          (by omega)
        have houtcome := outcome_body.mpr ⟨_, List.getElem?_eq_getElem hb, ho⟩
        rw [houtcome] at hnone
        cases hnone

theorem Inv.finished_of_atRest (h : Inv N frames s) (hrest : AtRest N frames original s)
    (hJ : s.jobs[j]? = some J) : J.state.isFinished = true := by
  have hactive : ∀ (j : Nat) (J : WriteJob) a, s.jobs[j]? = some J → J.state ≠ .active a := by
    intro j J a hJ hstate
    obtain ⟨A, hA, _⟩ := h.books.taken j J a hJ (by rw [hstate]; rfl)
    obtain ⟨o, ho⟩ := h.settled_of_atRest hrest hA
    have hnone := hrest (.finish j) rfl
    simp [CallTree.step, hJ, hstate, outcome_body.mpr ⟨A, hA, ho⟩] at hnone
  have hidle : ∀ key, s.busy key = false := by
    intro key
    rw [busy, List.any_eq_false]
    intro J' hJ'
    obtain ⟨k, hk⟩ := List.mem_iff_getElem?.mp hJ'
    cases hs : J'.state with
    | waiting | finished => simp [WriteJobState.body, WriteJobState.isFinished]
    | active a => exact absurd hs (hactive k J' a hk)
  cases hs : J.state with
  | finished a r => rfl
  | active a => exact absurd hs (hactive j J a hJ)
  | waiting =>
    have hnone := hrest (.take J.method.consumerKey) rfl
    simp only [CallTree.step, hidle, Option.bind_eq_bind] at hnone
    cases hfind : s.jobs.findIdx? fun J' =>
        J'.method.consumerKey = J.method.consumerKey ∧ J'.state.body.isNone with
    | none =>
      have hfalse := List.findIdx?_eq_none_iff.mp hfind J (List.mem_of_getElem? hJ)
      simp [hs, WriteJobState.body] at hfalse
    | some k =>
      obtain ⟨hk, _⟩ := List.findIdx?_eq_some_iff_getElem.mp hfind
      rw [hfind, Option.bind_some, List.getElem?_eq_getElem hk] at hnone
      cases hnone

theorem Inv.dispatches_of_atRest (h : Inv N frames s) (hrest : AtRest N frames original s)
    (hD : s.dispatches[d]? = some D) : D.state.isSettled = true := by
  have hadd := hrest (.add d) rfl
  have hsettle := hrest (.settle d) rfl
  cases hs : D.state with
  | settled j o => rfl
  | called => simp [CallTree.step, hD, hs] at hadd
  | waiting j =>
    obtain ⟨J, hJ, _⟩ := h.books.job d D j hD (by rw [hs]; rfl)
    have hfinished := h.finished_of_atRest hrest hJ
    cases hJs : J.state with
    | finished a r => simp [CallTree.step, hD, hs, hJ, hJs] at hsettle
    | waiting | active =>
      rw [hJs] at hfinished
      cases hfinished

/-! ## Whole runs -/

variable {store : σ} {es : List Event} {u : CallTree σ} {method : UseQueueMethod}
  {args : List Value} {o : Outcome}

/-- The calls from outside that an event makes. -/
def Event.roots : Event → Nat
  | .call _ _ => 1
  | .run _ | .add _ | .take _ | .finish _ | .settle _ => 0

theorem Inv.length_dispatches (h : Inv N frames s)
    (hs : CallTree.step N frames original decorated s e = some s') :
    s'.dispatches.length = s.dispatches.length + e.roots := by
  cases step_moves hs with
  | call method args =>
    rw [invoke_outside]
    exact List.length_append
  | @run a A _ hA hadvance =>
    have hprocessing := h.scope.processing A (List.mem_of_getElem? hA)
    obtain ⟨_, ⟨code, store, rfl⟩ | ⟨method, args, next, rfl⟩⟩ := advance_cases hadvance
    · rfl
    · rw [invoke_decorated hprocessing]
      rfl
  | add hD hcalled => exact List.length_set
  | take hJ hwaiting => rfl
  | finish hJ hactive hA ho => rfl
  | settle hD hwaiting hJ hfinished => exact List.length_set

theorem Inv.outcome_dispatch (h : Inv N frames s) (hD : s.dispatches[d]? = some D)
    (ho : s.outcome (.dispatch d) = some o) : Answers N frames s.erase D o := by
  simp only [outcome, hD, Option.bind_eq_bind, Option.bind_some] at ho
  split at ho
  · next j o' hstate =>
    cases ho
    obtain ⟨J, a, r, hJ, hfinished, rfl⟩ := h.books.settled d D j o hD hstate
    obtain ⟨J', hJ', hdispatch⟩ := h.books.job d D j hD (by rw [hstate]; rfl)
    cases hJ.symm.trans hJ'
    obtain ⟨D', hD', _, hmethod, hargs⟩ := h.books.added j J hJ
    rw [hdispatch] at hD'
    cases hD.symm.trans hD'
    obtain ⟨A, hA, hcaller, hmethod', hargs'⟩ := h.books.taken j J a hJ (by rw [hfinished]; rfl)
    obtain ⟨A', o', hA', ho', rfl⟩ := h.books.finished j J a r hJ hfinished
    cases hA.symm.trans hA'
    exact ⟨_, List.mem_map_of_mem (List.mem_of_getElem? hA), hcaller, hmethod'.trans hmethod,
      hargs'.trans hargs, o', ho', N.carries_settled frames o'⟩
  all_goals cases ho

/-- What the executions do leaves the queue as it is. -/
theorem Inv.run_queue (h : Inv N frames s)
    (hs : CallTree.step N frames original decorated s (.run a) = some s') :
    s'.dispatches = s.dispatches ∧ s'.jobs = s.jobs := by
  obtain ⟨A, hA, hadvance⟩ := Option.bind_eq_some_iff.mp hs
  have hprocessing := h.scope.processing A (List.mem_of_getElem? hA)
  obtain ⟨_, ⟨code, store, rfl⟩ | ⟨method, args, next, rfl⟩⟩ := advance_cases hadvance
  · exact ⟨rfl, rfl⟩
  · rw [invoke_decorated hprocessing]
    exact ⟨rfl, rfl⟩

/-- The tree of one call from outside, when its worker has started the body. -/
def started (original : UseQueueMethod → List Value → Code σ) (store : σ) (method : UseQueueMethod)
    (args : List Value) : CallTree σ where
  store
  activations := [⟨method, args.map (·.normalize), true, none, [],
    original method (args.map (·.normalize))⟩]
  dispatches := [⟨method, args, none, .waiting 0⟩]
  jobs := [⟨0, method, args.map (·.normalize), .active 0⟩]

theorem exec_started : Run.exec (step N frames original decorated) (init store)
    [.call method args, .add 0, .take method.consumerKey] =
      some (started original store method args) := by
  simp [Run.exec, step, init, invoke_outside, started, busy, WriteJobState.body]

/-- A whole run of the tree of one call from outside, by the executions that go on. -/
def treeRun (method : UseQueueMethod) (args : List Value) (us : List Nat) : List Event :=
  [.call method args, .add 0, .take method.consumerKey] ++ us.map .run ++ [.finish 0, .settle 0]

/-- A run of one call of the undecorated methods is one of the decorated methods. -/
theorem exec_decorated {us : List Nat}
    (h : Run.exec (step N frames original undecorated) (init store)
      (.call method (args.map (·.normalize)) :: us.map .run) = some u)
    (ho : u.outcome (.body 0) = some o) :
    ∃ s, Run.exec (step N frames original decorated) (init store) (treeRun method args us) =
      some s ∧ s.erase = u ∧ ∃ o', s.outcome (.dispatch 0) = some o' ∧ N.Carries frames o o' := by
  have hstart : Inv N frames (started original store method args) :=
    Run.invariant Inv.step exec_started (.init store)
  have hruns : (Run.exec (fun s a => step N frames original decorated s (.run a))
      (started original store method args) us).map erase =
        Run.exec (fun s a => step N frames original undecorated s (.run a))
          (started original store method args).erase us :=
    Run.exec_abs (fun a h => h.run_erase a) Inv.step hstart us
  obtain ⟨t, ht, h⟩ := Run.exec_cons_iff.mp h
  cases ht
  rw [Run.exec_map] at h
  obtain ⟨s, hs, rfl⟩ := Option.map_eq_some_iff.mp (hruns.trans h)
  obtain ⟨hinv, hdispatches, hjobs⟩ : Inv N frames s ∧
      s.dispatches = (started original store method args).dispatches ∧
      s.jobs = (started original store method args).jobs := by
    refine Run.invariant (I := fun t => Inv N frames t ∧
      t.dispatches = (started original store method args).dispatches ∧
      t.jobs = (started original store method args).jobs) ?_ hs ⟨hstart, rfl, rfl⟩
    rintro s a s' ⟨hinv, hdispatches, hjobs⟩ hstep
    obtain ⟨hdispatches', hjobs'⟩ := hinv.run_queue hstep
    exact ⟨hinv.step hstep, hdispatches'.trans hdispatches, hjobs'.trans hjobs⟩
  rw [outcome_erase] at ho
  obtain ⟨s', hend, herase, ho'⟩ : ∃ s', Run.exec (step N frames original decorated) s
      [.finish 0, .settle 0] = some s' ∧ s'.erase = s.erase ∧ s'.outcome (.dispatch 0) =
        some (WriteQueueRegistry.settled N frames (WriteQueueRegistry.finished o)) := by
    refine ⟨{ s with
      dispatches := [⟨method, args, none,
        .settled 0 (WriteQueueRegistry.settled N frames (WriteQueueRegistry.finished o))⟩]
      jobs := [⟨0, method, args.map (·.normalize),
        .finished 0 (WriteQueueRegistry.finished o)⟩] }, ?_, rfl, rfl⟩
    simp [Run.exec, step, hdispatches, hjobs, started, ho]
  refine ⟨s', ?_, herase, _, ho', N.carries_settled frames o⟩
  rw [treeRun, Run.exec_append, Run.exec_append, exec_started, Option.bind_some, Run.exec_map, hs,
    Option.bind_some]
  exact hend

/-- The calls from outside in a run have one dispatch each, nested calls have none; without the
queue the run is one of the undecorated methods, with the same work on what they share; it is at
most four steps a call longer; every dispatch is settled with what that run answers, or will be. -/
structure Transparent (N : Nest) (frames : String)
    (original : UseQueueMethod → List Value → Code σ) (store : σ) (es : List Event)
    (s : CallTree σ) : Prop where
  roots : s.dispatches.length = (es.map Event.roots).sum
  inline : s.Inline
  run : ∃ us, Run.exec (step N frames original undecorated) (init store) us = some s.erase ∧
    es.length ≤ us.length + 4 * s.dispatches.length
  answers : ∀ (d : Nat) (D : Queued) o, s.dispatches[d]? = some D →
    s.outcome (.dispatch d) = some o → Answers N frames s.erase D o
  rest : AtRest N frames original s → ∀ D ∈ s.dispatches, D.state.isSettled = true

theorem transparent (h : Run.exec (step N frames original decorated) (init store) es = some s) :
    Transparent N frames original store es s where
  roots := by
    have hcount := Run.accumulates (fun s : CallTree σ => s.dispatches.length) Event.roots
      (fun hinv hs => ⟨Inv.step hinv hs, hinv.length_dispatches hs⟩) h (.init store)
    exact hcount.trans (Nat.zero_add _)
  inline := (Run.invariant Inv.step h (.init store)).inline
  run := by
    have hinv := Run.invariant Inv.step h (.init store)
    obtain ⟨us, hus, hlength⟩ : ∃ us, Run.exec (step N frames original undecorated)
        (init store).erase us = some s.erase ∧
          es.length + (init store).overhead = us.length + s.overhead := by
      refine Run.simulates (I := Inv N frames) ?_ h (.init store)
      exact fun hinv hs => ⟨hinv.step hs, hinv.step_erase hs⟩
    refine ⟨us, hus, ?_⟩
    have hoverhead := hinv.overhead_le
    have hzero : (init store).overhead = 0 := rfl
    omega
  answers d D o hD ho := (Run.invariant Inv.step h (.init store)).outcome_dispatch hD ho
  rest hrest D hD := by
    obtain ⟨d, hd⟩ := List.mem_iff_getElem?.mp hD
    exact (Run.invariant Inv.step h (.init store)).dispatches_of_atRest hrest hd

/-- The methods of two consumers, with calls of themselves and of each other: one for each argument
but the first, and the number of leaves is counted. -/
def relay (method : UseQueueMethod) : List Value → Code Nat
  | [] => .act (fun n => (.ok (.str method.jobKey), n + 1)) .settle
  | _ :: args =>
    .call ⟨"user-consumer", "user-service-sign-in"⟩ args
      (.call ⟨"report-consumer", "report-service-export"⟩ args (.await 0 fun _ => .await 1 .settle))

/-- A tree of three executions. -/
def relayRun : List Event :=
  treeRun ⟨"report-consumer", "report-service-export"⟩ [.null] [0, 0, 1, 2, 0, 0]

/-- A method that returns a date. -/
def lastLogin (_ : UseQueueMethod) (_ : List Value) : Code Unit :=
  .settle (.ok (.date (some "2024-02-29T00:00:00.000Z")))

theorem lastLogin_undecorated {es : List Event} {u : CallTree Unit}
    (h : Run.exec (step sampleNest "" lastLogin undecorated) (init ()) es = some u) :
    (∀ A ∈ u.activations, A.code = .settle (.ok (.date (some "2024-02-29T00:00:00.000Z")))) ∧
      u.dispatches = [] ∧ u.jobs = [] := by
  refine Run.invariant (I := fun u => (∀ A ∈ u.activations, A.code = _) ∧ u.dispatches = [] ∧
    u.jobs = []) ?_ h ⟨nofun, rfl, rfl⟩
  rintro s e s' ⟨hcodes, hdispatches, hjobs⟩ hs
  cases step_moves hs with
  | call method args =>
    refine ⟨?_, hdispatches, hjobs⟩
    intro A hA
    rcases List.mem_append.mp hA with hA | hA
    · exact hcodes A hA
    · cases List.mem_singleton.mp hA
      rfl
  | run hA hadvance =>
    have hcode := (advance_cases hadvance).1
    rw [hcodes _ (List.mem_of_getElem? hA)] at hcode
    cases hcode
  | add hD | settle hD => simp [hdispatches] at hD
  | take hJ | finish hJ => simp [hjobs] at hJ

end CallTree

end NestHarness
