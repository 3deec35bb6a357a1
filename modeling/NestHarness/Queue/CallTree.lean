import NestHarness.Queue.Outcome

/-!
# Trees of calls

The bodies of the decorated methods with what they do: their own pieces of work, calls of decorated
methods, and awaits of such calls, in one event loop. The wrapper of `@UseQueue` is a parameter, so
that the undecorated methods run in the same loop.
-/

namespace NestHarness

open Js (Value)

abbrev Outcome := Except JsError Value

namespace WriteQueueRegistry

/-- What BullMQ keeps of the outcome of a worker's body: its `returnvalue` or its `failedReason`. -/
def finished : Outcome → Except ErrorText Value
  | .ok value => .ok value.normalize
  | .error e =>
    match (encode e).toJson with
    | some failedReason => .error (.json failedReason)
    | none => .error (.text "undefined")

/-- What `dispatch` makes of it. -/
def settled (N : Nest) (frames : String) : Except ErrorText Value → Outcome
  | .ok value => .ok value
  | .error message => .error (decode N frames message)

theorem dispatch_eq (N : Nest) (frames : String) (originalFn : OriginalFn) (args : List Value) :
    dispatch N frames originalFn args =
      settled N frames (finished (originalFn (args.map (·.normalize)))) := by
  unfold dispatch finished settled
  cases originalFn (args.map (·.normalize)) with
  | ok value => rfl
  | error e => cases (encode e).toJson <;> rfl

end WriteQueueRegistry

/-- What is left of a body. -/
inductive Code (σ : Type) where
  /-- It returns or throws. -/
  | settle (o : Outcome)
  /-- A piece of work on what the bodies share, or anything else that it awaits. -/
  | act (work : σ → Outcome × σ) (next : Outcome → Code σ)
  /-- A call of a decorated method, whose promise it keeps. -/
  | call (method : UseQueueMethod) (args : List Value) (next : Code σ)
  /-- The await of the promise of its `i`-th call. -/
  | await (i : Nat) (next : Outcome → Code σ)

def Code.outcome {σ : Type} : Code σ → Option Outcome
  | .settle o => some o
  | .act _ _ | .call _ _ _ | .await _ _ => none

/-- The promise of a body that runs, or that of a `dispatch`. -/
inductive CallPromise where
  | body (a : Nat)
  | dispatch (d : Nat)

/-- The execution of a method; `caller` is the execution that has called it directly. -/
structure Activation (σ : Type) where
  method : UseQueueMethod
  args : List Value
  processing : Bool
  caller : Option Nat
  calls : List CallPromise
  code : Code σ

inductive QueuedState where
  /-- It awaits `getOrCreate` or `queue.add`. -/
  | called
  /-- It awaits `waitUntilFinished` of its job. -/
  | waiting (job : Nat)
  | settled (job : Nat) (o : Outcome)

/-- A call of `dispatch`. -/
structure Queued where
  method : UseQueueMethod
  args : List Value
  caller : Option Nat
  state : QueuedState

inductive WriteJobState where
  | waiting
  | active (a : Nat)
  | finished (a : Nat) (result : Except ErrorText Value)

/-- A job, with the `dispatch` that has added it. -/
structure WriteJob where
  dispatch : Nat
  method : UseQueueMethod
  args : List Value
  state : WriteJobState

def QueuedState.job : QueuedState → Option Nat
  | .called => none
  | .waiting j | .settled j _ => some j

def QueuedState.isSettled : QueuedState → Bool
  | .settled _ _ => true
  | .called | .waiting _ => false

def WriteJobState.body : WriteJobState → Option Nat
  | .waiting => none
  | .active a | .finished a _ => some a

def WriteJobState.isFinished : WriteJobState → Bool
  | .finished _ _ => true
  | .waiting | .active _ => false

structure CallTree (σ : Type) where
  store : σ
  activations : List (Activation σ)
  dispatches : List Queued
  jobs : List WriteJob

namespace CallTree

inductive Event where
  /-- A call from outside of a worker. -/
  | call (method : UseQueueMethod) (args : List Value)
  /-- The execution `a` goes on. -/
  | run (a : Nat)
  /-- `queue.add` of the dispatch `d`. -/
  | add (d : Nat)
  /-- The worker of a consumer takes its oldest job. -/
  | take (consumerKey : String)
  /-- The body of the job `j` has ended. -/
  | finish (j : Nat)
  /-- `waitUntilFinished` of the dispatch `d` ends. -/
  | settle (d : Nat)

variable {σ : Type}

/-- The wrapper with the registry set, in a context. -/
def decorated (processing : Bool) : QueueRoute := useQueue processing true

/-- No wrapper. -/
def undecorated (_ : Bool) : QueueRoute := .direct

variable (N : Nest) (frames : String) (original : UseQueueMethod → List Value → Code σ)
  (wrapper : Bool → QueueRoute) (s : CallTree σ)

/-- The promise that a call gives. -/
def promise (processing : Bool) : CallPromise :=
  match wrapper processing with
  | .direct => .body s.activations.length
  | .dispatch => .dispatch s.dispatches.length

/-- A call in a context. -/
def invoke (processing : Bool) (caller : Option Nat) (method : UseQueueMethod)
    (args : List Value) : CallTree σ :=
  match wrapper processing with
  | .direct =>
    { s with activations := s.activations ++
        [⟨method, args, processing, caller, [], original method args⟩] }
  | .dispatch => { s with dispatches := s.dispatches ++ [⟨method, args, caller, .called⟩] }

/-- The outcome a promise is settled with. -/
def outcome : CallPromise → Option Outcome
  | .body a => do
    let A ← s.activations[a]?
    A.code.outcome
  | .dispatch d => do
    let D ← s.dispatches[d]?
    match D.state with
    | .settled _ o => some o
    | .called | .waiting _ => none

def resume (a : Nat) (A : Activation σ) (code : Code σ) : CallTree σ :=
  { s with activations := s.activations.set a { A with code } }

/-- The execution `a` up to its next await. -/
def advance (a : Nat) (A : Activation σ) : Option (CallTree σ) :=
  match A.code with
  | .settle _ => none
  | .act work next => some { s.resume a A (next (work s.store).1) with store := (work s.store).2 }
  | .call method args next =>
    let A := { A with calls := A.calls ++ [s.promise wrapper A.processing] }
    some ((s.resume a A next).invoke original wrapper A.processing (some a) method args)
  | .await i next =>
    match A.calls[i]? with
    | none => some (s.resume a A (next (.ok .undefined)))
    | some p => (s.outcome p).map fun o => s.resume a A (next o)

/-- The worker of a consumer has a job. -/
def busy (consumerKey : String) : Bool :=
  s.jobs.any fun J => J.method.consumerKey = consumerKey ∧ J.state.body.isSome ∧ !J.state.isFinished

def step (s : CallTree σ) : Event → Option (CallTree σ)
  | .call method args => some (s.invoke original wrapper false none method args)
  | .run a => do
    let A ← s.activations[a]?
    s.advance original wrapper a A
  | .add d => do
    let D ← s.dispatches[d]?
    match D.state with
    | .called => some { s with
        dispatches := s.dispatches.set d { D with state := .waiting s.jobs.length }
        jobs := s.jobs ++ [⟨d, D.method, D.args.map (·.normalize), .waiting⟩] }
    | .waiting _ | .settled _ _ => none
  | .take consumerKey => do
    let j ← s.jobs.findIdx? fun J => J.method.consumerKey = consumerKey ∧ J.state.body.isNone
    let J ← s.jobs[j]?
    if s.busy consumerKey then none
    else
      -- `queueProcessingContext.run(true, ...)`
      return { s with
        activations := s.activations ++
          [⟨J.method, J.args, true, none, [], original J.method J.args⟩]
        jobs := s.jobs.set j { J with state := .active s.activations.length } }
  | .finish j => do
    let J ← s.jobs[j]?
    match J.state with
    | .active a => do
      let o ← s.outcome (.body a)
      return { s with
        jobs := s.jobs.set j { J with state := .finished a (WriteQueueRegistry.finished o) } }
    | .waiting | .finished _ _ => none
  | .settle d => do
    let D ← s.dispatches[d]?
    match D.state with
    | .waiting j => do
      let J ← s.jobs[j]?
      match J.state with
      | .finished _ result => some { s with
          dispatches := s.dispatches.set d
            { D with state := .settled j (WriteQueueRegistry.settled N frames result) } }
      | .waiting | .active _ => none
    | .called | .settled _ _ => none

def init (store : σ) : CallTree σ := ⟨store, [], [], []⟩

/-! ## Steps -/

inductive Moves (N : Nest) (frames : String) (original : UseQueueMethod → List Value → Code σ)
    (wrapper : Bool → QueueRoute) (s : CallTree σ) : Event → CallTree σ → Prop where
  | call (method args) :
    Moves N frames original wrapper s (.call method args)
      (s.invoke original wrapper false none method args)
  | run {a A s'} (hA : s.activations[a]? = some A)
      (h : s.advance original wrapper a A = some s') :
    Moves N frames original wrapper s (.run a) s'
  | add {d D} (hD : s.dispatches[d]? = some D) (h : D.state = .called) :
    Moves N frames original wrapper s (.add d) { s with
      dispatches := s.dispatches.set d { D with state := .waiting s.jobs.length }
      jobs := s.jobs ++ [⟨d, D.method, D.args.map (·.normalize), .waiting⟩] }
  | take {j J} (hJ : s.jobs[j]? = some J) (h : J.state = .waiting) :
    Moves N frames original wrapper s (.take J.method.consumerKey) { s with
      activations := s.activations ++ [⟨J.method, J.args, true, none, [], original J.method J.args⟩]
      jobs := s.jobs.set j { J with state := .active s.activations.length } }
  | finish {j J a A o} (hJ : s.jobs[j]? = some J) (h : J.state = .active a)
      (hA : s.activations[a]? = some A) (ho : A.code = .settle o) :
    Moves N frames original wrapper s (.finish j) { s with
      jobs := s.jobs.set j { J with state := .finished a (WriteQueueRegistry.finished o) } }
  | settle {d D j J a result} (hD : s.dispatches[d]? = some D) (h : D.state = .waiting j)
      (hJ : s.jobs[j]? = some J) (hfinished : J.state = .finished a result) :
    Moves N frames original wrapper s (.settle d) { s with
      dispatches := s.dispatches.set d
        { D with state := .settled j (WriteQueueRegistry.settled N frames result) } }

variable {N frames original wrapper s} {s' : CallTree σ} {e : Event} {a b c d j : Nat}
  {A A' : Activation σ} {D : Queued} {J : WriteJob} {o : Outcome}

theorem code_outcome_eq_some {code : Code σ} : code.outcome = some o ↔ code = .settle o := by
  cases code <;> simp [Code.outcome]

theorem outcome_body : s.outcome (.body a) = some o ↔
    ∃ A, s.activations[a]? = some A ∧ A.code = .settle o := by
  simp [outcome, Option.bind_eq_some_iff, code_outcome_eq_some]

theorem body_eq_none {t : WriteJobState} : t.body = none ↔ t = .waiting := by
  cases t <;> simp [WriteJobState.body]

theorem step_moves (h : step N frames original wrapper s e = some s') :
    Moves N frames original wrapper s e s' := by
  cases e with
  | call method args =>
    cases h
    exact .call method args
  | run a =>
    obtain ⟨A, hA, h⟩ := Option.bind_eq_some_iff.mp h
    exact .run hA h
  | add d =>
    obtain ⟨D, hD, h⟩ := Option.bind_eq_some_iff.mp h
    split at h
    · next hs =>
      cases h
      exact .add hD hs
    all_goals cases h
  | take consumerKey =>
    simp only [step, Option.bind_eq_bind, Option.bind_eq_some_iff] at h
    obtain ⟨j, hj, J, hJ, h⟩ := h
    split at h
    · cases h
    · cases h
      obtain ⟨_, hfound, _⟩ := List.findIdx?_eq_some_iff_getElem.mp hj
      rw [(List.getElem?_eq_some_iff.mp hJ).2] at hfound
      simp only [Bool.decide_and, Bool.and_eq_true, decide_eq_true_eq, Option.isNone_iff_eq_none,
        body_eq_none] at hfound
      obtain ⟨rfl, hs⟩ := hfound
      exact .take hJ hs
  | finish j =>
    obtain ⟨J, hJ, h⟩ := Option.bind_eq_some_iff.mp h
    split at h
    · next a hs =>
      obtain ⟨o, ho, h⟩ := Option.bind_eq_some_iff.mp h
      cases h
      obtain ⟨A, hA, hcode⟩ := outcome_body.mp ho
      exact .finish hJ hs hA hcode
    all_goals cases h
  | settle d =>
    obtain ⟨D, hD, h⟩ := Option.bind_eq_some_iff.mp h
    split at h
    · next j hs =>
      obtain ⟨J, hJ, h⟩ := Option.bind_eq_some_iff.mp h
      split at h
      · next hfinished =>
        cases h
        exact .settle hD hs hJ hfinished
      all_goals cases h
    all_goals cases h

/-- An execution goes on with its own code, or calls a decorated method. -/
theorem advance_cases (h : s.advance original wrapper a A = some s') :
    A.code.outcome = none ∧
      ((∃ code store, s' = { s.resume a A code with store }) ∨
        ∃ method args next, s' =
          (s.resume a { A with calls := A.calls ++ [s.promise wrapper A.processing] } next).invoke
            original wrapper A.processing (some a) method args) := by
  unfold advance at h
  split at h
  · cases h
  · next hcode =>
    cases h
    exact ⟨by rw [hcode]; rfl, .inl ⟨_, _, rfl⟩⟩
  · next hcode =>
    cases h
    exact ⟨by rw [hcode]; rfl, .inr ⟨_, _, _, rfl⟩⟩
  · next hcode =>
    refine ⟨by rw [hcode]; rfl, .inl ?_⟩
    split at h
    · cases h
      exact ⟨_, s.store, rfl⟩
    · obtain ⟨o, _, rfl⟩ := Option.map_eq_some_iff.mp h
      exact ⟨_, s.store, rfl⟩

/-! ## The invariant of decorated calls -/

/-- Every execution runs in the context of a worker, and holds the promises of executions it has
called directly. -/
structure Scoped (as : List (Activation σ)) : Prop where
  processing : ∀ A ∈ as, A.processing = true
  calls : ∀ (a : Nat) A, as[a]? = some A → ∀ p ∈ A.calls, ∃ b, p = .body b ∧ a < b ∧ b < as.length
  caller : ∀ (a : Nat) A, as[a]? = some A → ∀ c, A.caller = some c → c < a

/-- Every dispatch is of a call from outside and has its own job from `queue.add` on; the executions
without a caller are those of the jobs. -/
structure Booked (N : Nest) (frames : String) (s : CallTree σ) : Prop where
  outside : ∀ D ∈ s.dispatches, D.caller = none
  job : ∀ (d : Nat) (D : Queued) j, s.dispatches[d]? = some D → D.state.job = some j →
    ∃ J : WriteJob, s.jobs[j]? = some J ∧ J.dispatch = d
  added : ∀ (j : Nat) (J : WriteJob), s.jobs[j]? = some J → ∃ D,
    s.dispatches[J.dispatch]? = some D ∧ D.state.job = some j ∧ J.method = D.method ∧
      J.args = D.args.map (·.normalize)
  taken : ∀ (j : Nat) (J : WriteJob) a, s.jobs[j]? = some J → J.state.body = some a →
    ∃ A, s.activations[a]? = some A ∧ A.caller = none ∧ A.method = J.method ∧ A.args = J.args
  served : ∀ (a : Nat) A, s.activations[a]? = some A → A.caller = none →
    ∃ (j : Nat) (J : WriteJob), s.jobs[j]? = some J ∧ J.state.body = some a
  finished : ∀ (j : Nat) (J : WriteJob) a r, s.jobs[j]? = some J → J.state = .finished a r → ∃ A o,
    s.activations[a]? = some A ∧ A.code = .settle o ∧ r = WriteQueueRegistry.finished o
  settled : ∀ (d : Nat) (D : Queued) j o, s.dispatches[d]? = some D → D.state = .settled j o →
    ∃ (J : WriteJob) (a : Nat) (r : Except ErrorText Value), s.jobs[j]? = some J ∧
      J.state = .finished a r ∧ o = WriteQueueRegistry.settled N frames r

structure Inv (N : Nest) (frames : String) (s : CallTree σ) : Prop where
  scope : Scoped s.activations
  books : Booked N frames s

/-- Executions have gone on or have been added, none of them without a caller. -/
structure Grows (as as' : List (Activation σ)) : Prop where
  kept : ∀ (a : Nat) A, as[a]? = some A → ∃ A', as'[a]? = some A' ∧ A'.caller = A.caller ∧
    A'.method = A.method ∧ A'.args = A.args ∧ ∀ o, A.code = .settle o → A'.code = .settle o
  roots : ∀ (a : Nat) A', as'[a]? = some A' → A'.caller = none →
    ∃ A, as[a]? = some A ∧ A.caller = none

theorem getElem?_set_cases {α : Type} {xs : List α} {x y : α} {i k : Nat}
    (h : (xs.set i x)[k]? = some y) : k = i ∧ y = x ∨ k ≠ i ∧ xs[k]? = some y := by
  by_cases hk : k = i
  · subst hk
    have hlt := (List.getElem?_eq_some_iff.mp h).1
    rw [List.length_set] at hlt
    rw [List.getElem?_set_self hlt] at h
    exact .inl ⟨rfl, (Option.some.inj h).symm⟩
  · rw [List.getElem?_set_ne (Ne.symm hk)] at h
    exact .inr ⟨hk, h⟩

theorem getElem?_set_of_eq_some {α : Type} {xs : List α} {x y : α} {i : Nat}
    (h : xs[i]? = some y) : (xs.set i x)[i]? = some x :=
  List.getElem?_set_self (List.getElem?_eq_some_iff.mp h).1

theorem getElem?_append_of_eq_some {α : Type} {xs ys : List α} {y : α} {i : Nat}
    (h : xs[i]? = some y) : (xs ++ ys)[i]? = some y :=
  (List.getElem?_append_left (List.getElem?_eq_some_iff.mp h).1).trans h

theorem Grows.set {as : List (Activation σ)} {calls : List CallPromise} {code : Code σ}
    (hA : as[a]? = some A) (h : A.code.outcome = none) :
    Grows as (as.set a { A with calls, code }) where
  kept b B hB := by
    by_cases hba : b = a
    · subst hba
      cases hA.symm.trans hB
      refine ⟨_, getElem?_set_of_eq_some hA, rfl, rfl, rfl, ?_⟩
      intro o ho
      rw [ho] at h
      cases h
    · exact ⟨B, (List.getElem?_set_ne (Ne.symm hba)).trans hB, rfl, rfl, rfl, fun _ ho => ho⟩
  roots b B hB hcaller := by
    rcases getElem?_set_cases hB with ⟨rfl, rfl⟩ | ⟨_, hB⟩
    · exact ⟨A, hA, hcaller⟩
    · exact ⟨B, hB, hcaller⟩

theorem Grows.push {as : List (Activation σ)} (h : A.caller ≠ none) : Grows as (as ++ [A]) where
  kept b B hB := ⟨B, getElem?_append_of_eq_some hB, rfl, rfl, rfl, fun _ ho => ho⟩
  roots b B hB hcaller := by
    rcases getElem?_push hB with hB | ⟨rfl, rfl⟩
    · exact ⟨B, hB, hcaller⟩
    · exact absurd hcaller h

theorem Grows.trans {as as' as'' : List (Activation σ)} (h : Grows as as')
    (h' : Grows as' as'') : Grows as as'' where
  kept a A hA := by
    obtain ⟨A', hA', hcaller, hmethod, hargs, hcode⟩ := h.kept a A hA
    obtain ⟨A'', hA'', hcaller', hmethod', hargs', hcode'⟩ := h'.kept a A' hA'
    exact ⟨A'', hA'', hcaller'.trans hcaller, hmethod'.trans hmethod, hargs'.trans hargs,
      fun o ho => hcode' o (hcode o ho)⟩
  roots a A'' hA'' hcaller := by
    obtain ⟨A', hA', hcaller'⟩ := h'.roots a A'' hA'' hcaller
    exact h.roots a A' hA' hcaller'

theorem Booked.grow {store : σ} {as : List (Activation σ)} (h : Booked N frames s)
    (hgrows : Grows s.activations as) :
    Booked N frames { s with store, activations := as } where
  outside := h.outside
  job := h.job
  added := h.added
  taken j J a hJ hbody := by
    obtain ⟨A, hA, hcaller, hmethod, hargs⟩ := h.taken j J a hJ hbody
    obtain ⟨A', hA', hcaller', hmethod', hargs', _⟩ := hgrows.kept a A hA
    exact ⟨A', hA', hcaller'.trans hcaller, hmethod'.trans hmethod, hargs'.trans hargs⟩
  served a A' hA' hcaller := by
    obtain ⟨A, hA, hnone⟩ := hgrows.roots a A' hA' hcaller
    exact h.served a A hA hnone
  finished j J a r hJ hstate := by
    obtain ⟨A, o, hA, hcode, hr⟩ := h.finished j J a r hJ hstate
    obtain ⟨A', hA', _, _, _, hsettle⟩ := hgrows.kept a A hA
    exact ⟨A', o, hA', hsettle o hcode, hr⟩
  settled := h.settled

theorem Scoped.set {as : List (Activation σ)} {calls : List CallPromise} {code : Code σ}
    (h : Scoped as) (hA : as[a]? = some A)
    (hcalls : ∀ p ∈ calls, ∃ b, p = .body b ∧ a < b ∧ b < as.length) :
    Scoped (as.set a { A with calls, code }) where
  processing B hB := by
    rcases List.mem_or_eq_of_mem_set hB with hB | rfl
    · exact h.processing B hB
    · exact h.processing A (List.mem_of_getElem? hA)
  calls b B hB p hp := by
    rw [List.length_set]
    rcases getElem?_set_cases hB with ⟨rfl, rfl⟩ | ⟨_, hB⟩
    · exact hcalls p hp
    · exact h.calls b B hB p hp
  caller b B hB c hc := by
    rcases getElem?_set_cases hB with ⟨rfl, rfl⟩ | ⟨_, hB⟩
    · exact h.caller b A hA c hc
    · exact h.caller b B hB c hc

theorem Scoped.push {as : List (Activation σ)} (h : Scoped as) (hprocessing : A.processing = true)
    (hcalls : A.calls = []) (hcaller : ∀ c, A.caller = some c → c < as.length) :
    Scoped (as ++ [A]) where
  processing B hB := by
    rcases List.mem_append.mp hB with hB | hB
    · exact h.processing B hB
    · exact List.mem_singleton.mp hB ▸ hprocessing
  calls b B hB p hp := by
    rcases getElem?_push hB with hB | ⟨rfl, rfl⟩
    · obtain ⟨b', rfl, hlt, hlength⟩ := h.calls b B hB p hp
      refine ⟨b', rfl, hlt, ?_⟩
      rw [List.length_append]
      omega
    · rw [hcalls] at hp
      cases hp
  caller b B hB c hc := by
    rcases getElem?_push hB with hB | ⟨rfl, rfl⟩
    · exact h.caller b B hB c hc
    · exact hcaller c hc

theorem Booked.call (h : Booked N frames s) (method : UseQueueMethod) (args : List Value) :
    Booked N frames { s with dispatches := s.dispatches ++ [⟨method, args, none, .called⟩] } where
  outside D hD := by
    rcases List.mem_append.mp hD with hD | hD
    · exact h.outside D hD
    · exact List.mem_singleton.mp hD ▸ rfl
  job d D j hD hj := by
    rcases getElem?_push hD with hD | ⟨_, rfl⟩
    · exact h.job d D j hD hj
    · cases hj
  added j J hJ := by
    obtain ⟨D, hD, hrest⟩ := h.added j J hJ
    exact ⟨D, getElem?_append_of_eq_some hD, hrest⟩
  taken := h.taken
  served := h.served
  finished := h.finished
  settled d D j o hD hstate := by
    rcases getElem?_push hD with hD | ⟨_, rfl⟩
    · exact h.settled d D j o hD hstate
    · cases hstate

theorem Booked.add (h : Booked N frames s) (hD : s.dispatches[d]? = some D)
    (hcalled : D.state = .called) : Booked N frames { s with
      dispatches := s.dispatches.set d { D with state := .waiting s.jobs.length }
      jobs := s.jobs ++ [⟨d, D.method, D.args.map (·.normalize), .waiting⟩] } where
  outside D' hD' := by
    rcases List.mem_or_eq_of_mem_set hD' with hD' | rfl
    · exact h.outside D' hD'
    · exact h.outside D (List.mem_of_getElem? hD)
  job d' D' j hD' hj := by
    rcases getElem?_set_cases hD' with ⟨rfl, rfl⟩ | ⟨_, hD'⟩
    · cases hj
      exact ⟨_, List.getElem?_concat_length, rfl⟩
    · obtain ⟨J, hJ, hdispatch⟩ := h.job d' D' j hD' hj
      exact ⟨J, getElem?_append_of_eq_some hJ, hdispatch⟩
  added j J hJ := by
    rcases getElem?_push hJ with hJ | ⟨rfl, rfl⟩
    · obtain ⟨D', hD', hj, hrest⟩ := h.added j J hJ
      refine ⟨D', ?_, hj, hrest⟩
      -- the dispatch that adds a job has none yet
      rw [List.getElem?_set_ne]
      · exact hD'
      · rintro rfl
        cases hD.symm.trans hD'
        rw [hcalled] at hj
        cases hj
    · exact ⟨_, getElem?_set_of_eq_some hD, rfl, rfl, rfl⟩
  taken j J a hJ hbody := by
    rcases getElem?_push hJ with hJ | ⟨_, rfl⟩
    · exact h.taken j J a hJ hbody
    · cases hbody
  served a A hA hcaller := by
    obtain ⟨j, J, hJ, hbody⟩ := h.served a A hA hcaller
    exact ⟨j, J, getElem?_append_of_eq_some hJ, hbody⟩
  finished j J a r hJ hstate := by
    rcases getElem?_push hJ with hJ | ⟨_, rfl⟩
    · exact h.finished j J a r hJ hstate
    · cases hstate
  settled d' D' j o hD' hstate := by
    rcases getElem?_set_cases hD' with ⟨rfl, rfl⟩ | ⟨_, hD'⟩
    · cases hstate
    · obtain ⟨J, a, r, hJ, hrest⟩ := h.settled d' D' j o hD' hstate
      exact ⟨J, a, r, getElem?_append_of_eq_some hJ, hrest⟩

/-- A job changes its state. -/
theorem Booked.setJob {as : List (Activation σ)} {t : WriteJobState} (h : Booked N frames s)
    (hJ : s.jobs[j]? = some J) (hunfinished : J.state.isFinished = false)
    (htaken : ∀ a, t.body = some a →
      ∃ A, as[a]? = some A ∧ A.caller = none ∧ A.method = J.method ∧ A.args = J.args)
    (hkept : ∀ a, J.state.body = some a → t.body = some a)
    (hold : ∀ (a : Nat) A, s.activations[a]? = some A → as[a]? = some A)
    (hserved : ∀ (a : Nat) A, as[a]? = some A → A.caller = none →
      s.activations[a]? = some A ∨ t.body = some a)
    (hfinished : ∀ a r, t = .finished a r →
      ∃ A o, as[a]? = some A ∧ A.code = .settle o ∧ r = WriteQueueRegistry.finished o) :
    Booked N frames { s with activations := as, jobs := s.jobs.set j { J with state := t } } where
  outside := h.outside
  job d D k hD hk := by
    obtain ⟨J', hJ', hdispatch⟩ := h.job d D k hD hk
    by_cases hkj : k = j
    · subst hkj
      cases hJ.symm.trans hJ'
      exact ⟨_, getElem?_set_of_eq_some hJ, hdispatch⟩
    · exact ⟨J', (List.getElem?_set_ne (Ne.symm hkj)).trans hJ', hdispatch⟩
  added k J' hJ' := by
    rcases getElem?_set_cases hJ' with ⟨rfl, rfl⟩ | ⟨_, hJ'⟩
    · exact h.added k J hJ
    · exact h.added k J' hJ'
  taken k J' a hJ' hbody := by
    rcases getElem?_set_cases hJ' with ⟨rfl, rfl⟩ | ⟨_, hJ'⟩
    · exact htaken a hbody
    · obtain ⟨A, hA, hrest⟩ := h.taken k J' a hJ' hbody
      exact ⟨A, hold a A hA, hrest⟩
  served a A hA hcaller := by
    rcases hserved a A hA hcaller with hA | hbody
    · obtain ⟨k, J', hJ', hbody⟩ := h.served a A hA hcaller
      by_cases hkj : k = j
      · subst hkj
        cases hJ.symm.trans hJ'
        exact ⟨k, _, getElem?_set_of_eq_some hJ, hkept a hbody⟩
      · exact ⟨k, J', (List.getElem?_set_ne (Ne.symm hkj)).trans hJ', hbody⟩
    · exact ⟨j, _, getElem?_set_of_eq_some hJ, hbody⟩
  finished k J' a r hJ' hstate := by
    rcases getElem?_set_cases hJ' with ⟨rfl, rfl⟩ | ⟨_, hJ'⟩
    · exact hfinished a r hstate
    · obtain ⟨A, o, hA, hrest⟩ := h.finished k J' a r hJ' hstate
      exact ⟨A, o, hold a A hA, hrest⟩
  settled d D k o hD hstate := by
    obtain ⟨J', a, r, hJ', hJstate, ho⟩ := h.settled d D k o hD hstate
    have hkj : k ≠ j := by
      rintro rfl
      cases hJ.symm.trans hJ'
      rw [hJstate] at hunfinished
      cases hunfinished
    exact ⟨J', a, r, (List.getElem?_set_ne (Ne.symm hkj)).trans hJ', hJstate, ho⟩

theorem Booked.settle {result : Except ErrorText Value} (h : Booked N frames s)
    (hD : s.dispatches[d]? = some D) (hwaiting : D.state = .waiting j) (hJ : s.jobs[j]? = some J)
    (hfinished : J.state = .finished a result) : Booked N frames { s with
      dispatches := s.dispatches.set d
        { D with state := .settled j (WriteQueueRegistry.settled N frames result) } } where
  outside D' hD' := by
    rcases List.mem_or_eq_of_mem_set hD' with hD' | rfl
    · exact h.outside D' hD'
    · exact h.outside D (List.mem_of_getElem? hD)
  job d' D' k hD' hk := by
    rcases getElem?_set_cases hD' with ⟨rfl, rfl⟩ | ⟨_, hD'⟩
    · cases hk
      exact h.job d' D j hD (by rw [hwaiting]; rfl)
    · exact h.job d' D' k hD' hk
  added k J' hJ' := by
    obtain ⟨D', hD', hk, hrest⟩ := h.added k J' hJ'
    by_cases hdispatch : J'.dispatch = d
    · subst hdispatch
      cases hD.symm.trans hD'
      rw [hwaiting] at hk
      exact ⟨_, getElem?_set_of_eq_some hD, hk, hrest⟩
    · exact ⟨D', (List.getElem?_set_ne (Ne.symm hdispatch)).trans hD', hk, hrest⟩
  taken := h.taken
  served := h.served
  finished := h.finished
  settled d' D' k o hD' hstate := by
    rcases getElem?_set_cases hD' with ⟨rfl, rfl⟩ | ⟨_, hD'⟩
    · cases hstate
      exact ⟨J, a, result, hJ, hfinished, rfl⟩
    · exact h.settled d' D' k o hD' hstate

theorem Inv.init (store : σ) : Inv N frames (init store) := by
  refine ⟨⟨?_, ?_, ?_⟩, ⟨?_, ?_, ?_, ?_, ?_, ?_, ?_⟩⟩ <;> simp [CallTree.init]

/-- In the context of a worker the wrapper calls the method directly. -/
theorem invoke_decorated {processing : Bool} (h : processing = true) {caller : Option Nat}
    {method : UseQueueMethod} {args : List Value} :
    s.invoke original decorated processing caller method args = { s with
      activations := s.activations ++
        [⟨method, args, true, caller, [], original method args⟩] } := by
  subst h
  rfl

theorem promise_decorated {processing : Bool} (h : processing = true) :
    s.promise decorated processing = .body s.activations.length := by
  subst h
  rfl

/-- An execution calls a decorated method, which starts at once. -/
theorem Inv.nested {B : Activation σ} (h : Inv N frames s) (hA : s.activations[a]? = some A)
    (hcode : A.code.outcome = none) (hprocessing : B.processing = true) (hcalls : B.calls = [])
    (hcaller : B.caller = some a) (code : Code σ) :
    Inv N frames { s with
      activations := s.activations.set a
        { A with calls := A.calls ++ [.body s.activations.length], code } ++ [B] } := by
  have hlt := (List.getElem?_eq_some_iff.mp hA).1
  have hscope : Scoped ((s.activations ++ [B]).set a
        { A with calls := A.calls ++ [.body s.activations.length], code }) := by
    refine (h.scope.push hprocessing hcalls ?_).set (getElem?_append_of_eq_some hA) ?_
    · intro c hc
      cases hcaller.symm.trans hc
      exact hlt
    · rw [List.length_append, List.length_singleton]
      intro p hp
      rcases List.mem_append.mp hp with hp | hp
      · obtain ⟨b, hb, hab, hlength⟩ := h.scope.calls a A hA p hp
        exact ⟨b, hb, hab, Nat.lt_succ_of_lt hlength⟩
      · exact ⟨_, List.mem_singleton.mp hp, hlt, Nat.lt_succ_self _⟩
  refine ⟨List.set_append_left _ _ hlt ▸ hscope,
    h.books.grow ((Grows.set hA hcode).trans (.push ?_))⟩
  rw [hcaller]
  exact Option.some_ne_none a

theorem Inv.advance (h : Inv N frames s) (hA : s.activations[a]? = some A)
    (hadvance : s.advance original decorated a A = some s') : Inv N frames s' := by
  have hprocessing := h.scope.processing A (List.mem_of_getElem? hA)
  obtain ⟨hcode, ⟨code, store, rfl⟩ | ⟨method, args, next, rfl⟩⟩ := advance_cases hadvance
  · exact ⟨h.scope.set hA (h.scope.calls a A hA), h.books.grow (.set hA hcode)⟩
  · rw [promise_decorated hprocessing, invoke_decorated hprocessing]
    exact h.nested hA hcode rfl rfl rfl next

theorem Inv.step (h : Inv N frames s) (hs : step N frames original decorated s e = some s') :
    Inv N frames s' := by
  cases step_moves hs with
  | call method args => exact ⟨h.scope, h.books.call method args⟩
  | run hA hadvance => exact h.advance hA hadvance
  | add hD hcalled => exact ⟨h.scope, h.books.add hD hcalled⟩
  | @take j J hJ hwaiting =>
    refine ⟨h.scope.push rfl rfl nofun, h.books.setJob hJ (by rw [hwaiting]; rfl) ?_ ?_ ?_ ?_ nofun⟩
    · rintro _ ⟨⟩
      exact ⟨_, List.getElem?_concat_length, rfl, rfl, rfl⟩
    · intro a ha
      rw [hwaiting] at ha
      cases ha
    · exact fun a A hA => getElem?_append_of_eq_some hA
    · intro a A hA _
      rcases getElem?_push hA with hA | ⟨rfl, _⟩
      · exact .inl hA
      · exact .inr rfl
  | @finish j J a A o hJ hactive hA ho =>
    refine ⟨h.scope, h.books.setJob hJ (by rw [hactive]; rfl) ?_ ?_ (fun _ _ => id) ?_ ?_⟩
    · rintro _ ⟨⟩
      exact h.books.taken j J a hJ (by rw [hactive]; rfl)
    · intro b hb
      rw [hactive] at hb
      exact hb
    · exact fun b B hB _ => .inl hB
    · rintro _ _ ⟨⟩
      exact ⟨A, o, hA, ho, rfl⟩
  | settle hD hwaiting hJ hfinished => exact ⟨h.scope, h.books.settle hD hwaiting hJ hfinished⟩

end CallTree

end NestHarness
