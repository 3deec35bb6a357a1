import NestHarness.Queue.Consumers
import NestHarness.Queue.Dispatch

/-!
# Delivery of the jobs of one process

A single process whose services are singletons, from its start on an empty Redis, with the books of
what it does: which dispatch added a job, which bodies the workers started, how each job ended and
what each dispatch was settled with.
-/

namespace NestHarness

/-- The start of a body: the worker's consumer, the job, and what `originalFn.apply` is given. -/
structure Execution where
  consumerKey : String
  job : Nat
  handler : JobHandler
  args : List Json

/-- A deployment of the process `0` with its books: `adders` are the dispatches that added the jobs,
in the order of `queue.add`. -/
structure Ledger where
  deployment : Deployment
  adders : List Nat
  executions : List Execution
  outcomes : List (Nat × Except Exn Json)
  results : List (Nat × Except Exn Json)

namespace Ledger

inductive Event where
  | load (method : UseQueueMethod)
  | startup
  | call (method : UseQueueMethod) (args : List Json)
  | dispatch (d : Nat)
  | take (i : Nat)
  | finish (job : Nat) (outcome : Except Exn Json)

/-- The services are singletons and the job keys of a consumer are distinct: a method has one
handler. -/
def Event.toDeployment (handlerOf : UseQueueMethod → JobHandler) : Event → Deployment.Event
  | .load method => .load 0 method
  | .startup => .startup 0
  | .call method args => .call 0 method (handlerOf method) args
  | .dispatch d => .dispatch 0 d
  | .take i => .take 0 i
  | .finish job outcome => .finish job outcome.isOk

variable (s : Ledger)

def dispatchState (d : Nat) : Option DispatchState := do
  let P ← s.deployment.processes 0
  let c ← P.dispatches[d]?
  return c.state

/-- The body that the worker of a consumer starts with the next job. -/
def starting (i : Nat) : Option Execution := do
  let P ← s.deployment.processes 0
  let c ← P.built[i]?
  let j ← s.deployment.oldest c.consumerKey
  let job ← s.deployment.jobs[j]?
  match Deployment.takenState 0 i P c job with
  | .active _ _ handler => some ⟨c.consumerKey, j, handler, job.args⟩
  | _ => none

/-- The books after an event. `waitUntilFinished` gives the outcome of the job it was called on. -/
def record : Event → Ledger
  | .dispatch d =>
    match s.dispatchState d with
    | some (.got _) => { s with adders := s.adders ++ [d] }
    | some (.accepted _ j) =>
      { s with results := s.results ++
          ((s.outcomes.lookup j).map fun o => (d, WriteQueueRegistry.dispatched o)).toList }
    | _ => s
  | .take i => { s with executions := s.executions ++ (s.starting i).toList }
  | .finish job outcome => { s with outcomes := s.outcomes ++ [(job, outcome)] }
  | .load _ | .startup | .call _ _ => s

def step (handlerOf : UseQueueMethod → JobHandler) (s : Ledger) (e : Event) : Option Ledger :=
  (s.deployment.step (e.toDeployment handlerOf)).map fun deployment =>
    { s.record e with deployment }

def start (methods : List UseQueueMethod) : Ledger where
  deployment := Deployment.init.setProcess 0 (.start methods)
  adders := []
  executions := []
  outcomes := []
  results := []

/-- The jobs of a consumer whose bodies have been started, in this order. -/
def executed (consumerKey : String) : List Nat :=
  (s.executions.filter (·.consumerKey = consumerKey)).map (·.job)

end Ledger

/-- The jobs of a queue in the order they were added. -/
def Deployment.queueOf (s : Deployment) (queue : String) : List Nat :=
  (List.range s.jobs.length).filter fun j => s.jobs[j]?.any (·.queue = queue)

/-! ## Calls and the states they go through -/

/-- `queue.add` has ended. -/
def DispatchState.accepting : DispatchState → Bool
  | .accepted _ _ | .settled _ => true
  | .called | .connecting _ | .ensured | .got _ => false

theorem DispatchState.consumer_of_accepting {t : DispatchState} (h : t.accepting = true) :
    ∃ i, t.consumer = some i := by
  cases t with
  | accepted i | settled i => exact ⟨i, rfl⟩
  | called | connecting | ensured | got => cases h

/-- The state a move leaves the dispatch in: a state before `queue.add`, or after it, with the job
it adds or has awaited. -/
theorem DispatchMove.state {jobs : List Job} {P P' : Process} {d : Nat} {c : Dispatch}
    (hm : DispatchMove jobs P d c P') : ∃ t,
      P'.dispatches = P.dispatches.modify d ({ · with state := t }) ∧
      ((c.state.accepting = false ∧ t.accepting = false ∧ c.added = []) ∨
        (∃ i, c.state = .got i ∧ t = .accepted i jobs.length) ∨
        ∃ i j job, c.state = .accepted i j ∧ t = .settled i ∧ jobs[j]? = some job ∧ c.added = [] ∧
          (job.state matches .completed | .failed | .noHandler _)) := by
  cases hm with
  | found hs | store hs | get hs =>
    exact ⟨_, rfl, .inl ⟨hs ▸ rfl, rfl, by simp [Dispatch.added, hs]⟩⟩
  | construct hs => exact ⟨_, rfl, .inl ⟨hs ▸ rfl, rfl, by simp [Dispatch.added, hs]⟩⟩
  | add hs => exact ⟨_, rfl, .inr (.inl ⟨_, hs, rfl⟩)⟩
  | settle hs hjob hdone =>
    exact ⟨_, rfl, .inr (.inr ⟨_, _, _, hs, rfl, hjob, by simp [Dispatch.added, hs], hdone⟩)⟩

namespace Process

/-- The state of a call. -/
def stateOf (P : Process) (d : Nat) : Option DispatchState := P.dispatches[d]?.map (·.state)

/-- The calls and consumers of `P` are among those of `P'`. -/
structure Extends (P P' : Process) : Prop where
  data : ∀ (d : Nat) (c : Dispatch), P.dispatches[d]? = some c → ∃ c' : Dispatch,
    P'.dispatches[d]? = some c' ∧ c'.method = c.method ∧ c'.handler = c.handler ∧ c'.args = c.args
  keys : P.built.map (·.consumerKey) <+: P'.built.map (·.consumerKey)

/-- The handlers of a process are those of its methods. -/
structure Faithful (handlerOf : UseQueueMethod → JobHandler) (P : Process) : Prop
    extends P.Inv where
  singleton : ∀ c ∈ P.dispatches, c.handler = handlerOf c.method
  own : ∀ b ∈ P.built, ∀ jobKey handler, b.handlers.lookup jobKey = some handler →
    handler = handlerOf ⟨b.consumerKey, jobKey⟩
  ensured : ∀ c ∈ P.dispatches, c.state = .ensured →
    (P.consumers.lookup c.method.consumerKey).isSome

variable {handlerOf : UseQueueMethod → JobHandler} {P P' : Process} {i d k : Nat} {key : String}
  {c : Dispatch} {jobs : List Job} {t : DispatchState}

theorem stateOf_eq (hc : P.dispatches[d]? = some c) : P.stateOf d = some c.state :=
  congrArg _ hc

theorem Extends.of_dispatches (hdispatches : P'.dispatches = P.dispatches)
    (hkeys : P.built.map (·.consumerKey) <+: P'.built.map (·.consumerKey)) : P.Extends P' where
  data _ c hc := ⟨c, hdispatches ▸ hc, rfl, rfl, rfl⟩
  keys := hkeys

theorem Extends.keyOf (h : P.Extends P') (hi : P.keyOf i = some key) : P'.keyOf i = some key := by
  rw [Process.keyOf, ← List.getElem?_map] at hi ⊢
  obtain ⟨hlt, hkey⟩ := List.getElem?_eq_some_iff.mp hi
  rw [← hkey]
  exact List.prefix_iff_getElem?.mp h.keys i hlt

theorem Extends.nodup (h : P.Extends P') (hP' : (P'.built.map (·.consumerKey)).Nodup) :
    (P.built.map (·.consumerKey)).Nodup :=
  hP'.sublist h.keys.sublist

theorem stateOf_modify (hdispatches : P'.dispatches = P.dispatches.modify d ({ · with state := t }))
    (hc : P.dispatches[d]? = some c) : P'.stateOf k = if k = d then some t else P.stateOf k := by
  rw [stateOf, hdispatches, List.getElem?_modify, stateOf]
  by_cases hk : d = k
  · subst hk
    simp [hc]
  · simp [hk, Ne.symm hk]

theorem keys_setHandler (P : Process) (i : Nat) (jobKey : String) (handler : JobHandler) :
    (P.setHandler i jobKey handler).built.map (·.consumerKey) = P.built.map (·.consumerKey) := by
  refine List.ext_getElem? ?_
  intro j
  rw [List.getElem?_map, List.getElem?_map]
  exact keyOf_setHandler

theorem Extends.of_modify
    (hdispatches : P'.dispatches = P.dispatches.modify d ({ · with state := t }))
    (hkeys : P.built.map (·.consumerKey) <+: P'.built.map (·.consumerKey)) : P.Extends P' where
  data k c hc := by
    rw [hdispatches, List.getElem?_modify, hc]
    refine ⟨_, rfl, ?_⟩
    split <;> exact ⟨rfl, rfl, rfl⟩
  keys := hkeys

theorem Extends.move (hm : DispatchMove jobs P d c P') : P.Extends P' := by
  obtain ⟨t, ht, _⟩ := hm.state
  refine .of_modify ht ?_
  cases hm with
  | found | store | add | settle => exact List.prefix_rfl
  | construct =>
    simp only [setState, List.map_append]
    exact List.prefix_append ..
  | get => exact (keys_setHandler ..).symm ▸ List.prefix_rfl

theorem Extends.call (P : Process) (c : Dispatch) :
    P.Extends { P with dispatches := P.dispatches ++ [c] } where
  data d c' hc := by
    refine ⟨c', ?_, rfl, rfl, rfl⟩
    rw [List.getElem?_append_left (List.getElem?_eq_some_iff.mp hc).1]
    exact hc
  keys := List.prefix_rfl

theorem Faithful.start (methods : List UseQueueMethod) : (start methods).Faithful handlerOf where
  toInv := .start methods
  singleton _ h := by cases h
  own _ h := by cases h
  ensured _ h := by cases h

theorem lookup_store (h : (P.consumers.lookup key).isSome) {k : String} :
    ((P.store k i).consumers.lookup key).isSome := by
  rw [Process.store, List.lookup_cons]
  split
  · rfl
  · exact h

theorem mem_modify (hc : P.dispatches[d]? = some c) {c' : Dispatch}
    (h : c' ∈ P.dispatches.modify d ({ · with state := t })) :
    c' ∈ P.dispatches ∨ c' = { c with state := t } := by
  rcases (mem_setState hc).mp h with ⟨k, _, hk⟩ | rfl
  · exact .inl (List.mem_of_getElem? hk)
  · exact .inr rfl

/-- `handlers.set` of a call of the method `jobKey` of the consumer. -/
theorem Faithful.setHandler (h : P.Faithful handlerOf) (hi : P.keyOf i = some key)
    {jobKey : String} {b : ConsumerSet}
    (hb : b ∈ (P.setHandler i jobKey (handlerOf ⟨key, jobKey⟩)).built) {name : String}
    {handler : JobHandler} (hname : b.handlers.lookup name = some handler) :
    handler = handlerOf ⟨b.consumerKey, name⟩ := by
  obtain ⟨j, hj⟩ := List.mem_iff_getElem?.mp hb
  obtain ⟨b₀, hb₀, rfl⟩ := Option.map_eq_some_iff.mp (getElem?_setHandler.symm.trans hj)
  have hown := h.own b₀ (List.mem_of_getElem? hb₀)
  by_cases hij : i = j
  · subst hij
    rw [if_pos rfl] at hname ⊢
    obtain ⟨b₁, hb₁, hkey⟩ := Option.map_eq_some_iff.mp hi
    cases hb₀.symm.trans hb₁
    rw [List.lookup_cons] at hname
    split at hname
    · next heq =>
      cases hname
      rw [hkey, eq_of_beq heq]
    · exact hown name handler hname
  · rw [if_neg hij] at hname ⊢
    exact hown name handler hname

theorem Faithful.move (h : P.Faithful handlerOf) (hm : DispatchMove jobs P d c P')
    (hc : P.dispatches[d]? = some c) : P'.Faithful handlerOf := by
  have hP := hm.inv h.toInv hc
  have hmem := List.mem_of_getElem? hc
  have hsingleton : ∀ c' ∈ P'.dispatches, c'.handler = handlerOf c'.method := by
    obtain ⟨t, ht, _⟩ := hm.state
    intro c' hc'
    rw [ht] at hc'
    rcases mem_modify hc hc' with hc' | rfl
    · exact h.singleton c' hc'
    · exact h.singleton c hmem
  cases hm with
  | found hs hsome =>
    refine ⟨hP, hsingleton, h.own, ?_⟩
    intro c' hc' hs'
    rcases mem_modify hc hc' with hc' | rfl
    · exact h.ensured c' hc' hs'
    · exact hsome
  | construct hs hnone =>
    refine ⟨hP, hsingleton, ?_, ?_⟩
    · intro b hb
      rcases List.mem_append.mp hb with hb | hb
      · exact h.own b hb
      · cases List.mem_singleton.mp hb
        nofun
    · intro c' hc' hs'
      rcases mem_modify hc hc' with hc' | rfl
      · exact h.ensured c' hc' hs'
      · cases hs'
  | store hs =>
    refine ⟨hP, hsingleton, h.own, ?_⟩
    intro c' hc' hs'
    rcases mem_modify hc hc' with hc' | rfl
    · exact lookup_store (h.ensured c' hc' hs')
    · simp [Process.store, setState]
  | get hs hi =>
    refine ⟨hP, hsingleton, ?_, ?_⟩
    · intro b hb name handler hname
      rw [h.singleton c hmem] at hb
      exact h.setHandler (h.stored _ _ hi) hb hname
    · intro c' hc' hs'
      rcases mem_modify hc hc' with hc' | rfl
      · exact h.ensured c' hc' hs'
      · cases hs'
  | add hs | settle hs =>
    refine ⟨hP, hsingleton, h.own, ?_⟩
    intro c' hc' hs'
    rcases mem_modify hc hc' with hc' | rfl
    · exact h.ensured c' hc' hs'
    · cases hs'

theorem Faithful.onModuleInit (h : P.Faithful handlerOf) (hP : P.onModuleInit = some P') :
    P'.Faithful handlerOf := by
  have hinv := h.toInv.onModuleInit hP
  obtain ⟨_, _, _, _, rfl⟩ | ⟨n, key, _, _, _, rfl⟩ | ⟨n, key, i, _, rfl⟩ := onModuleInit_cases hP
  · exact ⟨hinv, h.singleton, h.own, h.ensured⟩
  · refine ⟨hinv, h.singleton, ?_, h.ensured⟩
    intro b hb
    rcases List.mem_append.mp hb with hb | hb
    · exact h.own b hb
    · cases List.mem_singleton.mp hb
      nofun
  · exact ⟨hinv, h.singleton, h.own, fun c hc hs => lookup_store (h.ensured c hc hs)⟩

theorem onModuleInit_extends (hP : P.onModuleInit = some P') :
    P'.dispatches = P.dispatches ∧ P.Extends P' := by
  obtain ⟨_, _, _, _, rfl⟩ | ⟨n, key, _, _, _, rfl⟩ | ⟨n, key, i, _, rfl⟩ := onModuleInit_cases hP
  · exact ⟨rfl, .of_dispatches rfl List.prefix_rfl⟩
  · refine ⟨rfl, .of_dispatches rfl ?_⟩
    rw [List.map_append]
    exact List.prefix_append ..
  · exact ⟨rfl, .of_dispatches rfl List.prefix_rfl⟩

theorem Faithful.call (h : P.Faithful handlerOf) (method : UseQueueMethod) (args : List Json) :
    Faithful handlerOf
      { P with dispatches := P.dispatches ++ [⟨method, handlerOf method, args, .called⟩] } where
  toInv := h.toInv.call method (handlerOf method) args
  singleton c hc := by
    rcases List.mem_append.mp hc with hc | hc
    · exact h.singleton c hc
    · cases List.mem_singleton.mp hc
      rfl
  own := h.own
  ensured c hc hs := by
    rcases List.mem_append.mp hc with hc | hc
    · exact h.ensured c hc hs
    · cases List.mem_singleton.mp hc
      cases hs

theorem Faithful.load (h : P.Faithful handlerOf) (method : UseQueueMethod) :
    Faithful handlerOf { P with methods := P.methods ++ [method] } where
  toInv := h.toInv.load method
  singleton := h.singleton
  own := h.own
  ensured := h.ensured

end Process

/-! ## The books -/

/-- The body of a job has started. -/
def JobState.started : JobState → Bool
  | .waiting => false
  | .active _ _ _ | .stalled | .completed | .failed | .noHandler _ => true

def JobState.running : JobState → Bool
  | .active _ _ _ => true
  | .waiting | .stalled | .completed | .failed | .noHandler _ => false

def JobState.ended : JobState → Bool
  | .completed | .failed => true
  | .waiting | .active _ _ _ | .stalled | .noHandler _ => false

/-- A job of the process: its worker, while it is active, is that of its queue. -/
def Job.Known (P : Process) (job : Job) : Prop :=
  match job.state with
  | .waiting | .completed | .failed => True
  | .active p i _ => p = 0 ∧ P.keyOf i = some job.queue
  | .stalled | .noHandler _ => False

/-- The job of the call `d`. -/
def Job.Of (P : Process) (d : Nat) (job : Job) : Prop :=
  ∃ c : Dispatch, P.dispatches[d]? = some c ∧ job.queue = c.method.consumerKey ∧
    job.name = c.method.jobKey ∧ job.args = c.args

/-- The execution of the body of the call `d`, on its own service and with its own arguments. -/
def Execution.Of (P : Process) (d : Nat) (e : Execution) : Prop :=
  ∃ c : Dispatch, P.dispatches[d]? = some c ∧ e.consumerKey = c.method.consumerKey ∧
    e.handler = c.handler ∧ e.args = c.args

theorem Job.Of.mono {P P' : Process} {d : Nat} {job : Job} (h : job.Of P d) (hP : P.Extends P') :
    job.Of P' d := by
  obtain ⟨c, hc, hqueue, hname, hargs⟩ := h
  obtain ⟨c', hc', hmethod, _, hargs'⟩ := hP.data d c hc
  exact ⟨c', hc', hmethod ▸ hqueue, hmethod ▸ hname, hargs' ▸ hargs⟩

theorem Execution.Of.mono {P P' : Process} {d : Nat} {e : Execution} (h : e.Of P d)
    (hP : P.Extends P') : e.Of P' d := by
  obtain ⟨c, hc, hkey, hhandler, hargs⟩ := h
  obtain ⟨c', hc', hmethod, hhandler', hargs'⟩ := hP.data d c hc
  exact ⟨c', hc', hmethod ▸ hkey, hhandler' ▸ hhandler, hargs' ▸ hargs⟩

theorem Job.Known.mono {P P' : Process} {job : Job} (h : job.Known P) (hP : P.Extends P') :
    job.Known P' := by
  obtain ⟨queue, name, args, state⟩ := job
  cases state with
  | waiting | completed | failed => trivial
  | active p i handler => exact ⟨h.1, hP.keyOf h.2⟩
  | stalled | noHandler => exact h

theorem Job.Known.running {P : Process} {job : Job} (h : job.Known P)
    (hrun : job.state.running = true) :
    ∃ i handler, job.state = .active 0 i handler ∧ P.keyOf i = some job.queue := by
  obtain ⟨queue, name, args, state⟩ := job
  cases state with
  | active p i handler =>
    obtain ⟨rfl, hi⟩ := h
    exact ⟨i, handler, rfl, hi⟩
  | waiting | stalled | completed | failed | noHandler => cases hrun

namespace Ledger

/-- What the books say of the jobs and calls of the process. -/
structure Accounts (s : Ledger) (P : Process) : Prop where
  length : s.adders.length = s.deployment.jobs.length
  adders : s.adders.Nodup
  job : ∀ (j d : Nat) (job : Job), s.adders[j]? = some d → s.deployment.jobs[j]? = some job →
    job.Of P d
  adder : ∀ d, d ∈ s.adders ↔ ∃ t, P.stateOf d = some t ∧ t.accepting = true
  accepted : ∀ d i j, P.stateOf d = some (.accepted i j) → s.adders[j]? = some d
  execution : ∀ e ∈ s.executions, ∃ d, s.adders[e.job]? = some d ∧ e.Of P d
  executions : (s.executions.map (·.job)).Nodup
  outcomes : (s.outcomes.map (·.1)).Nodup
  results : (s.results.map (·.1)).Nodup
  begun : ∀ j ∈ s.executions.map (·.job), ∃ job : Job, s.deployment.jobs[j]? = some job ∧
    job.state.started = true
  ended : ∀ j ∈ s.outcomes.map (·.1), ∃ job : Job, s.deployment.jobs[j]? = some job ∧
    job.state.ended = true
  sent : ∀ d ∈ s.results.map (·.1), ∃ i, P.stateOf d = some (.settled i)
  result : ∀ d o, (d, o) ∈ s.results → ∃ j r, s.adders[j]? = some d ∧ (j, r) ∈ s.outcomes ∧
    o = WriteQueueRegistry.dispatched r

/-- How far the jobs of a process with one consumer for each key have come. -/
structure Progress (s : Ledger) (P : Process) : Prop where
  known : ∀ job ∈ s.deployment.jobs, job.Known P
  started : ∀ (j : Nat) (job : Job), s.deployment.jobs[j]? = some job →
    job.state.started = true → j ∈ s.executions.map (·.job)
  ended : ∀ (j : Nat) (job : Job), s.deployment.jobs[j]? = some job →
    job.state.ended = true → j ∈ s.outcomes.map (·.1)
  settled : ∀ d i, P.stateOf d = some (.settled i) → d ∈ s.results.map (·.1)
  fifo : ∀ key, s.executed key <+: s.deployment.queueOf key
  serial : ∀ (j j' : Nat) (job job' : Job), s.deployment.jobs[j]? = some job →
    s.deployment.jobs[j']? = some job' → job.queue = job'.queue → job.state.running = true →
    job'.state.running = true → j = j'

/-- The books of a process. -/
structure Kept (handlerOf : UseQueueMethod → JobHandler) (s : Ledger) (P : Process) : Prop
    extends Accounts s P where
  process : s.deployment.processes 0 = some P
  faithful : P.Faithful handlerOf
  progress : (P.built.map (·.consumerKey)).Nodup → Progress s P

variable {handlerOf : UseQueueMethod → JobHandler} {s s' : Ledger} {P P' : Process} {d i j : Nat}
  {c : Dispatch} {job : Job}

/-! ### Steps that touch no job -/

/-- The process moves, and no call ends its `queue.add` or settles. -/
theorem Accounts.quiet (h : Accounts s P) (hP : P.Extends P')
    (hstate : ∀ d t, t.accepting = true → (P'.stateOf d = some t ↔ P.stateOf d = some t))
    {deployment : Deployment} (hjobs : deployment.jobs = s.deployment.jobs) :
    Accounts { s with deployment } P' where
  length := hjobs ▸ h.length
  adders := h.adders
  job j d job hd hj := (h.job j d job hd (hjobs ▸ hj)).mono hP
  adder d := by
    rw [h.adder d]
    constructor
    · rintro ⟨t, ht, hacc⟩
      exact ⟨t, (hstate d t hacc).mpr ht, hacc⟩
    · rintro ⟨t, ht, hacc⟩
      exact ⟨t, (hstate d t hacc).mp ht, hacc⟩
  accepted d i j hd := h.accepted d i j ((hstate d _ rfl).mp hd)
  execution e he := by
    obtain ⟨d, hd, hof⟩ := h.execution e he
    exact ⟨d, hd, hof.mono hP⟩
  executions := h.executions
  outcomes := h.outcomes
  results := h.results
  begun := hjobs ▸ h.begun
  ended := hjobs ▸ h.ended
  sent d hd := by
    obtain ⟨i, hi⟩ := h.sent d hd
    exact ⟨i, (hstate d _ rfl).mpr hi⟩
  result := h.result

theorem Progress.quiet (h : Progress s P) (hP : P.Extends P')
    (hstate : ∀ d t, t.accepting = true → (P'.stateOf d = some t ↔ P.stateOf d = some t))
    {deployment : Deployment} (hjobs : deployment.jobs = s.deployment.jobs) :
    Progress { s with deployment } P' where
  known job hjob := (h.known job (hjobs ▸ hjob)).mono hP
  started j job hj := h.started j job (hjobs ▸ hj)
  ended j job hj := h.ended j job (hjobs ▸ hj)
  settled d i hd := h.settled d i ((hstate d _ rfl).mp hd)
  fifo key := by
    have hfifo := h.fifo key
    rw [Deployment.queueOf] at hfifo ⊢
    rw [hjobs]
    exact hfifo
  serial j j' job job' hj hj' := h.serial j j' job job' (hjobs ▸ hj) (hjobs ▸ hj')

theorem Kept.quiet (h : Kept handlerOf s P) (hfaithful : P'.Faithful handlerOf)
    (hP : P.Extends P')
    (hstate : ∀ d t, t.accepting = true → (P'.stateOf d = some t ↔ P.stateOf d = some t)) :
    Kept handlerOf { s with deployment := s.deployment.setProcess 0 P' } P' where
  toAccounts := h.toAccounts.quiet hP hstate rfl
  process := by simp [Deployment.setProcess]
  faithful := hfaithful
  progress hnodup := (h.progress (hP.nodup hnodup)).quiet hP hstate rfl

/-! ### Steps of a call from its `queue.add` on -/

theorem Accounts.adder_lt (h : Accounts s P) (hd : s.adders[j]? = some d) :
    j < s.deployment.jobs.length :=
  h.length ▸ (List.getElem?_eq_some_iff.mp hd).1

/-- `queue.add` of the dispatch `d`. -/
def added (s : Ledger) (P' : Process) (d : Nat) (job : Job) : Ledger :=
  { s with
    deployment := { s.deployment.setProcess 0 P' with jobs := s.deployment.jobs ++ [job] }
    adders := s.adders ++ [d] }

theorem Accounts.add (h : Accounts s P) (hP : P.Extends P') (hc : P.dispatches[d]? = some c)
    (hnew : c.state.accepting = false)
    (hstate : ∀ k, P'.stateOf k =
      if k = d then some (.accepted i s.deployment.jobs.length) else P.stateOf k) :
    Accounts (s.added P' d ⟨c.method.consumerKey, c.method.jobKey, c.args, .waiting⟩) P' where
  length := by simp [added, h.length]
  adders := by
    refine nodup_push h.adders ?_
    intro hd
    obtain ⟨t, ht, hacc⟩ := (h.adder d).mp hd
    cases (Process.stateOf_eq hc).symm.trans ht
    exact absurd hacc (hnew ▸ nofun)
  job j d' job hd' hj := by
    rcases getElem?_push hj with hj | ⟨rfl, rfl⟩
    · have hold : s.adders[j]? = some d' := by
        rw [← hd', added, List.getElem?_append_left]
        exact h.length ▸ (List.getElem?_eq_some_iff.mp hj).1
      exact (h.job j d' job hold hj).mono hP
    · simp only [added, ← h.length, List.getElem?_concat_length, Option.some.injEq] at hd'
      subst hd'
      exact Job.Of.mono ⟨c, hc, rfl, rfl, rfl⟩ hP
  adder d' := by
    rw [hstate d']
    by_cases hd' : d' = d
    · rw [if_pos hd', hd']
      exact iff_of_true (List.mem_append_right _ List.mem_cons_self) ⟨_, rfl, rfl⟩
    · rw [if_neg hd', ← h.adder d']
      simp [added, hd']
  accepted d' i' j hd' := by
    rw [hstate d'] at hd'
    split at hd'
    · next heq =>
      cases hd'
      rw [heq, ← h.length]
      exact List.getElem?_concat_length
    · have hold := h.accepted d' i' j hd'
      exact (List.getElem?_append_left (List.getElem?_eq_some_iff.mp hold).1).trans hold
  execution e he := by
    obtain ⟨d', hd', hof⟩ := h.execution e he
    refine ⟨d', ?_, hof.mono hP⟩
    exact (List.getElem?_append_left (List.getElem?_eq_some_iff.mp hd').1).trans hd'
  executions := h.executions
  outcomes := h.outcomes
  results := h.results
  begun j hj := by
    obtain ⟨job, hjob, hstarted⟩ := h.begun j hj
    refine ⟨job, ?_, hstarted⟩
    exact (List.getElem?_append_left (List.getElem?_eq_some_iff.mp hjob).1).trans hjob
  ended j hj := by
    obtain ⟨job, hjob, hended⟩ := h.ended j hj
    refine ⟨job, ?_, hended⟩
    exact (List.getElem?_append_left (List.getElem?_eq_some_iff.mp hjob).1).trans hjob
  sent d' hd' := by
    obtain ⟨i, hi⟩ := h.sent d' hd'
    refine ⟨i, ?_⟩
    rw [hstate d', if_neg, hi]
    rintro rfl
    rw [Option.some.inj ((Process.stateOf_eq hc).symm.trans hi)] at hnew
    cases hnew
  result d' o ho := by
    obtain ⟨j, r, hj, hr, ho⟩ := h.result d' o ho
    refine ⟨j, r, ?_, hr, ho⟩
    exact (List.getElem?_append_left (List.getElem?_eq_some_iff.mp hj).1).trans hj

theorem queueOf_extends (s : Deployment) (P : Process) (job : Job) (key : String) :
    s.queueOf key <+:
      Deployment.queueOf { s.setProcess 0 P with jobs := s.jobs ++ [job] } key := by
  simp only [Deployment.queueOf, List.length_append, List.length_singleton, List.range_succ,
    List.filter_append]
  refine ⟨_, congrArg (· ++ _) (List.filter_congr ?_)⟩
  intro j hj
  rw [List.getElem?_append_left (List.mem_range.mp hj)]

theorem Progress.add (h : Progress s P) (hP : P.Extends P')
    (hstate : ∀ k, P'.stateOf k =
      if k = d then some (.accepted i s.deployment.jobs.length) else P.stateOf k) :
    Progress (s.added P' d ⟨c.method.consumerKey, c.method.jobKey, c.args, .waiting⟩) P' where
  known job hjob := by
    rcases List.mem_append.mp hjob with hjob | hjob
    · exact (h.known job hjob).mono hP
    · cases List.mem_singleton.mp hjob
      trivial
  started j job hj := by
    rcases getElem?_push hj with hj | ⟨rfl, rfl⟩
    · exact h.started j job hj
    · exact nofun
  ended j job hj := by
    rcases getElem?_push hj with hj | ⟨rfl, rfl⟩
    · exact h.ended j job hj
    · exact nofun
  settled d' i hd' := by
    rw [hstate d'] at hd'
    split at hd'
    · cases hd'
    · exact h.settled d' i hd'
  fifo key := (h.fifo key).trans (queueOf_extends ..)
  serial j j' job job' hj hj' hqueue hrun hrun' := by
    rcases getElem?_push hj with hj | ⟨_, rfl⟩
    · rcases getElem?_push hj' with hj' | ⟨_, rfl⟩
      · exact h.serial j j' job job' hj hj' hqueue hrun hrun'
      · cases hrun'
    · cases hrun

/-- The end of the dispatch `d`. -/
def settle (s : Ledger) (P' : Process) (d j : Nat) : Ledger :=
  { s with
    deployment := s.deployment.setProcess 0 P'
    results := s.results ++
      ((s.outcomes.lookup j).map fun o => (d, WriteQueueRegistry.dispatched o)).toList }

theorem mem_settle {d' : Nat} {o : Except Exn Json} :
    (d', o) ∈ (s.settle P' d j).results ↔ (d', o) ∈ s.results ∨
      ∃ r, s.outcomes.lookup j = some r ∧ d' = d ∧ o = WriteQueueRegistry.dispatched r := by
  simp only [settle, List.mem_append, Option.mem_toList, Option.map_eq_some_iff, Prod.mk.injEq]
  refine or_congr_right (exists_congr fun r => and_congr_right fun _ => ?_)
  exact and_congr eq_comm eq_comm

theorem mem_of_lookup {α : Type} {xs : List (Nat × α)} {k : Nat} {x : α}
    (h : xs.lookup k = some x) : (k, x) ∈ xs := by
  obtain ⟨l, r, rfl, _⟩ := List.lookup_eq_some_iff.mp h
  exact List.mem_append_right _ List.mem_cons_self

theorem Accounts.settle (h : Accounts s P) (hP : P.Extends P')
    (hd : P.stateOf d = some (.accepted i j))
    (hstate : ∀ k, P'.stateOf k = if k = d then some (.settled i) else P.stateOf k) :
    Accounts (s.settle P' d j) P' where
  length := h.length
  adders := h.adders
  job k d' job hd' hj := (h.job k d' job hd' hj).mono hP
  adder d' := by
    rw [hstate d']
    refine (h.adder d').trans ?_
    by_cases heq : d' = d
    · subst heq
      rw [hd, if_pos rfl]
      exact iff_of_true ⟨_, rfl, rfl⟩ ⟨_, rfl, rfl⟩
    · rw [if_neg heq]
  accepted d' i' k hd' := by
    rw [hstate d'] at hd'
    split at hd'
    · cases hd'
    · exact h.accepted d' i' k hd'
  execution e he := by
    obtain ⟨d', hd', hof⟩ := h.execution e he
    exact ⟨d', hd', hof.mono hP⟩
  executions := h.executions
  outcomes := h.outcomes
  results := by
    have hnew : d ∉ s.results.map (·.1) := by
      intro hmem
      obtain ⟨i', hi'⟩ := h.sent d hmem
      cases hd.symm.trans hi'
    cases hlookup : s.outcomes.lookup j with
    | none => simpa [Ledger.settle, hlookup] using h.results
    | some r =>
      simp only [Ledger.settle, hlookup, Option.map_some, Option.toList_some, List.map_append,
        List.map_cons, List.map_nil]
      exact nodup_push h.results hnew
  begun := h.begun
  ended := h.ended
  sent d' hd' := by
    rw [hstate d']
    obtain ⟨⟨_, o⟩, ho, rfl⟩ := List.mem_map.mp hd'
    rcases mem_settle.mp ho with ho | ⟨r, _, rfl, _⟩
    · obtain ⟨i', hi'⟩ := h.sent _ (List.mem_map_of_mem ho)
      refine ⟨i', ?_⟩
      rw [if_neg, hi']
      rintro rfl
      cases hd.symm.trans hi'
    · exact ⟨i, if_pos rfl⟩
  result d' o ho := by
    rcases mem_settle.mp ho with ho | ⟨r, hr, rfl, rfl⟩
    · exact h.result d' o ho
    · exact ⟨j, r, h.accepted d' i j hd, mem_of_lookup hr, rfl⟩

theorem Progress.settle (h : Progress s P) (hP : P.Extends P')
    (hstate : ∀ k, P'.stateOf k = if k = d then some (.settled i) else P.stateOf k)
    (hjob : s.deployment.jobs[j]? = some job) (hended : job.state.ended = true) :
    Progress (s.settle P' d j) P' where
  known job hjob := (h.known job hjob).mono hP
  started := h.started
  ended := h.ended
  settled d' i' hd' := by
    rw [hstate d'] at hd'
    split at hd'
    · next heq =>
      obtain ⟨⟨_, r⟩, hr, hj⟩ := List.mem_map.mp (h.ended j job hjob hended)
      obtain ⟨r', hr'⟩ := Option.isSome_iff_exists.mp
        (List.lookup_isSome_iff.mpr ⟨(_, r), hr, beq_of_eq hj.symm⟩)
      exact List.mem_map_of_mem (mem_settle.mpr (.inr ⟨r', hr', heq, rfl⟩))
    · obtain ⟨⟨_, o⟩, ho, rfl⟩ := List.mem_map.mp (h.settled d' i' hd')
      exact List.mem_map_of_mem (mem_settle.mpr (.inl ho))
  fifo := h.fifo
  serial := h.serial

/-! ### Steps of a worker -/

theorem getElem?_setJob (s : Deployment) (j k : Nat) (t : JobState) :
    (s.setJob j t).jobs[k]? =
      s.jobs[k]?.map fun job => { job with state := if k = j then t else job.state } := by
  rw [Deployment.setJob, List.getElem?_modify]
  by_cases hk : j = k
  · simp [hk]
  · simp [hk, Ne.symm hk]

theorem setJob_cases {s : Deployment} {t : JobState} {k : Nat} {job' : Job}
    (hjob : s.jobs[j]? = some job) (hk : (s.setJob j t).jobs[k]? = some job') :
    k ≠ j ∧ s.jobs[k]? = some job' ∨ k = j ∧ job' = { job with state := t } := by
  rw [getElem?_setJob] at hk
  obtain ⟨job₀, hjob₀, rfl⟩ := Option.map_eq_some_iff.mp hk
  by_cases hkj : k = j
  · subst hkj
    cases hjob.symm.trans hjob₀
    exact .inr ⟨rfl, by simp⟩
  · exact .inl ⟨hkj, by simp [hkj, hjob₀]⟩

theorem queueOf_setJob (s : Deployment) (j : Nat) (t : JobState) (key : String) :
    (s.setJob j t).queueOf key = s.queueOf key := by
  have hlength : (s.setJob j t).jobs.length = s.jobs.length := List.length_modify ..
  rw [Deployment.queueOf, hlength]
  refine List.filter_congr ?_
  intro k _
  rw [getElem?_setJob, Option.any_map]

/-- The job of a consumer that waits longest. -/
theorem oldest_cases {s : Deployment} {key : String} (h : s.oldest key = some j) :
    (∃ job, s.jobs[j]? = some job ∧ job.queue = key ∧ job.state = .waiting) ∧
      ∀ k job, k < j → s.jobs[k]? = some job → job.queue = key → job.state ≠ .waiting := by
  obtain ⟨hlt, hj, hmin⟩ := List.findIdx?_eq_some_iff_getElem.mp h
  refine ⟨⟨_, List.getElem?_eq_getElem hlt, of_decide_eq_true hj⟩, ?_⟩
  intro k job hk hjob hkey hwait
  obtain ⟨hk', rfl⟩ := List.getElem?_eq_some_iff.mp hjob
  exact hmin k hk (decide_eq_true ⟨hkey, hwait⟩)

/-- A prefix of a sorted list that lacks just one of the elements up to `j` goes on with it. -/
theorem prefix_push {l xs : List Nat} (hsorted : xs.Pairwise (· < ·)) (hl : l <+: xs) (hj : j ∈ xs)
    (hnew : j ∉ l) (hbefore : ∀ k ∈ xs, k < j → k ∈ l) : l ++ [j] <+: xs := by
  obtain ⟨t, rfl⟩ := hl
  cases t with
  | nil => exact absurd hj (by simpa using hnew)
  | cons x t =>
    have hx : x = j := by
      rcases List.mem_append.mp hj with hj | hj
      · exact absurd hj hnew
      · rcases List.mem_cons.mp hj with rfl | hj
        · rfl
        · obtain ⟨_, htail, hcross⟩ := List.pairwise_append.mp hsorted
          have hxl := hbefore x (by simp) (List.rel_of_pairwise_cons htail hj)
          exact absurd (hcross x hxl x List.mem_cons_self) (Nat.lt_irrefl x)
    rw [hx]
    exact ⟨t, by simp⟩

theorem Accounts.setJob (h : Accounts s P) (hjob : s.deployment.jobs[j]? = some job) {t : JobState}
    (hstarted : job.state.started = true → t.started = true)
    (hended : job.state.ended = true → t.ended = true) :
    Accounts { s with deployment := s.deployment.setJob j t } P where
  length := h.length.trans (List.length_modify ..).symm
  adders := h.adders
  job k d job' hd hk := by
    rw [getElem?_setJob] at hk
    obtain ⟨job₀, hjob₀, rfl⟩ := Option.map_eq_some_iff.mp hk
    exact h.job k d job₀ hd hjob₀
  adder := h.adder
  accepted := h.accepted
  execution := h.execution
  executions := h.executions
  outcomes := h.outcomes
  results := h.results
  begun k hk := by
    obtain ⟨job', hjob', hstarted'⟩ := h.begun k hk
    refine ⟨_, (getElem?_setJob ..).trans (congrArg _ hjob'), ?_⟩
    by_cases hkj : k = j
    · subst hkj
      cases hjob.symm.trans hjob'
      simpa using hstarted hstarted'
    · simpa [hkj] using hstarted'
  ended k hk := by
    obtain ⟨job', hjob', hended'⟩ := h.ended k hk
    refine ⟨_, (getElem?_setJob ..).trans (congrArg _ hjob'), ?_⟩
    by_cases hkj : k = j
    · subst hkj
      cases hjob.symm.trans hjob'
      simpa using hended hended'
    · simpa [hkj] using hended'
  sent := h.sent
  result := h.result

theorem Accounts.execute (h : Accounts s P) (job : Job) {e : Execution}
    (hd : s.adders[e.job]? = some d) (he : e.Of P d) (hnew : e.job ∉ s.executions.map (·.job))
    (hjob : s.deployment.jobs[e.job]? = some job) (hstarted : job.state.started = true) :
    Accounts { s with executions := s.executions ++ [e] } P where
  length := h.length
  adders := h.adders
  job := h.job
  adder := h.adder
  accepted := h.accepted
  execution e' he' := by
    rcases List.mem_append.mp he' with he' | he'
    · exact h.execution e' he'
    · cases List.mem_singleton.mp he'
      exact ⟨d, hd, he⟩
  executions := by
    rw [List.map_append]
    exact nodup_push h.executions hnew
  outcomes := h.outcomes
  results := h.results
  begun j hj := by
    rw [List.map_append] at hj
    rcases List.mem_append.mp hj with hj | hj
    · exact h.begun j hj
    · cases List.mem_singleton.mp hj
      exact ⟨job, hjob, hstarted⟩
  ended := h.ended
  sent := h.sent
  result := h.result

theorem Accounts.finish (h : Accounts s P) (job : Job) {o : Except Exn Json}
    (hnew : j ∉ s.outcomes.map (·.1)) (hjob : s.deployment.jobs[j]? = some job)
    (hended : job.state.ended = true) :
    Accounts { s with outcomes := s.outcomes ++ [(j, o)] } P where
  length := h.length
  adders := h.adders
  job := h.job
  adder := h.adder
  accepted := h.accepted
  execution := h.execution
  executions := h.executions
  outcomes := by
    rw [List.map_append]
    exact nodup_push h.outcomes hnew
  results := h.results
  begun := h.begun
  ended k hk := by
    rw [List.map_append] at hk
    rcases List.mem_append.mp hk with hk | hk
    · exact h.ended k hk
    · cases List.mem_singleton.mp hk
      exact ⟨job, hjob, hended⟩
  sent := h.sent
  result d o' ho := by
    obtain ⟨k, r, hk, hr, ho⟩ := h.result d o' ho
    exact ⟨k, r, hk, List.mem_append_left _ hr, ho⟩

/-- The worker of a consumer takes a job it has a handler for. -/
theorem Accounts.take {b : ConsumerSet} {handler : JobHandler} (h : Accounts s P)
    (hP : P.Faithful handlerOf) (hb : P.built[i]? = some b)
    (hj : s.deployment.oldest b.consumerKey = some j) (hjob : s.deployment.jobs[j]? = some job)
    (hhandler : b.handlers.lookup job.name = some handler) :
    Accounts { s with
      deployment := s.deployment.setJob j (.active 0 i handler)
      executions := s.executions ++ [⟨b.consumerKey, j, handler, job.args⟩] } P := by
  obtain ⟨⟨job', hjob', hkey, hwaiting⟩, _⟩ := oldest_cases hj
  cases hjob.symm.trans hjob'
  have hlt : j < s.adders.length := h.length ▸ (List.getElem?_eq_some_iff.mp hjob).1
  have hd := List.getElem?_eq_getElem hlt
  have hset : Accounts { s with deployment := s.deployment.setJob j (.active 0 i handler) } P :=
    h.setJob hjob (fun _ => rfl) (hwaiting ▸ nofun)
  refine hset.execute { job with state := .active 0 i handler } hd ?_ ?_ ?_ rfl
  · obtain ⟨c, hc, hqueue, hname, hargs⟩ := h.job j _ job hd hjob
    refine ⟨c, hc, hkey.symm.trans hqueue, ?_, hargs⟩
    rw [hP.own b (List.mem_of_getElem? hb) job.name handler hhandler,
      hP.singleton c (List.mem_of_getElem? hc), hname, ← hkey, hqueue]
  · intro hmem
    obtain ⟨job', hjob', hstarted⟩ := h.begun j hmem
    cases hjob.symm.trans hjob'
    rw [hwaiting] at hstarted
    cases hstarted
  · exact (getElem?_setJob ..).trans (by simp [hjob])

/-- The call of a job has got a consumer of the job's queue. -/
theorem Accounts.dispatched (h : Accounts s P) (hP : P.Inv)
    (hjob : s.deployment.jobs[j]? = some job) : ∃ i, P.keyOf i = some job.queue ∧
      P.Dispatched i ⟨job.queue, job.name⟩ := by
  have hlt : j < s.adders.length := h.length ▸ (List.getElem?_eq_some_iff.mp hjob).1
  have hd := List.getElem?_eq_getElem hlt
  obtain ⟨c, hc, hqueue, hname, _⟩ := h.job j _ job hd hjob
  obtain ⟨t, ht, hacc⟩ := (h.adder _).mp (List.mem_of_getElem? hd)
  cases (Process.stateOf_eq hc).symm.trans ht
  obtain ⟨i, hi⟩ := DispatchState.consumer_of_accepting hacc
  have hmem := List.mem_of_getElem? hc
  have hkey := hP.called c hmem i (DispatchState.index_of_consumer hi)
  exact ⟨i, hqueue ▸ hkey, c, hmem, by rw [hqueue, hname], hi⟩

/-- The consumer has been given the handler of every job in its queue. -/
theorem Kept.handler (h : Kept handlerOf s P) (hone : (P.built.map (·.consumerKey)).Nodup)
    {b : ConsumerSet} (hb : P.built[i]? = some b) (hjob : s.deployment.jobs[j]? = some job)
    (hkey : job.queue = b.consumerKey) : (b.handlers.lookup job.name).isSome := by
  obtain ⟨i', hkey', hdispatched⟩ := h.dispatched h.faithful.toInv hjob
  rw [hkey] at hkey' hdispatched
  obtain rfl : i' = i := Process.keyOf_inj hone hkey' (Process.keyOf_eq_some.mpr ⟨b, hb, rfl⟩)
  exact (h.faithful.handlers i' b hb job.name).mpr hdispatched

theorem not_busy {p : Nat} (hbusy : s.deployment.busy p i = false)
    (hjob : s.deployment.jobs[j]? = some job) {handler : JobHandler} :
    job.state ≠ .active p i handler := by
  intro hs
  rw [Deployment.busy, List.any_eq_false] at hbusy
  exact hbusy job (List.mem_of_getElem? hjob) (by simp [hs])

theorem mem_executed {key : String} :
    j ∈ s.executed key ↔ ∃ e ∈ s.executions, e.consumerKey = key ∧ e.job = j := by
  simp [executed, and_assoc]

theorem mem_queueOf {s : Deployment} {key : String} :
    j ∈ s.queueOf key ↔ ∃ job, s.jobs[j]? = some job ∧ job.queue = key := by
  rw [Deployment.queueOf, List.mem_filter, List.mem_range, Option.any_eq_true]
  simp only [decide_eq_true_eq]
  refine and_iff_right_of_imp ?_
  rintro ⟨job, hjob, _⟩
  exact (List.getElem?_eq_some_iff.mp hjob).1

/-- The body of a job runs for the queue of the job. -/
theorem Accounts.executed_queue (h : Accounts s P) {e : Execution} (he : e ∈ s.executions)
    (hjob : s.deployment.jobs[e.job]? = some job) : e.consumerKey = job.queue := by
  obtain ⟨d, hd, c, hc, hkey, _⟩ := h.execution e he
  obtain ⟨c', hc', hqueue, _⟩ := h.job e.job d job hd hjob
  cases hc.symm.trans hc'
  exact hkey.trans hqueue.symm

theorem Kept.fifo (h : Kept handlerOf s P) (hprogress : Progress s P) {key : String}
    (hj : s.deployment.oldest key = some j) :
    s.executed key ++ [j] <+: s.deployment.queueOf key := by
  obtain ⟨⟨job, hjob, hkey, hwaiting⟩, hbefore⟩ := oldest_cases hj
  refine prefix_push ?_ (hprogress.fifo key) (mem_queueOf.mpr ⟨job, hjob, hkey⟩) ?_ ?_
  · exact List.pairwise_lt_range.filter _
  · intro hmem
    obtain ⟨e, he, _, rfl⟩ := mem_executed.mp hmem
    obtain ⟨job', hjob', hstarted⟩ := h.begun e.job (List.mem_map_of_mem he)
    cases hjob.symm.trans hjob'
    rw [hwaiting] at hstarted
    cases hstarted
  · intro k hk hkj
    obtain ⟨job', hjob', hkey'⟩ := mem_queueOf.mp hk
    have hstarted : job'.state.started = true := by
      have hne := hbefore k job' hkj hjob' hkey'
      cases hs : job'.state with
      | waiting => exact absurd hs hne
      | active | stalled | completed | failed | noHandler => rfl
    obtain ⟨e, he, rfl⟩ := List.mem_map.mp (hprogress.started k job' hjob' hstarted)
    exact mem_executed.mpr ⟨e, he, (h.executed_queue he hjob').trans hkey', rfl⟩

theorem Kept.progress_take (h : Kept handlerOf s P) (hone : (P.built.map (·.consumerKey)).Nodup)
    {b : ConsumerSet} {handler : JobHandler} (hb : P.built[i]? = some b)
    (hj : s.deployment.oldest b.consumerKey = some j) (hjob : s.deployment.jobs[j]? = some job)
    (hbusy : s.deployment.busy 0 i = false) :
    Progress { s with
      deployment := s.deployment.setJob j (.active 0 i handler)
      executions := s.executions ++ [⟨b.consumerKey, j, handler, job.args⟩] } P := by
  have hprogress := h.progress hone
  obtain ⟨⟨job', hjob', hkey, hwaiting⟩, _⟩ := oldest_cases hj
  cases hjob.symm.trans hjob'
  have hi : P.keyOf i = some job.queue := Process.keyOf_eq_some.mpr ⟨b, hb, hkey.symm⟩
  have halone : ∀ (k : Nat) (job' : Job), s.deployment.jobs[k]? = some job' →
      job'.queue = job.queue → job'.state.running ≠ true := by
    intro k job' hk hqueue hrun
    obtain ⟨i', handler', hs, hi'⟩ :=
      (hprogress.known job' (List.mem_of_getElem? hk)).running hrun
    rw [hqueue] at hi'
    obtain rfl : i' = i := Process.keyOf_inj hone hi' hi
    exact not_busy hbusy hk hs
  constructor
  · intro job' hmem
    obtain ⟨k, hk⟩ := List.mem_iff_getElem?.mp hmem
    rcases setJob_cases hjob hk with ⟨_, hk⟩ | ⟨_, rfl⟩
    · exact hprogress.known job' (List.mem_of_getElem? hk)
    · exact ⟨rfl, hi⟩
  · intro k job' hk hstarted
    rw [List.map_append]
    rcases setJob_cases hjob hk with ⟨_, hk⟩ | ⟨rfl, _⟩
    · exact List.mem_append_left _ (hprogress.started k job' hk hstarted)
    · exact List.mem_append_right _ List.mem_cons_self
  · intro k job' hk hended
    rcases setJob_cases hjob hk with ⟨_, hk⟩ | ⟨_, rfl⟩
    · exact hprogress.ended k job' hk hended
    · cases hended
  · exact hprogress.settled
  · intro key
    refine (queueOf_setJob ..).symm ▸ ?_
    by_cases hb : b.consumerKey = key
    · subst hb
      simpa [executed] using h.fifo hprogress hj
    · simpa [executed, hb] using hprogress.fifo key
  · intro k k' job₁ job₂ hk hk' hqueue hrun hrun'
    rcases setJob_cases hjob hk with ⟨_, hold⟩ | ⟨rfl, rfl⟩
    · rcases setJob_cases hjob hk' with ⟨_, hold'⟩ | ⟨rfl, rfl⟩
      · exact hprogress.serial k k' job₁ job₂ hold hold' hqueue hrun hrun'
      · exact absurd hrun (halone k job₁ hold hqueue)
    · rcases setJob_cases hjob hk' with ⟨_, hold'⟩ | ⟨rfl, _⟩
      · exact absurd hrun' (halone k' job₂ hold' hqueue.symm)
      · rfl

theorem Progress.finish (h : Progress s P) (hjob : s.deployment.jobs[j]? = some job)
    (hrun : job.state.running = true) {t : JobState} (ht : t = .completed ∨ t = .failed)
    (o : Except Exn Json) :
    Progress { s with
      deployment := s.deployment.setJob j t, outcomes := s.outcomes ++ [(j, o)] } P := by
  have hended : t.ended = true := by rcases ht with rfl | rfl <;> rfl
  constructor
  · intro job' hmem
    obtain ⟨k, hk⟩ := List.mem_iff_getElem?.mp hmem
    rcases setJob_cases hjob hk with ⟨_, hk⟩ | ⟨_, rfl⟩
    · exact h.known job' (List.mem_of_getElem? hk)
    · rcases ht with rfl | rfl <;> trivial
  · intro k job' hk hstarted
    rcases setJob_cases hjob hk with ⟨_, hk⟩ | ⟨rfl, _⟩
    · exact h.started k job' hk hstarted
    · refine h.started k job hjob ?_
      cases hs : job.state with
      | active => rfl
      | waiting | stalled | completed | failed | noHandler =>
        rw [hs] at hrun
        cases hrun
  · intro k job' hk hended'
    rw [List.map_append]
    rcases setJob_cases hjob hk with ⟨_, hk⟩ | ⟨rfl, _⟩
    · exact List.mem_append_left _ (h.ended k job' hk hended')
    · exact List.mem_append_right _ List.mem_cons_self
  · exact h.settled
  · intro key
    exact (queueOf_setJob ..).symm ▸ h.fifo key
  · have hold : ∀ (k : Nat) (job' : Job), (s.deployment.setJob j t).jobs[k]? = some job' →
        job'.state.running = true → s.deployment.jobs[k]? = some job' := by
      intro k job' hk hrun'
      rcases setJob_cases hjob hk with ⟨_, hk⟩ | ⟨_, rfl⟩
      · exact hk
      · rcases ht with rfl | rfl <;> cases hrun'
    intro k k' job₁ job₂ hk hk' hqueue hrun₁ hrun₂
    exact h.serial k k' job₁ job₂ (hold k job₁ hk hrun₁) (hold k' job₂ hk' hrun₂) hqueue hrun₁ hrun₂

/-! ### Runs -/

theorem Kept.of_setJob (h : Kept handlerOf s P) {t : JobState} {executions : List Execution}
    {outcomes : List (Nat × Except Exn Json)}
    (haccounts : Accounts
      { s with deployment := s.deployment.setJob j t, executions, outcomes } P)
    (hprogress : (P.built.map (·.consumerKey)).Nodup → Progress
      { s with deployment := s.deployment.setJob j t, executions, outcomes } P) :
    Kept handlerOf
      { s with deployment := s.deployment.setJob j t, executions, outcomes } P where
  toAccounts := haccounts
  process := h.process
  faithful := h.faithful
  progress := hprogress

theorem Kept.take (h : Kept handlerOf s P)
    (hs : step handlerOf s (.take i) = some s') : Kept handlerOf s' P := by
  obtain ⟨dep, hdep, rfl⟩ := Option.map_eq_some_iff.mp hs
  have hfree : s.deployment.busy 0 i = false := by
    simp only [Event.toDeployment, Deployment.step, Option.bind_eq_bind,
      Option.bind_eq_some_iff] at hdep
    obtain ⟨_, _, _, _, _, _, _, _, hdep⟩ := hdep
    split at hdep
    · cases hdep
    · next hbusy => exact Bool.eq_false_iff.mpr hbusy
  obtain ⟨P', b, j, job, hP, hb, hj, hjob, rfl⟩ := Deployment.step_take hdep
  cases h.process.symm.trans hP
  obtain ⟨⟨job', hjob', hkey, hwaiting⟩, _⟩ := oldest_cases hj
  cases hjob.symm.trans hjob'
  cases hlookup : b.handlers.lookup job.name with
  | some handler =>
    have hstarting : s.starting i = some ⟨b.consumerKey, j, handler, job.args⟩ := by
      simp [starting, hP, hb, hj, hjob, Deployment.takenState, hlookup]
    simp only [record, hstarting, Deployment.takenState, hlookup, Option.toList_some]
    exact h.of_setJob (h.toAccounts.take h.faithful hb hj hjob hlookup)
      fun hone => h.progress_take hone hb hj hjob hfree
  | none =>
    have hstarting : s.starting i = none := by
      simp [starting, hP, hb, hj, hjob, Deployment.takenState, hlookup]
    simp only [record, hstarting, Deployment.takenState, hlookup, Option.toList_none,
      List.append_nil]
    have hended {t : JobState} : job.state.ended = true → t.ended = true := by
      intro hended
      rw [hwaiting] at hended
      cases hended
    refine h.of_setJob (h.setJob hjob (fun _ => rfl) hended) ?_
    intro hone
    have hsome := h.handler hone hb hjob hkey
    rw [hlookup] at hsome
    cases hsome

theorem Kept.finish (h : Kept handlerOf s P) {o : Except Exn Json}
    (hs : step handlerOf s (.finish j o) = some s') : Kept handlerOf s' P := by
  obtain ⟨dep, hdep, rfl⟩ := Option.map_eq_some_iff.mp hs
  obtain ⟨job, hjob, hdep⟩ := Option.bind_eq_some_iff.mp hdep
  have ht : ∀ b : Bool, (if b then JobState.completed else .failed) = .completed ∨
      (if b then JobState.completed else .failed) = .failed := by
    intro b
    cases b
    · exact .inr rfl
    · exact .inl rfl
  split at hdep
  · next hactive =>
    cases hdep
    have hstate := ht o.isOk
    generalize (if o.isOk then JobState.completed else .failed) = t at hstate ⊢
    have hended : t.ended = true := by rcases hstate with rfl | rfl <;> rfl
    have hset := h.setJob (t := t) hjob (fun _ => by rcases hstate with rfl | rfl <;> rfl)
      (fun _ => hended)
    refine h.of_setJob (hset.finish { job with state := t } ?_ ?_ hended)
      fun hone => (h.progress hone).finish hjob (hactive ▸ rfl) hstate o
    · intro hmem
      obtain ⟨job', hjob', hended'⟩ := h.ended j hmem
      cases hjob.symm.trans hjob'
      rw [hactive] at hended'
      cases hended'
    · exact (getElem?_setJob ..).trans (by simp [hjob])
  · cases hdep

theorem Kept.dispatch (h : Kept handlerOf s P)
    (hs : step handlerOf s (.dispatch d) = some s') :
    ∃ P', Kept handlerOf s' P' ∧ P.Extends P' := by
  obtain ⟨dep, hdep, rfl⟩ := Option.map_eq_some_iff.mp hs
  simp only [Event.toDeployment, Deployment.step, Option.bind_eq_bind,
    Option.bind_eq_some_iff] at hdep
  obtain ⟨Q, hQ, c, hc, hdep⟩ := hdep
  cases h.process.symm.trans hQ
  obtain ⟨P', hm, hprocesses, hjobs⟩ := Deployment.dispatchStep_cases hdep
  obtain ⟨processes, jobs⟩ := dep
  obtain rfl : processes = Function.update s.deployment.processes 0 (some P') := hprocesses
  obtain rfl : jobs = s.deployment.jobs ++ c.added := hjobs
  have hfaithful := h.faithful.move hm hc
  have hextends := Process.Extends.move hm
  have hstate : s.dispatchState d = some c.state := by simp [dispatchState, h.process, hc]
  have hprocess : Function.update s.deployment.processes 0 (some P') 0 = some P' := by simp
  refine ⟨P', ?_, hextends⟩
  obtain ⟨t, ht, hcase⟩ := hm.state
  have hstates := fun k => Process.stateOf_modify (k := k) ht hc
  rcases hcase with ⟨hold, hnew, hadded⟩ | ⟨i, hold, rfl⟩ |
    ⟨i, j, job, hold, rfl, hjob, hadded, hdone⟩
  · have hrecord : s.record (.dispatch d) = s := by
      simp only [record, hstate]
      cases hs : c.state with
      | called | connecting | ensured | settled => rfl
      | got => simp [Dispatch.added, hs] at hadded
      | accepted =>
        rw [hs] at hold
        cases hold
    have hkept := h.quiet hfaithful hextends fun k u hu => hstates k ▸ (by
      by_cases hk : k = d
      · subst hk
        rw [if_pos rfl, Process.stateOf_eq hc]
        constructor
        · intro h
          cases h
          rw [hnew] at hu
          cases hu
        · intro heq
          rw [Option.some.inj heq, hu] at hold
          cases hold
      · rw [if_neg hk])
    simpa [hrecord, hadded, Deployment.setProcess] using hkept
  · have hrecord : s.record (.dispatch d) = { s with adders := s.adders ++ [d] } := by
      simp only [record, hstate, hold]
    have hadded : c.added = [⟨c.method.consumerKey, c.method.jobKey, c.args, .waiting⟩] := by
      simp [Dispatch.added, hold]
    have hnew : c.state.accepting = false := hold ▸ rfl
    rw [hrecord, hadded]
    exact ⟨h.add hextends hc hnew hstates, hprocess, hfaithful,
      fun hone => (h.progress (hextends.nodup hone)).add hextends hstates⟩
  · have hrecord : s.record (.dispatch d) = { s with results := s.results ++
        ((s.outcomes.lookup j).map fun o => (d, WriteQueueRegistry.dispatched o)).toList } := by
      simp only [record, hstate, hold]
    rw [hrecord, hadded, List.append_nil]
    have hd := (Process.stateOf_eq hc).trans (congrArg some hold)
    refine ⟨h.settle hextends hd hstates, hprocess, hfaithful, ?_⟩
    intro hone
    have hprogress := h.progress (hextends.nodup hone)
    refine hprogress.settle hextends hstates hjob ?_
    have hknown := hprogress.known job (List.mem_of_getElem? hjob)
    obtain ⟨queue, name, args, state⟩ := job
    cases state with
    | completed | failed => rfl
    | waiting | active | stalled => cases hdone
    | noHandler => exact hknown.elim

theorem stateOf_call {t : DispatchState} (ht : t.accepting = true) (method : UseQueueMethod)
    (handler : JobHandler) (args : List Json) :
    Process.stateOf { P with dispatches := P.dispatches ++ [⟨method, handler, args, .called⟩] } d =
      some t ↔ P.stateOf d = some t := by
  simp only [Process.stateOf, Option.map_eq_some_iff]
  constructor
  · rintro ⟨c, hc, rfl⟩
    rcases getElem?_push hc with hc | ⟨_, rfl⟩
    · exact ⟨c, hc, rfl⟩
    · cases ht
  · rintro ⟨c, hc, rfl⟩
    exact ⟨c, (List.getElem?_append_left (List.getElem?_eq_some_iff.mp hc).1).trans hc, rfl⟩

theorem Kept.step {e : Event} (h : Kept handlerOf s P) (hs : step handlerOf s e = some s') :
    ∃ P', Kept handlerOf s' P' ∧ P.Extends P' := by
  cases e with
  | load method =>
    obtain ⟨dep, hdep, rfl⟩ := Option.map_eq_some_iff.mp hs
    obtain ⟨Q, hQ, hdep⟩ := Option.bind_eq_some_iff.mp hdep
    cases h.process.symm.trans hQ
    cases hdep
    have hextends : P.Extends { P with methods := P.methods ++ [method] } :=
      .of_dispatches rfl List.prefix_rfl
    exact ⟨_, h.quiet (h.faithful.load method) hextends fun _ _ _ => .rfl, hextends⟩
  | startup =>
    obtain ⟨dep, hdep, rfl⟩ := Option.map_eq_some_iff.mp hs
    simp only [Event.toDeployment, Deployment.step, Option.bind_eq_bind,
      Option.bind_eq_some_iff] at hdep
    obtain ⟨Q, hQ, P', hP', hdep⟩ := hdep
    cases h.process.symm.trans hQ
    cases hdep
    obtain ⟨hdispatches, hextends⟩ := Process.onModuleInit_extends hP'
    refine ⟨P', h.quiet (h.faithful.onModuleInit hP') hextends ?_, hextends⟩
    intro d t _
    rw [Process.stateOf, hdispatches]
    rfl
  | call method args =>
    obtain ⟨dep, hdep, rfl⟩ := Option.map_eq_some_iff.mp hs
    obtain ⟨Q, hQ, hdep⟩ := Option.bind_eq_some_iff.mp hdep
    cases h.process.symm.trans hQ
    split at hdep
    · cases hdep
      have hextends := Process.Extends.call P ⟨method, handlerOf method, args, .called⟩
      exact ⟨_, h.quiet (h.faithful.call method args) hextends
        fun _ _ ht => stateOf_call ht method (handlerOf method) args, hextends⟩
    · cases hdep
  | dispatch d => exact h.dispatch hs
  | take i => exact ⟨P, h.take hs, .of_dispatches rfl List.prefix_rfl⟩
  | finish job outcome => exact ⟨P, h.finish hs, .of_dispatches rfl List.prefix_rfl⟩

theorem Kept.start (methods : List UseQueueMethod) :
    Kept handlerOf (start methods) (.start methods) where
  length := rfl
  adders := List.nodup_nil
  job _ _ _ h := by cases h
  adder d := by simp [Ledger.start, Process.stateOf, Process.start]
  accepted _ _ _ h := by cases h
  execution _ h := by cases h
  executions := List.nodup_nil
  outcomes := List.nodup_nil
  results := List.nodup_nil
  begun _ h := by cases h
  ended _ h := by cases h
  sent _ h := by cases h
  result _ _ h := by cases h
  process := by simp [Ledger.start, Deployment.setProcess]
  faithful := .start methods
  progress _ :=
    { known _ h := by cases h
      started _ _ h := by cases h
      ended _ _ h := by cases h
      settled _ _ h := by cases h
      fifo _ := List.prefix_rfl
      serial _ _ _ _ h := by cases h }

end Ledger

end NestHarness
