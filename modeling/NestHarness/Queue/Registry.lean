import NestHarness.Lib.Json
import NestHarness.Lib.Run

/-!
# The consumers of the write queue

`WriteQueueRegistry` in any number of server processes on one Redis. A process runs its asynchronous
calls one at a time from await to await: `onModuleInit` and every `dispatch` is kept with the await
it stands at. The worker of a consumer takes jobs from its construction on.
-/

namespace NestHarness

/-- A method with `@UseQueue(consumerKey, jobKey)`. -/
structure UseQueueMethod where
  consumerKey : String
  jobKey : String
deriving DecidableEq

/-- `serviceInstance` and `originalFn`, by name. -/
structure JobHandler where
  serviceInstance : Nat
  originalFn : Nat
deriving DecidableEq

/-- A `Queue`, its `Worker` and `QueueEvents`, and the map of handlers they share. -/
structure ConsumerSet where
  consumerKey : String
  handlers : List (String × JobHandler)
deriving DecidableEq

/-- Where `onModuleInit` stands in the list of registered keys. -/
inductive StartupState where
  | next (n : Nat)
  /-- It awaits `waitUntilReady` of the consumer it has constructed for the key. -/
  | connecting (n : Nat) (consumerKey : String) (consumer : Nat)
  | done
deriving DecidableEq

/-- Where a `dispatch` stands. -/
inductive DispatchState where
  | called
  /-- It awaits `waitUntilReady` of the consumer it has constructed. -/
  | connecting (consumer : Nat)
  /-- `ensureConsumer` has ended. -/
  | ensured
  /-- `getOrCreate` has ended with this consumer. -/
  | got (consumer : Nat)
  /-- It awaits the end of its job. -/
  | accepted (consumer job : Nat)
  | settled (consumer : Nat)
deriving DecidableEq

/-- The consumer `getOrCreate` has returned. -/
def DispatchState.consumer : DispatchState → Option Nat
  | .called | .connecting _ | .ensured => none
  | .got i | .accepted i _ | .settled i => some i

structure Dispatch where
  method : UseQueueMethod
  handler : JobHandler
  args : List Json
  state : DispatchState

/-- A process since its start: the decorated methods it has loaded, the consumers it has constructed
and stored, and the calls of `dispatch`. -/
structure Process where
  methods : List UseQueueMethod
  startup : StartupState
  built : List ConsumerSet
  consumers : List (String × Nat)
  dispatches : List Dispatch

inductive JobState where
  | waiting
  | active (process consumer : Nat) (handler : JobHandler)
  /-- The process of its worker has died. -/
  | stalled
  | completed
  | failed
  /-- Failed with `No handler for job`, by the worker of a process that has loaded the method
  or has not. -/
  | noHandler (loaded : Bool)
deriving DecidableEq

structure Job where
  queue : String
  name : String
  args : List Json
  state : JobState

/-- The processes that run, and the jobs in Redis in the order they were added. -/
structure Deployment where
  processes : Nat → Option Process
  jobs : List Job

namespace Process

def start (methods : List UseQueueMethod) : Process where
  methods := methods
  startup := .next 0
  built := []
  consumers := []
  dispatches := []

/-- `getRegisteredConsumerKeys()`. -/
def registeredKeys (P : Process) : List String := (P.methods.map (·.consumerKey)).eraseDups

/-- `ensureConsumer` up to its await: the consumer it has constructed, if there was none. -/
def ensureConsumer (P : Process) (consumerKey : String) : Process × Option Nat :=
  if (P.consumers.lookup consumerKey).isSome then (P, none)
  else ({ P with built := P.built ++ [⟨consumerKey, []⟩] }, some P.built.length)

/-- The end of `ensureConsumer`. -/
def store (P : Process) (consumerKey : String) (i : Nat) : Process :=
  { P with consumers := (consumerKey, i) :: P.consumers }

/-- `handlers.set(jobKey, handler)` of a consumer. -/
def setHandler (P : Process) (i : Nat) (jobKey : String) (handler : JobHandler) : Process :=
  { P with
    built := P.built.modify i fun c => { c with handlers := (jobKey, handler) :: c.handlers } }

def setState (P : Process) (d : Nat) (state : DispatchState) : Process :=
  { P with dispatches := P.dispatches.modify d ({ · with state }) }

/-- The next step of `onModuleInit`. -/
def onModuleInit (P : Process) : Option Process :=
  match P.startup with
  | .next n =>
    match P.registeredKeys[n]? with
    | none => some { P with startup := .done }
    | some consumerKey =>
      match P.ensureConsumer consumerKey with
      | (P, none) => some { P with startup := .next (n + 1) }
      | (P, some i) => some { P with startup := .connecting n consumerKey i }
  | .connecting n consumerKey i => some { P.store consumerKey i with startup := .next (n + 1) }
  | .done => none

end Process

namespace Deployment

inductive Event where
  | start (p : Nat) (methods : List UseQueueMethod)
  | crash (p : Nat)
  | load (p : Nat) (method : UseQueueMethod)
  | startup (p : Nat)
  /-- A decorated method is called outside of a worker. -/
  | call (p : Nat) (method : UseQueueMethod) (handler : JobHandler) (args : List Json)
  /-- The next step of a `dispatch`. -/
  | dispatch (p d : Nat)
  /-- The worker of a consumer takes the oldest waiting job of its queue. -/
  | take (p i : Nat)
  | finish (job : Nat) (success : Bool)
  | requeue (job : Nat)

variable (s : Deployment)

def setProcess (p : Nat) (P : Process) : Deployment :=
  { s with processes := Function.update s.processes p (some P) }

def setJob (j : Nat) (state : JobState) : Deployment :=
  { s with jobs := s.jobs.modify j ({ · with state }) }

/-- The oldest waiting job of a queue. -/
def oldest (queue : String) : Option Nat :=
  s.jobs.findIdx? fun j => j.queue = queue ∧ j.state = .waiting

/-- The worker has a job. -/
def busy (p i : Nat) : Bool :=
  s.jobs.any fun j => match j.state with
    | .active p' i' _ => p' = p ∧ i' = i
    | _ => false

/-- The next step of a dispatch: a job is added to Redis in one of them. -/
def dispatchStep (p : Nat) (P : Process) (d : Nat) (c : Dispatch) : Option Deployment :=
  match c.state with
  | .called =>
    match P.ensureConsumer c.method.consumerKey with
    | (P, none) => some (s.setProcess p (P.setState d .ensured))
    | (P, some i) => some (s.setProcess p (P.setState d (.connecting i)))
  | .connecting i => some (s.setProcess p ((P.store c.method.consumerKey i).setState d .ensured))
  | .ensured =>
    (P.consumers.lookup c.method.consumerKey).map fun i =>
      s.setProcess p ((P.setHandler i c.method.jobKey c.handler).setState d (.got i))
  | .got i =>
    let job : Job := ⟨c.method.consumerKey, c.method.jobKey, c.args, .waiting⟩
    some { s.setProcess p (P.setState d (.accepted i s.jobs.length)) with jobs := s.jobs ++ [job] }
  | .accepted i j =>
    if s.jobs[j]?.any fun job => job.state matches .completed | .failed | .noHandler _ then
      some (s.setProcess p (P.setState d (.settled i)))
    else none
  | .settled _ => none

/-- The state of a job that a worker takes. -/
def takenState (p i : Nat) (P : Process) (c : ConsumerSet) (job : Job) : JobState :=
  match c.handlers.lookup job.name with
  | some handler => .active p i handler
  | none => .noHandler (⟨c.consumerKey, job.name⟩ ∈ P.methods)

def step (s : Deployment) : Event → Option Deployment
  | .start p methods =>
    if (s.processes p).isNone then some (s.setProcess p (.start methods)) else none
  | .crash p =>
    some { s with
      processes := Function.update s.processes p none
      jobs := s.jobs.map fun j => match j.state with
        | .active p' _ _ => if p' = p then { j with state := .stalled } else j
        | _ => j }
  | .load p method => do
    let P ← s.processes p
    return s.setProcess p { P with methods := P.methods ++ [method] }
  | .startup p => do
    let P ← s.processes p
    return s.setProcess p (← P.onModuleInit)
  | .call p method handler args => do
    let P ← s.processes p
    if method ∈ P.methods then
      return s.setProcess p
        { P with dispatches := P.dispatches ++ [⟨method, handler, args, .called⟩] }
    else none
  | .dispatch p d => do
    let P ← s.processes p
    dispatchStep s p P d (← P.dispatches[d]?)
  | .take p i => do
    let P ← s.processes p
    let c ← P.built[i]?
    let j ← s.oldest c.consumerKey
    let job ← s.jobs[j]?
    if s.busy p i then none else return s.setJob j (takenState p i P c job)
  | .finish j success => do
    let job ← s.jobs[j]?
    match job.state with
    | .active _ _ _ => return s.setJob j (if success then .completed else .failed)
    | _ => none
  | .requeue j => do
    let job ← s.jobs[j]?
    if job.state = .stalled then return s.setJob j .waiting else none

def init : Deployment where
  processes _ := none
  jobs := []

end Deployment

theorem getElem?_push {α : Type} {xs : List α} {x y : α} {i : Nat} (h : (xs ++ [x])[i]? = some y) :
    xs[i]? = some y ∨ i = xs.length ∧ y = x := by
  by_cases hi : i < xs.length
  · exact .inl ((List.getElem?_append_left hi).symm.trans h)
  · obtain ⟨hlt, _⟩ := List.getElem?_eq_some_iff.mp h
    rw [List.length_append, List.length_singleton] at hlt
    obtain rfl : i = xs.length := by omega
    rw [List.getElem?_concat_length] at h
    exact .inr ⟨rfl, (Option.some.inj h).symm⟩

theorem nodup_push {α : Type} {xs : List α} {x : α} (h : xs.Nodup) (hx : x ∉ xs) :
    (xs ++ [x]).Nodup := by
  refine List.nodup_append.mpr ⟨h, List.pairwise_singleton _ x, ?_⟩
  intro y hy z hz heq
  rw [List.mem_singleton.mp hz] at heq
  exact hx (heq ▸ hy)

end NestHarness
