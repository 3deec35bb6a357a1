import NestHarness.Queue.Registry

/-!
# Shutting down the consumers

`WriteQueueRegistry.onModuleDestroy` over the processes of a deployment: it goes through the map of
consumers and closes each of them, while the calls of the process may still move.
-/

namespace NestHarness

/-- What `onModuleDestroy` closes of a consumer, in this order. -/
inductive ConsumerPart where
  | worker
  | queueEvents
  | queue
deriving DecidableEq

/-- Where `onModuleDestroy` stands in the map of consumers. -/
inductive ShutdownState where
  | running
  | next (n : Nat)
  /-- It awaits the `close` of a part of the `n`-th consumer. -/
  | closing (part : ConsumerPart) (n consumer : Nat)
  /-- It has ended, and this many consumers had been constructed by then. -/
  | ended (built : Nat)
deriving DecidableEq

/-- `closed` are the consumers whose worker has been told to close. -/
structure Shutdown where
  state : ShutdownState
  closed : List Nat
deriving DecidableEq

namespace Process

/-- `consumers.values()`: a key keeps the place of its first `set`. -/
def values (P : Process) : List Nat :=
  (P.consumers.reverse.map (·.1)).eraseDups.filterMap fun key => P.consumers.lookup key

/-- The next step of `onModuleDestroy`. The iterator of a map is live, and closing a worker waits
for the job it has. -/
def onModuleDestroy (P : Process) (busy : Nat → Bool) (D : Shutdown) : Option Shutdown :=
  match D.state with
  | .running => some { D with state := .next 0 }
  | .next n =>
    match P.values[n]? with
    | some i => some ⟨.closing .worker n i, i :: D.closed⟩
    | none => some { D with state := .ended P.built.length }
  | .closing .worker n i =>
    if busy i then none else some { D with state := .closing .queueEvents n i }
  | .closing .queueEvents n i => some { D with state := .closing .queue n i }
  | .closing .queue n _ => some { D with state := .next (n + 1) }
  | .ended _ => none

end Process

/-- A deployment, and how far each of its processes has shut down. -/
structure Servers where
  deployment : Deployment
  shutdowns : Nat → Shutdown

namespace Servers

inductive Event where
  | run (e : Deployment.Event)
  /-- The next step of `onModuleDestroy`. -/
  | onModuleDestroy (p : Nat)

variable (s : Servers)

def setShutdown (p : Nat) (D : Shutdown) : Servers :=
  { s with shutdowns := Function.update s.shutdowns p D }

/-- A worker that has been told to close takes no job. -/
def step (s : Servers) : Event → Option Servers
  | .run e => do
    let deployment ← s.deployment.step e
    let s' := { s with deployment }
    match e with
    | .start p _ => return s'.setShutdown p ⟨.running, []⟩
    | .take p i => if i ∈ (s.shutdowns p).closed then none else return s'
    | _ => return s'
  | .onModuleDestroy p => do
    let P ← s.deployment.processes p
    return s.setShutdown p (← P.onModuleDestroy (s.deployment.busy p) (s.shutdowns p))

def init : Servers where
  deployment := .init
  shutdowns _ := ⟨.running, []⟩

end Servers

end NestHarness
