import NestHarness.Lib.Run
import NestHarness.Queue.Registry

/-!
# Bodies of the decorated methods

The wrapper of `@UseQueue` in one process: calls from outside of a worker go through the queue of
their consumer, calls from the body of a decorated method run directly in the worker that runs the
body, whatever their own consumer is.
-/

namespace NestHarness

/-- What the wrapper of a decorated method does with a call. -/
inductive QueueRoute where
  | direct
  | dispatch
deriving DecidableEq

/-- The wrapper of `@UseQueue`: `processing` is `isProcessingContext()`, and `registry` tells that
the global registry is set. -/
def useQueue (processing registry : Bool) : QueueRoute :=
  if processing then .direct else if !registry then .direct else .dispatch

/-- A call of a decorated method; `awaited` tells that the calling body does not end before it. -/
structure NestedCall where
  method : UseQueueMethod
  awaited : Bool
deriving DecidableEq

/-- The decorated methods, and the calls of decorated methods their bodies make. -/
structure WriteMethods where
  methods : List UseQueueMethod
  calls : UseQueueMethod → List NestedCall
  declared : ∀ m ∈ methods, ∀ c ∈ calls m, c.method ∈ methods

/-- Every call stays within the consumer of its caller and ends before it. -/
def WriteMethods.Contained (G : WriteMethods) : Prop :=
  ∀ m ∈ G.methods, ∀ c ∈ G.calls m, c.method.consumerKey = m.consumerKey ∧ c.awaited = true

/-- The execution of a body on behalf of a root call. A worker starts it, or the body `caller` has
called it directly. -/
structure Body where
  root : Nat
  method : UseQueueMethod
  processing : Bool
  caller : Option Nat
  awaited : Bool
  running : Bool
deriving DecidableEq

structure QueuedCall where
  root : Nat
  method : UseQueueMethod
deriving DecidableEq

/-- `roots` counts the calls from outside of a worker, `jobs` are queued in their order. -/
structure Processing where
  roots : Nat
  jobs : List QueuedCall
  bodies : List Body
deriving DecidableEq

namespace Processing

inductive Event where
  /-- A call from outside of a worker. -/
  | call (method : UseQueueMethod)
  /-- The body `b` calls a decorated method. -/
  | nested (b : Nat) (c : NestedCall)
  /-- The worker of a consumer takes its oldest job. -/
  | take (consumerKey : String)
  | finish (b : Nat)

variable (G : WriteMethods) (s : Processing)

/-- A call in a context on behalf of a root call. -/
def invoke (root : Nat) (processing : Bool) (caller : Option Nat) (c : NestedCall) : Processing :=
  match useQueue processing true with
  | .direct =>
    { s with bodies := s.bodies ++ [⟨root, c.method, processing, caller, c.awaited, true⟩] }
  | .dispatch => { s with jobs := s.jobs ++ [⟨root, c.method⟩] }

/-- The worker of a consumer has a job. -/
def busy (consumerKey : String) : Bool :=
  s.bodies.any fun b => b.running ∧ b.caller = none ∧ b.method.consumerKey = consumerKey

/-- A body ends after the calls it awaits. -/
def mayFinish (b : Nat) : Bool :=
  s.bodies.all fun c => c.caller = some b → c.awaited → !c.running

def step (s : Processing) : Event → Option Processing
  | .call method =>
    if method ∈ G.methods then
      some (invoke { s with roots := s.roots + 1 } s.roots false none ⟨method, true⟩)
    else none
  | .nested b c => do
    let body ← s.bodies[b]?
    if body.running ∧ c ∈ G.calls body.method then
      return s.invoke body.root body.processing (some b) c
    else none
  | .take consumerKey => do
    let j ← s.jobs.findIdx? (·.method.consumerKey = consumerKey)
    let job ← s.jobs[j]?
    if s.busy consumerKey then none
    else
      -- `queueProcessingContext.run(true, ...)`
      return { s with
        jobs := s.jobs.eraseIdx j
        bodies := s.bodies ++ [⟨job.root, job.method, true, none, true, true⟩] }
  | .finish b => do
    let body ← s.bodies[b]?
    if body.running ∧ s.mayFinish b then
      return { s with bodies := s.bodies.set b { body with running := false } }
    else none

def init : Processing := ⟨0, [], []⟩

/-- No two bodies of one consumer run on behalf of different root calls. -/
def Exclusive (s : Processing) : Prop :=
  ∀ b ∈ s.bodies, ∀ b' ∈ s.bodies, b.running → b'.running →
    b.method.consumerKey = b'.method.consumerKey → b.root = b'.root

instance : DecidablePred Exclusive := fun s =>
  inferInstanceAs (Decidable (∀ b ∈ s.bodies, ∀ b' ∈ s.bodies, _ → _ → _ → _))

/-! ## Mutual exclusion -/

variable {G : WriteMethods} {s s' : Processing} {e : Event} {b : Nat} {body : Body} {i j : Nat}

theorem step_cases (h : step G s e = some s') :
    (∃ method, e = .call method ∧ method ∈ G.methods ∧
      s' = { s with roots := s.roots + 1, jobs := s.jobs ++ [⟨s.roots, method⟩] }) ∨
    (∃ b c body, e = .nested b c ∧ s.bodies[b]? = some body ∧ body.running = true ∧
      c ∈ G.calls body.method ∧ s' = s.invoke body.root body.processing (some b) c) ∨
    (∃ consumerKey j job, e = .take consumerKey ∧ s.jobs[j]? = some job ∧
      job.method.consumerKey = consumerKey ∧ s.busy consumerKey = false ∧
      s' = { s with
        jobs := s.jobs.eraseIdx j
        bodies := s.bodies ++ [⟨job.root, job.method, true, none, true, true⟩] }) ∨
    (∃ b body, e = .finish b ∧ s.bodies[b]? = some body ∧ s.mayFinish b = true ∧
      s' = { s with bodies := s.bodies.set b { body with running := false } }) := by
  cases e with
  | call method =>
    simp only [step, Option.ite_none_right_eq_some, Option.some.injEq] at h
    exact .inl ⟨method, rfl, h.1, h.2.symm⟩
  | nested b c =>
    simp only [step, Option.bind_eq_bind, Option.bind_eq_some_iff] at h
    obtain ⟨body, hb, h⟩ := h
    split at h
    · next hc =>
      cases h
      exact .inr (.inl ⟨b, c, body, rfl, hb, hc.1, hc.2, rfl⟩)
    · cases h
  | take consumerKey =>
    simp only [step, Option.bind_eq_bind, Option.bind_eq_some_iff] at h
    obtain ⟨j, hj, job, hjob, h⟩ := h
    split at h
    · cases h
    · next hbusy =>
      cases h
      obtain ⟨hlt, hkey, _⟩ := List.findIdx?_eq_some_iff_getElem.mp hj
      have hget := (List.getElem?_eq_some_iff.mp hjob).2
      rw [hget] at hkey
      exact .inr (.inr (.inl ⟨consumerKey, j, job, rfl, hjob, of_decide_eq_true hkey,
        Bool.eq_false_iff.mpr hbusy, rfl⟩))
  | finish b =>
    simp only [step, Option.bind_eq_bind, Option.bind_eq_some_iff] at h
    obtain ⟨body, hb, h⟩ := h
    split at h
    · next hc =>
      cases h
      exact .inr (.inr (.inr ⟨b, body, rfl, hb, hc.2, rfl⟩))
    · cases h

/-- A running body has been started by the worker of its consumer, or called by a running body of
the same consumer and root call that awaits it; a worker runs one body. -/
structure Inv (G : WriteMethods) (s : Processing) : Prop where
  queued : ∀ job ∈ s.jobs, job.method ∈ G.methods
  declared : ∀ b ∈ s.bodies, b.method ∈ G.methods
  processing : ∀ b ∈ s.bodies, b.processing = true
  called : ∀ (i : Nat) (b : Body), s.bodies[i]? = some b → b.running = true →
    ∀ c, b.caller = some c → c < i ∧ b.awaited = true ∧ ∃ b' : Body,
      s.bodies[c]? = some b' ∧ b'.running = true ∧ b'.root = b.root ∧
        b'.method.consumerKey = b.method.consumerKey
  single : ∀ (i j : Nat) (b b' : Body), s.bodies[i]? = some b → s.bodies[j]? = some b' →
    b.running = true → b'.running = true → b.caller = none → b'.caller = none →
    b.method.consumerKey = b'.method.consumerKey → i = j

/-- The body that the worker has started for a running body. -/
theorem Inv.worker (h : Inv G s) (hb : s.bodies[i]? = some body) (hr : body.running = true) :
    ∃ (j : Nat) (b : Body), s.bodies[j]? = some b ∧ b.running = true ∧ b.caller = none ∧
      b.root = body.root ∧ b.method.consumerKey = body.method.consumerKey := by
  induction i using Nat.strongRecOn generalizing body with
  | ind i ih =>
    cases hc : body.caller with
    | none => exact ⟨i, body, hb, hr, hc, rfl, rfl⟩
    | some c =>
      obtain ⟨hlt, _, b', hb', hr', hroot, hkey⟩ := h.called i body hb hr c hc
      obtain ⟨j, b, hj, hrun, hnone, hroot', hkey'⟩ := ih c hlt hb' hr'
      exact ⟨j, b, hj, hrun, hnone, hroot'.trans hroot, hkey'.trans hkey⟩

theorem Inv.exclusive (h : Inv G s) : s.Exclusive := by
  intro b hb b' hb' hr hr' hkey
  obtain ⟨i, hi⟩ := List.mem_iff_getElem?.mp hb
  obtain ⟨i', hi'⟩ := List.mem_iff_getElem?.mp hb'
  obtain ⟨j, w, hj, hw, hnone, hroot, hwkey⟩ := h.worker hi hr
  obtain ⟨j', w', hj', hw', hnone', hroot', hwkey'⟩ := h.worker hi' hr'
  obtain rfl := h.single j j' w w' hj hj' hw hw' hnone hnone'
    (hwkey.trans (hkey.trans hwkey'.symm))
  cases hj.symm.trans hj'
  exact hroot.symm.trans hroot'

theorem Inv.init : Inv G init := by
  constructor <;> simp [Processing.init]

theorem not_busy {consumerKey : String} (h : s.busy consumerKey = false)
    (hb : s.bodies[i]? = some body) (hr : body.running = true) (hc : body.caller = none) :
    body.method.consumerKey ≠ consumerKey := by
  intro hkey
  rw [busy, List.any_eq_false] at h
  exact h body (List.mem_of_getElem? hb) (by simp [hr, hc, hkey])

/-- A body starts in the context of a worker. -/
theorem Inv.push {new : Body} {jobs : List QueuedCall} (h : Inv G s)
    (hjobs : ∀ job ∈ jobs, job.method ∈ G.methods) (hdeclared : new.method ∈ G.methods)
    (hprocessing : new.processing = true)
    (hcalled : ∀ c, new.caller = some c → new.awaited = true ∧ ∃ b' : Body,
      s.bodies[c]? = some b' ∧ b'.running = true ∧ b'.root = new.root ∧
        b'.method.consumerKey = new.method.consumerKey)
    (hfree : new.caller = none → s.busy new.method.consumerKey = false) :
    Inv G { s with jobs, bodies := s.bodies ++ [new] } := by
  have hkeep : ∀ {c : Nat} {b : Body}, s.bodies[c]? = some b →
      (s.bodies ++ [new])[c]? = some b := by
    intro c b hb
    rw [List.getElem?_append_left (List.getElem?_eq_some_iff.mp hb).1]
    exact hb
  refine ⟨hjobs, ?_, ?_, ?_, ?_⟩
  · intro b hb
    rcases List.mem_append.mp hb with hb | hb
    · exact h.declared b hb
    · exact List.mem_singleton.mp hb ▸ hdeclared
  · intro b hb
    rcases List.mem_append.mp hb with hb | hb
    · exact h.processing b hb
    · exact List.mem_singleton.mp hb ▸ hprocessing
  · intro i b hb hr c hc
    rcases getElem?_push hb with hold | ⟨rfl, rfl⟩
    · obtain ⟨hlt, hawaited, b', hb', hrest⟩ := h.called i b hold hr c hc
      exact ⟨hlt, hawaited, b', hkeep hb', hrest⟩
    · obtain ⟨hawaited, b', hb', hrest⟩ := hcalled c hc
      exact ⟨(List.getElem?_eq_some_iff.mp hb').1, hawaited, b', hkeep hb', hrest⟩
  · intro i j b b' hb hb' hr hr' hc hc' hkey
    rcases getElem?_push hb with hold | ⟨rfl, rfl⟩
    · rcases getElem?_push hb' with hold' | ⟨rfl, rfl⟩
      · exact h.single i j b b' hold hold' hr hr' hc hc' hkey
      · exact absurd hkey (not_busy (hfree hc') hold hr hc)
    · rcases getElem?_push hb' with hold' | ⟨rfl, rfl⟩
      · exact absurd hkey.symm (not_busy (hfree hc) hold' hr' hc')
      · rfl

/-- A body ends that no running body has been called by. -/
theorem Inv.finish (h : Inv G s) (hb : s.bodies[i]? = some body) (hfinish : s.mayFinish i = true) :
    Inv G { s with bodies := s.bodies.set i { body with running := false } } := by
  have hget : ∀ {j : Nat} {b : Body},
      (s.bodies.set i { body with running := false })[j]? = some b → b.running = true →
        j ≠ i ∧ s.bodies[j]? = some b := by
    intro j b hj hr
    by_cases hji : j = i
    · subst hji
      rw [List.getElem?_set_self (List.getElem?_eq_some_iff.mp hb).1] at hj
      cases hj
      cases hr
    · rw [List.getElem?_set_ne (Ne.symm hji)] at hj
      exact ⟨hji, hj⟩
  have hmem : ∀ b ∈ s.bodies.set i { body with running := false },
      b ∈ s.bodies ∨ b = { body with running := false } := fun b => List.mem_or_eq_of_mem_set
  refine ⟨h.queued, ?_, ?_, ?_, ?_⟩
  · intro b hb'
    rcases hmem b hb' with hb' | rfl
    · exact h.declared b hb'
    · exact h.declared body (List.mem_of_getElem? hb)
  · intro b hb'
    rcases hmem b hb' with hb' | rfl
    · exact h.processing b hb'
    · exact h.processing body (List.mem_of_getElem? hb)
  · intro j b hj hr c hc
    have hold := (hget hj hr).2
    obtain ⟨hlt, hawaited, b', hb', hrest⟩ := h.called j b hold hr c hc
    -- its caller is not the body that ends, which awaits it
    have hci : c ≠ i := by
      rintro rfl
      rw [mayFinish, List.all_eq_true] at hfinish
      have hended := hfinish b (List.mem_of_getElem? hold)
      simp [hc, hawaited, hr] at hended
    exact ⟨hlt, hawaited, b', (List.getElem?_set_ne (Ne.symm hci)).trans hb', hrest⟩
  · intro j k b b' hj hk hr hr' hc hc' hkey
    exact h.single j k b b' (hget hj hr).2 (hget hk hr').2 hr hr' hc hc' hkey

theorem Inv.step (h : Inv G s) (hG : G.Contained) (hs : Processing.step G s e = some s') :
    Inv G s' := by
  obtain ⟨method, _, hmethod, rfl⟩ | ⟨b, c, body, _, hb, hr, hc, rfl⟩ |
    ⟨consumerKey, j, job, _, hjob, hkey, hbusy, rfl⟩ | ⟨b, body, _, hb, hfinish, rfl⟩ :=
    step_cases hs
  · refine ⟨?_, h.declared, h.processing, h.called, h.single⟩
    intro job hjob
    rcases List.mem_append.mp hjob with hjob | hjob
    · exact h.queued job hjob
    · exact List.mem_singleton.mp hjob ▸ hmethod
  · have hbody := List.mem_of_getElem? hb
    obtain ⟨hkey, hawaited⟩ := hG body.method (h.declared body hbody) c hc
    rw [invoke, h.processing body hbody, useQueue, if_pos rfl]
    refine h.push h.queued (G.declared _ (h.declared body hbody) c hc) rfl ?_ nofun
    rintro _ ⟨⟩
    exact ⟨hawaited, body, hb, hr, rfl, hkey.symm⟩
  · refine h.push ?_ (h.queued job (List.mem_of_getElem? hjob)) rfl nofun fun _ => hkey ▸ hbusy
    intro job' hjob'
    exact h.queued job' (List.mem_of_mem_eraseIdx hjob')
  · exact h.finish hb hfinish

/-! ## Calls that leave their consumer or their caller -/

variable {m : UseQueueMethod} {c : NestedCall}

/-- The worker of one consumer runs a method of another one next to the worker of that consumer. -/
def crossing (m : UseQueueMethod) (c : NestedCall) : List Event :=
  [.call m, .call c.method, .take m.consumerKey, .take c.method.consumerKey, .nested 0 c]

theorem exec_crossing (hm : m ∈ G.methods) (hc : c ∈ G.calls m)
    (hkey : c.method.consumerKey ≠ m.consumerKey) :
    Run.exec (step G) init (crossing m c) = some ⟨2, [],
      [⟨0, m, true, none, true, true⟩, ⟨1, c.method, true, none, true, true⟩,
        ⟨0, c.method, true, some 0, c.awaited, true⟩]⟩ := by
  have hdeclared := G.declared m hm c hc
  simp [crossing, Run.exec, step, init, invoke, useQueue, busy, hm, hc, hdeclared, hkey.symm]

/-- A body ends before a call it has made, and the worker goes on. -/
def overtaking (m : UseQueueMethod) (c : NestedCall) : List Event :=
  [.call m, .call m, .take m.consumerKey, .nested 0 c, .finish 0, .take m.consumerKey]

theorem exec_overtaking (hm : m ∈ G.methods) (hc : c ∈ G.calls m) (hawaited : c.awaited = false) :
    Run.exec (step G) init (overtaking m c) = some ⟨2, [],
      [⟨0, m, true, none, true, false⟩, ⟨0, c.method, true, some 0, c.awaited, true⟩,
        ⟨1, m, true, none, true, true⟩]⟩ := by
  simp [overtaking, Run.exec, step, init, invoke, useQueue, busy, mayFinish, hm, hc, hawaited]

/-- Over every run the bodies of a consumer exclude each other just when every call from a body
stays within its consumer and is awaited. -/
theorem exclusive_iff (G : WriteMethods) :
    (∀ ls s, Run.exec (step G) init ls = some s → s.Exclusive) ↔ G.Contained := by
  constructor
  · intro h m hm c hc
    have hkey : c.method.consumerKey = m.consumerKey := by
      by_contra hne
      have hexcl := h _ _ (exec_crossing hm hc hne)
      have hroot := hexcl _ (List.mem_cons_of_mem _ List.mem_cons_self) _
        (List.mem_cons_of_mem _ (List.mem_cons_of_mem _ List.mem_cons_self)) rfl rfl rfl
      cases hroot
    refine ⟨hkey, ?_⟩
    by_contra hawaited
    have hexcl := h _ _ (exec_overtaking hm hc (Bool.eq_false_iff.mpr hawaited))
    have hroot := hexcl _ (List.mem_cons_of_mem _ List.mem_cons_self) _
      (List.mem_cons_of_mem _ (List.mem_cons_of_mem _ List.mem_cons_self)) rfl rfl hkey
    cases hroot
  · intro hG ls s hs
    exact (Run.invariant (fun h hs => h.step hG hs) hs Inv.init).exclusive

/-- A report method calls the sign-in of the users. -/
def reporting : WriteMethods where
  methods :=
    [⟨"report-consumer", "report-service-export"⟩, ⟨"user-consumer", "user-service-sign-in"⟩]
  calls m :=
    if m.jobKey = "report-service-export" then
      [⟨⟨"user-consumer", "user-service-sign-in"⟩, true⟩]
    else []
  declared := by decide

/-- The worker of the reports runs a sign-in while the worker of the users runs another one. -/
theorem not_exclusive :
    ∃ s, Run.exec (step reporting) init (crossing ⟨"report-consumer", "report-service-export"⟩
      ⟨⟨"user-consumer", "user-service-sign-in"⟩, true⟩) = some s ∧ ¬s.Exclusive := by
  refine ⟨_, exec_crossing (by decide) (by decide) (by decide), ?_⟩
  decide

end Processing

end NestHarness
