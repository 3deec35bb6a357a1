import Mathlib.Data.List.Induction
import NestHarness.Queue.Delivery
import NestHarness.User.Register

/-!
# The user service behind its queue

`UserController` calls `adminCreate` and `signIn` through `@UseQueue` and `refresh` directly: the
process with its queue, its worker and the database. A body that the worker starts is a call of the
service, whose request is read from the data of the job. The queue makes the two methods take turns
in the order of their jobs, so that accounts are registered first come, first served.
-/

namespace NestHarness

open Txn Deployment

variable {P : Crypto} {π : Policy (schema P)}

/-! ## Jobs of the service -/

/-- A property that is only there when it has a value. -/
def optionalField (name : String) (value : Option String) : List (String × Json) :=
  (value.map fun v => (name, Json.str v)).toList

def AdminUserCreateDto.toJson (dto : AdminUserCreateDto) : Json :=
  .obj ([("login_id", .str dto.loginId), ("login_pw", .str dto.loginPw),
    ("login_pw2", .str dto.loginPw2), ("name", .str dto.name), ("nickname", .str dto.nickname),
    ("auth_id", .str dto.authId)] ++ optionalField "position_id" dto.positionId)

def UserSignInDto.toJson (dto : UserSignInDto) : Json :=
  .obj ([("login_id", .str dto.loginId), ("login_pw", .str dto.loginPw)] ++
    optionalField "device_os" dto.deviceOs ++ optionalField "device_token" dto.deviceToken)

/-- What the call of a decorated method gives to `dispatch`. -/
def UserRequest.job : UserRequest P → Option (UseQueueMethod × List Json)
  | .adminCreate dto => some (adminCreateMethod, [dto.toJson])
  | .signIn dto ip => some (signInMethod, [dto.toJson, (ip.map Json.str).getD .null])
  | .refresh _ _ => none

/-- A property that is a text. -/
def textField (j : Json) (name : String) : Option String :=
  match j with
  | .obj fields =>
    match fields.lookup name with
    | some (.str s) => some s
    | _ => none
  | _ => none

def AdminUserCreateDto.ofJson (j : Json) : Option AdminUserCreateDto := do
  return {
    loginId := ← textField j "login_id"
    loginPw := ← textField j "login_pw"
    loginPw2 := ← textField j "login_pw2"
    name := ← textField j "name"
    nickname := ← textField j "nickname"
    authId := ← textField j "auth_id"
    positionId := textField j "position_id" }

def UserSignInDto.ofJson (j : Json) : Option UserSignInDto := do
  return {
    loginId := ← textField j "login_id"
    loginPw := ← textField j "login_pw"
    deviceOs := textField j "device_os"
    deviceToken := textField j "device_token" }

/-- The call that `originalFn.apply(serviceInstance, job.data.args)` makes. -/
def UserRequest.ofJob (handler : JobHandler) (args : List Json) : Option (UserRequest P) :=
  match handler.originalFn, args with
  | 0, [dto] => (AdminUserCreateDto.ofJson dto).map .adminCreate
  | 1, [dto, ip] =>
    (UserSignInDto.ofJson dto).map fun dto =>
      .signIn dto (match ip with
        | .str ip => some ip
        | _ => none)
  | _, _ => none

theorem AdminUserCreateDto.ofJson_toJson (dto : AdminUserCreateDto) :
    ofJson dto.toJson = some dto := by
  obtain ⟨loginId, loginPw, loginPw2, name, nickname, authId, positionId⟩ := dto
  cases positionId <;> rfl

theorem UserSignInDto.ofJson_toJson (dto : UserSignInDto) : ofJson dto.toJson = some dto := by
  obtain ⟨loginId, loginPw, deviceOs, deviceToken⟩ := dto
  cases deviceOs <;> cases deviceToken <;> rfl

/-- The body gets the request that was dispatched. -/
theorem UserRequest.ofJob_job {q : UserRequest P} {method : UseQueueMethod} {args : List Json}
    (h : q.job = some (method, args)) : ofJob (Ledger.userService method) args = some q := by
  cases q with
  | adminCreate dto =>
    cases h
    exact congrArg (Option.map UserRequest.adminCreate) dto.ofJson_toJson
  | signIn dto ip =>
    cases h
    have hdto := dto.ofJson_toJson
    cases ip <;> simp [ofJob, Ledger.userService, hdto]
  | refresh => cases h

theorem UserRequest.isQueued_of_job {q : UserRequest P} {method : UseQueueMethod}
    {args : List Json} (h : q.job = some (method, args)) :
    q.isQueued = true ∧ method.consumerKey = "user-consumer" ∧
      method ∈ Ledger.userMethods := by
  cases q with
  | adminCreate | signIn =>
    cases h
    exact ⟨rfl, rfl, by decide⟩
  | refresh => cases h

/-! ## The process and the database -/

/-- `bodies` are the calls of the service that the worker has made, one for each execution. -/
structure UserQueue (P : Crypto) where
  ledger : Ledger
  world : World (userService P)
  bodies : List Nat

namespace UserQueue

inductive Event (P : Crypto)
  | startup
  /-- The controller calls the method of a request. -/
  | request (q : UserRequest P)
  | dispatch (d : Nat)
  /-- The worker takes the next job and calls its body. -/
  | take (i : Nat)
  /-- A call of the service goes on, the clock ticks or the database is edited. -/
  | service (l : Label (userService P))
  /-- The body of a job has ended: its worker finishes the job. -/
  | finish (job : Nat)

variable (s : UserQueue P)

/-- `app.listen` comes after `onModuleInit`. -/
def listening : Bool := (s.ledger.deployment.processes 0).any (·.startup = .done)

/-- The call of the service that the body of a job has made. -/
def callOf (job : Nat) : Option (Call (userService P)) := do
  let k ← s.ledger.executions.findIdx? (·.job = job)
  s.world.calls[← s.bodies[k]?]?

/-- A worker that starts a body calls the service. -/
def take (π : Policy (schema P)) (i : Nat) (ledger : Ledger) : Option (UserQueue P) :=
  match s.ledger.starting i with
  | some e => do
    let world ← s.world.step π (.call (← UserRequest.ofJob e.handler e.args))
    return ⟨ledger, world, s.bodies ++ [s.world.calls.length]⟩
  | none => some { s with ledger }

/-- `json` is the JSON text of what a method returns. -/
def step (π : Policy (schema P)) (json : UserReply P → Json) (s : UserQueue P) :
    Event P → Option (UserQueue P)
  | .startup => (s.ledger.step Ledger.userService .startup).map fun ledger => { s with ledger }
  | .request q =>
    if s.listening then
      match q.job with
      | some (method, args) =>
        (s.ledger.step Ledger.userService (.call method args)).map fun ledger => { s with ledger }
      | none => (s.world.step π (.call q)).map fun world => { s with world }
    else none
  | .dispatch d =>
    (s.ledger.step Ledger.userService (.dispatch d)).map fun ledger => { s with ledger }
  | .take i => do
    s.take π i (← s.ledger.step Ledger.userService (.take i))
  | .service (.call _) => none
  | .service l => (s.world.step π l).map fun world => { s with world }
  | .finish job => do
    let r ← (← s.callOf job).outcome
    let ledger ← s.ledger.step Ledger.userService (.finish job (r.map json))
    return { s with ledger }

def start (s₀ : Store (schema P)) : UserQueue P := ⟨.start Ledger.userMethods, .init s₀, []⟩

end UserQueue

/-! ## The one consumer -/

namespace Process

/-- How far `onModuleInit` is: the consumer of the service is constructed once, before any call. -/
inductive Started (P : Process) : Prop
  | before (hstartup : P.startup = .next 0) (hbuilt : P.built = []) (hconsumers : P.consumers = [])
    (hdispatches : P.dispatches = [])
  | connecting (hstartup : P.startup = .connecting 0 "user-consumer" 0)
    (hbuilt : P.built.map (·.consumerKey) = ["user-consumer"]) (hdispatches : P.dispatches = [])
  | after (hstartup : P.startup = .next 1 ∨ P.startup = .done)
    (hbuilt : P.built.map (·.consumerKey) = ["user-consumer"])
    (hconsumers : P.consumers.lookup "user-consumer" = some 0)
    (hdispatches : ∀ c ∈ P.dispatches, ∀ i, c.state ≠ .connecting i)

variable {P P' : Process} {c : Dispatch} {d : Nat} {jobs : List Job}

theorem Started.nodup (h : P.Started) : (P.built.map (·.consumerKey)).Nodup := by
  cases h with
  | before _ hbuilt =>
    rw [hbuilt]
    exact .nil
  | connecting _ hbuilt | after _ hbuilt =>
    rw [hbuilt]
    exact List.nodup_singleton _

theorem Started.onModuleInit (h : P.Started) (hmethods : P.methods = Ledger.userMethods)
    (hP : P.onModuleInit = some P') : P'.Started ∧ P'.methods = Ledger.userMethods := by
  have hkeys : P.registeredKeys = ["user-consumer"] := by
    rw [registeredKeys, hmethods]
    decide
  cases h with
  | before hstartup hbuilt hconsumers hdispatches =>
    simp only [Process.onModuleInit, hstartup, hkeys, ensureConsumer, hconsumers, hbuilt,
      List.getElem?_cons_zero, List.lookup_nil] at hP
    cases hP
    exact ⟨.connecting rfl rfl hdispatches, hmethods⟩
  | connecting hstartup hbuilt hdispatches =>
    simp only [Process.onModuleInit, hstartup] at hP
    cases hP
    refine ⟨.after (.inl rfl) hbuilt (by simp [Process.store]) ?_, hmethods⟩
    intro c hc
    change c ∈ P.dispatches at hc
    rw [hdispatches] at hc
    cases hc
  | after hstartup hbuilt hconsumers hdispatches =>
    rcases hstartup with hstartup | hstartup
    · simp only [Process.onModuleInit, hstartup, hkeys] at hP
      cases hP
      exact ⟨.after (.inr rfl) hbuilt hconsumers hdispatches, hmethods⟩
    · simp only [Process.onModuleInit, hstartup] at hP
      cases hP

/-- A method is called after the start. -/
theorem Started.call (h : P.Started) (hdone : P.startup = .done) (method : UseQueueMethod)
    (handler : JobHandler) (args : List Json) :
    Started { P with dispatches := P.dispatches ++ [⟨method, handler, args, .called⟩] } := by
  cases h with
  | before hstartup | connecting hstartup => cases hdone.symm.trans hstartup
  | after hstartup hbuilt hconsumers hdispatches =>
    refine .after hstartup hbuilt hconsumers ?_
    intro c hc
    rcases List.mem_append.mp hc with hc | hc
    · exact hdispatches c hc
    · cases List.mem_singleton.mp hc
      nofun

/-- No dispatch has to construct a consumer. -/
theorem Started.move (h : P.Started) (hc : P.dispatches[d]? = some c)
    (hkey : c.method.consumerKey = "user-consumer") (hm : DispatchMove jobs P d c P') :
    P'.Started := by
  have hmem := List.mem_of_getElem? hc
  cases h with
  | before _ _ _ hdispatches | connecting _ _ hdispatches =>
    rw [hdispatches] at hmem
    cases hmem
  | after hstartup hbuilt hconsumers hdispatches =>
    have hset {t : DispatchState} (ht : ∀ i, t ≠ .connecting i) :
        ∀ c' ∈ P.dispatches.modify d ({ · with state := t }), ∀ i, c'.state ≠ .connecting i := by
      intro c' hc'
      rcases mem_modify hc hc' with hold | rfl
      · exact hdispatches c' hold
      · exact ht
    cases hm with
    | found => exact .after hstartup hbuilt hconsumers (hset nofun)
    | construct _ hnone =>
      rw [hkey, hconsumers] at hnone
      cases hnone
    | store hs => exact absurd hs (hdispatches c hmem _)
    | get =>
      exact .after hstartup ((keys_setHandler ..).trans hbuilt) hconsumers (hset nofun)
    | add | settle => exact .after hstartup hbuilt hconsumers (hset nofun)

end Process

/-! ## The books of the queue -/

namespace Ledger

variable {handlerOf : UseQueueMethod → JobHandler} {s s' : Ledger} {P : Process} {i j : Nat}

/-- The bodies that an event starts. -/
def Event.begun (s : Ledger) : Event → List Execution
  | .take i => (s.starting i).toList
  | .load _ | .startup | .call _ _ | .dispatch _ | .finish _ _ => []

/-- The outcomes that an event records. -/
def Event.ended : Event → List (Nat × Except Exn Json)
  | .finish job outcome => [(job, outcome)]
  | .load _ | .startup | .call _ _ | .dispatch _ | .take _ => []

theorem step_books {e : Event} (h : s.step handlerOf e = some s') :
    s'.executions = s.executions ++ e.begun s ∧ s'.outcomes = s.outcomes ++ e.ended := by
  obtain ⟨deployment, _, rfl⟩ := Option.map_eq_some_iff.mp h
  cases e with
  | load | startup | call => exact ⟨(List.append_nil _).symm, (List.append_nil _).symm⟩
  | dispatch d =>
    simp only [record, Event.begun, Event.ended, List.append_nil]
    split <;> exact ⟨rfl, rfl⟩
  | take i => exact ⟨rfl, (List.append_nil _).symm⟩
  | finish => exact ⟨(List.append_nil _).symm, rfl⟩

theorem step_startup (hP : s.deployment.processes 0 = some P)
    (h : s.step handlerOf .startup = some s') :
    ∃ P', P.onModuleInit = some P' ∧ s'.deployment.processes 0 = some P' := by
  obtain ⟨deployment, hdep, rfl⟩ := Option.map_eq_some_iff.mp h
  simp only [Event.toDeployment, Deployment.step, Option.bind_eq_bind,
    Option.bind_eq_some_iff] at hdep
  obtain ⟨Q, hQ, P', hP', hdep⟩ := hdep
  cases hP.symm.trans hQ
  cases hdep
  exact ⟨P', hP', by simp [Deployment.setProcess]⟩

theorem step_call (hP : s.deployment.processes 0 = some P) {method : UseQueueMethod}
    {args : List Json} (h : s.step handlerOf (.call method args) = some s') :
    s'.deployment.processes 0 = some
      { P with dispatches := P.dispatches ++ [⟨method, handlerOf method, args, .called⟩] } := by
  obtain ⟨deployment, hdep, rfl⟩ := Option.map_eq_some_iff.mp h
  obtain ⟨Q, hQ, hdep⟩ := Option.bind_eq_some_iff.mp hdep
  cases hP.symm.trans hQ
  split at hdep <;> cases hdep
  simp [Deployment.setProcess]

theorem step_dispatch (hP : s.deployment.processes 0 = some P) {d : Nat}
    (h : s.step handlerOf (.dispatch d) = some s') :
    ∃ c P', P.dispatches[d]? = some c ∧ DispatchMove s.deployment.jobs P d c P' ∧
      s'.deployment.processes 0 = some P' := by
  obtain ⟨deployment, hdep, rfl⟩ := Option.map_eq_some_iff.mp h
  simp only [Event.toDeployment, Deployment.step, Option.bind_eq_bind,
    Option.bind_eq_some_iff] at hdep
  obtain ⟨Q, hQ, c, hc, hdep⟩ := hdep
  cases hP.symm.trans hQ
  obtain ⟨P', hm, hprocesses, _⟩ := Deployment.dispatchStep_cases hdep
  exact ⟨c, P', hc, hm, by simp [hprocesses]⟩

theorem step_take (h : s.step handlerOf (.take i) = some s') :
    s'.deployment.processes = s.deployment.processes := by
  obtain ⟨deployment, hdep, rfl⟩ := Option.map_eq_some_iff.mp h
  obtain ⟨_, _, _, _, _, _, _, _, rfl⟩ := Deployment.step_take hdep
  rfl

theorem step_finish {outcome : Except Exn Json}
    (h : s.step handlerOf (.finish j outcome) = some s') :
    s'.deployment.processes = s.deployment.processes := by
  obtain ⟨deployment, hdep, rfl⟩ := Option.map_eq_some_iff.mp h
  obtain ⟨_, _, hdep⟩ := Option.bind_eq_some_iff.mp hdep
  split at hdep <;> cases hdep
  rfl

theorem Kept.process_eq {P' : Process} (h : Kept handlerOf s P) (h' : Kept handlerOf s' P')
    (hprocesses : s'.deployment.processes = s.deployment.processes) : P' = P :=
  Option.some.inj (h'.process.symm.trans (hprocesses ▸ h.process))

/-- Bodies of one consumer: when the worker starts one, those before it have ended. -/
theorem Kept.ended_before (h : Kept handlerOf s P) (h' : Kept handlerOf s' P)
    (hone : (P.built.map (·.consumerKey)).Nodup) {e₀ : Execution}
    (hexec : s'.executions = s.executions ++ [e₀]) (hout : s'.outcomes = s.outcomes)
    {e : Execution} (he : e ∈ s.executions) (hkey : e.consumerKey = e₀.consumerKey) :
    e.job ∈ s.outcomes.map (·.1) := by
  have hnodup := h'.executions
  rw [hexec, List.map_append, List.nodup_append'] at hnodup
  obtain ⟨_, _, hdisjoint⟩ := hnodup
  have hmem : e ∈ s'.executions := hexec ▸ List.mem_append_left _ he
  have hmem₀ : e₀ ∈ s'.executions := hexec ▸ List.mem_append_right _ List.mem_cons_self
  have hnew : e₀.job ∉ s.outcomes.map (·.1) := by
    intro hended
    exact hdisjoint ((h.exactlyOnce hone).ended _ hended) List.mem_cons_self
  by_contra hno
  have hjob := (h'.exactlyOnce hone).serial e hmem e₀ hmem₀ hkey (hout ▸ hno) (hout ▸ hnew)
  exact hdisjoint (List.mem_map_of_mem he) (hjob ▸ List.mem_cons_self)

end Ledger

/-! ## The queue and the calls of the service -/

namespace UserQueue

/-- The places of the calls with a queue among the calls of the service. -/
def queuedPlaces (reqs : List (UserRequest P)) : List Nat :=
  (List.range reqs.length).filter fun b => reqs[b]?.any UserRequest.isQueued

theorem mem_queuedPlaces {reqs : List (UserRequest P)} {b : Nat} {q : UserRequest P}
    (hb : reqs[b]? = some q) (hq : q.isQueued = true) : b ∈ queuedPlaces reqs := by
  have hlt := (List.getElem?_eq_some_iff.mp hb).1
  refine List.mem_filter.mpr ⟨List.mem_range.mpr hlt, ?_⟩
  rw [hb]
  exact hq

theorem queuedPlaces_push (reqs : List (UserRequest P)) (q : UserRequest P) :
    queuedPlaces (reqs ++ [q]) =
      queuedPlaces reqs ++ if q.isQueued then [reqs.length] else [] := by
  have hold : ∀ b ∈ List.range reqs.length, (reqs ++ [q])[b]?.any UserRequest.isQueued =
      reqs[b]?.any UserRequest.isQueued := by
    intro b hb
    rw [List.getElem?_append_left (List.mem_range.mp hb)]
  rw [queuedPlaces, List.length_append, List.length_singleton, List.range_succ,
    List.filter_append, List.filter_congr hold, queuedPlaces]
  cases hq : q.isQueued <;> simp [hq]

theorem length_queuedPlaces (reqs : List (UserRequest P)) :
    (queuedPlaces reqs).length = (reqs.filter UserRequest.isQueued).length := by
  induction reqs using List.reverseRecOn with
  | nil => rfl
  | append_singleton reqs q ih =>
    rw [queuedPlaces_push, List.length_append, ih, List.filter_append, List.length_append]
    cases hq : q.isQueued <;> simp [hq]

/-- The `k`-th call with a queue has `k` of them before it. -/
theorem getElem?_queuedPlaces {reqs : List (UserRequest P)} {k b : Nat}
    (h : (queuedPlaces reqs)[k]? = some b) :
    ((reqs.take b).filter UserRequest.isQueued).length = k := by
  induction reqs using List.reverseRecOn with
  | nil => cases h
  | append_singleton reqs q ih =>
    rw [queuedPlaces_push] at h
    by_cases hk : k < (queuedPlaces reqs).length
    · rw [List.getElem?_append_left hk] at h
      have hb := List.mem_of_mem_filter (List.mem_of_getElem? h)
      rw [List.take_append_of_le_length (List.mem_range.mp hb).le]
      exact ih h
    · split at h
      · obtain ⟨rfl, rfl⟩ := (getElem?_push h).resolve_left fun hold =>
          hk (List.getElem?_eq_some_iff.mp hold).1
        rw [List.take_left, length_queuedPlaces]
      · rw [List.append_nil] at h
        exact absurd (List.getElem?_eq_some_iff.mp h).1 hk

/-- What the bodies that the worker has started are in the database: `Pr` is the process. -/
structure Linked (json : UserReply P → Json) (s : UserQueue P) (Pr : Process) : Prop where
  kept : s.ledger.Kept Ledger.userService Pr
  started : Pr.Started
  methods : Pr.methods = Ledger.userMethods
  requests : ∀ c ∈ Pr.dispatches, ∃ q : UserRequest P, q.job = some (c.method, c.args)
  length : s.bodies.length = s.ledger.executions.length
  body : ∀ (k : Nat) (e : Execution) (b : Nat), s.ledger.executions[k]? = some e →
    s.bodies[k]? = some b → ∃ q, (s.world.calls.map Call.req)[b]? = some q ∧
      UserRequest.ofJob e.handler e.args = some q
  bodies : s.bodies = queuedPlaces (s.world.calls.map Call.req)
  inOrder : s.ledger.executions.map (fun e => UserRequest.ofJob e.handler e.args) =
    ((s.world.calls.map Call.req).filter UserRequest.isQueued).map some
  outcomes : ∀ j o, (j, o) ∈ s.ledger.outcomes → ∃ (k : Nat) (e : Execution) (b : Nat)
    (c : Call (userService P)) (r : Except Exn (UserReply P)), s.ledger.executions[k]? = some e ∧
      e.job = j ∧ s.bodies[k]? = some b ∧ s.world.calls[b]? = some c ∧ c.phase = .settled r ∧
      o = r.map json

variable {json : UserReply P → Json} {s s' : UserQueue P} {Pr Pr' : Process}

theorem Linked.queued (h : s.Linked json Pr) {b : Nat} {q : UserRequest P}
    (hb : (s.world.calls.map Call.req)[b]? = some q) (hq : q.isQueued = true) : b ∈ s.bodies :=
  h.bodies ▸ mem_queuedPlaces hb hq

/-- The body of a call of the process is that of its request. -/
theorem Linked.ofJob (h : s.Linked json Pr) {e : Execution} {d : Nat} (he : e.Of Pr d) :
    e.consumerKey = "user-consumer" ∧ ∃ (c : Dispatch) (q : UserRequest P),
      Pr.dispatches[d]? = some c ∧ q.job = some (c.method, c.args) ∧ q.isQueued = true ∧
      UserRequest.ofJob e.handler e.args = some q := by
  obtain ⟨c, hc, hkey, hhandler, hargs⟩ := he
  obtain ⟨q, hq⟩ := h.requests c (List.mem_of_getElem? hc)
  obtain ⟨hqueued, hconsumer, _⟩ := UserRequest.isQueued_of_job hq
  refine ⟨hkey.trans hconsumer, c, q, hc, hq, hqueued, ?_⟩
  rw [hhandler, hargs, h.kept.faithful.singleton c (List.mem_of_getElem? hc)]
  exact UserRequest.ofJob_job hq

/-- The process moves, and no body starts or ends. -/
theorem Linked.quiet (h : s.Linked json Pr) {ledger : Ledger}
    (hkept : ledger.Kept Ledger.userService Pr') (hstarted : Pr'.Started)
    (hmethods : Pr'.methods = Ledger.userMethods)
    (hrequests : ∀ c ∈ Pr'.dispatches, ∃ q : UserRequest P, q.job = some (c.method, c.args))
    (hexec : ledger.executions = s.ledger.executions)
    (hout : ledger.outcomes = s.ledger.outcomes) :
    Linked json { s with ledger } Pr' where
  kept := hkept
  started := hstarted
  methods := hmethods
  requests := hrequests
  length := hexec ▸ h.length
  body := hexec ▸ h.body
  bodies := h.bodies
  inOrder := hexec ▸ h.inOrder
  outcomes j o ho := by
    obtain ⟨k, e, b, c, r, he, hrest⟩ := h.outcomes j o (hout ▸ ho)
    exact ⟨k, e, b, c, r, hexec ▸ he, hrest⟩

theorem Linked.startup (h : s.Linked json Pr) {ledger : Ledger}
    (hs : s.ledger.step Ledger.userService .startup = some ledger) :
    ∃ Pr', Linked json { s with ledger } Pr' := by
  obtain ⟨P', hP', hprocess⟩ := Ledger.step_startup h.kept.process hs
  obtain ⟨Pr', hkept, _⟩ := h.kept.step hs
  cases hprocess.symm.trans hkept.process
  obtain ⟨hstarted, hmethods⟩ := h.started.onModuleInit h.methods hP'
  obtain ⟨hexec, hout⟩ := Ledger.step_books hs
  refine ⟨P', h.quiet hkept hstarted hmethods ?_ (hexec.trans (List.append_nil _))
    (hout.trans (List.append_nil _))⟩
  intro c hc
  rw [(Process.onModuleInit_extends hP').1] at hc
  exact h.requests c hc

theorem Linked.call (h : s.Linked json Pr) (hlistening : s.listening = true) {q : UserRequest P}
    {method : UseQueueMethod} {args : List Json} (hq : q.job = some (method, args))
    {ledger : Ledger} (hs : s.ledger.step Ledger.userService (.call method args) = some ledger) :
    ∃ Pr', Linked json { s with ledger } Pr' := by
  have hprocess := Ledger.step_call h.kept.process hs
  obtain ⟨Pr', hkept, _⟩ := h.kept.step hs
  cases hprocess.symm.trans hkept.process
  have hdone : Pr.startup = .done := by
    rw [listening, h.kept.process] at hlistening
    exact of_decide_eq_true hlistening
  obtain ⟨hexec, hout⟩ := Ledger.step_books hs
  refine ⟨_, h.quiet hkept (h.started.call hdone ..) h.methods ?_
    (hexec.trans (List.append_nil _)) (hout.trans (List.append_nil _))⟩
  intro c hc
  rcases List.mem_append.mp hc with hc | hc
  · exact h.requests c hc
  · cases List.mem_singleton.mp hc
    exact ⟨q, hq⟩

theorem Linked.dispatch (h : s.Linked json Pr) {d : Nat} {ledger : Ledger}
    (hs : s.ledger.step Ledger.userService (.dispatch d) = some ledger) :
    ∃ Pr', Linked json { s with ledger } Pr' := by
  obtain ⟨c, P', hc, hm, hprocess⟩ := Ledger.step_dispatch h.kept.process hs
  obtain ⟨Pr', hkept, _⟩ := h.kept.step hs
  cases hprocess.symm.trans hkept.process
  obtain ⟨q, hq⟩ := h.requests c (List.mem_of_getElem? hc)
  obtain ⟨_, hconsumer, _⟩ := UserRequest.isQueued_of_job hq
  obtain ⟨hexec, hout⟩ := Ledger.step_books hs
  obtain ⟨t, ht, _⟩ := hm.state
  have hmethods : P'.methods = Pr.methods := by
    cases hm <;> rfl
  refine ⟨P', h.quiet hkept (h.started.move hc hconsumer hm) (hmethods.trans h.methods) ?_
    (hexec.trans (List.append_nil _)) (hout.trans (List.append_nil _))⟩
  intro c' hc'
  rw [ht] at hc'
  rcases Process.mem_modify hc hc' with hold | rfl
  · exact h.requests c' hold
  · exact ⟨q, hq⟩

/-- A call goes on, the clock ticks or the database is edited. -/
theorem Linked.service (h : s.Linked json Pr) {l : Label (userService P)} (hl : ∀ q, l ≠ .call q)
    {world : World (userService P)} (hs : s.world.step π l = some world) :
    Linked json { s with world } Pr := by
  obtain ⟨hreqs, hsettled⟩ := World.step_calls hs
  have hsame : world.calls.map Call.req = s.world.calls.map Call.req := by
    rw [hreqs]
    cases l with
    | call q => exact absurd rfl (hl q)
    | exec | finish | crash | tick | edit => exact List.append_nil _
  exact {
    kept := h.kept
    started := h.started
    methods := h.methods
    requests := h.requests
    length := h.length
    body := hsame ▸ h.body
    bodies := hsame ▸ h.bodies
    inOrder := hsame ▸ h.inOrder
    outcomes := by
      intro j o ho
      obtain ⟨k, e, b, c, r, he, hj, hb, hc, hr, hresult⟩ := h.outcomes j o ho
      exact ⟨k, e, b, c, r, he, hj, hb, hsettled hc hr, hr, hresult⟩ }

/-- A method without a queue is called. -/
theorem Linked.direct (h : s.Linked json Pr) {q : UserRequest P} (hq : q.isQueued = false)
    {world : World (userService P)} (hs : s.world.step π (.call q) = some world) :
    Linked json { s with world } Pr := by
  obtain ⟨hreqs, hsettled⟩ := World.step_calls hs
  exact {
    kept := h.kept
    started := h.started
    methods := h.methods
    requests := h.requests
    length := h.length
    body := by
      intro k e b he hb
      obtain ⟨q', hq', hofJob⟩ := h.body k e b he hb
      refine ⟨q', ?_, hofJob⟩
      rw [hreqs, List.getElem?_append_left (List.getElem?_eq_some_iff.mp hq').1]
      exact hq'
    bodies := by
      rw [hreqs, queuedPlaces_push, if_neg (by simp [hq]), List.append_nil]
      exact h.bodies
    inOrder := by
      rw [h.inOrder, hreqs, List.filter_append]
      simp [hq]
    outcomes := by
      intro j o ho
      obtain ⟨k, e, b, c, r, he, hj, hb, hc, hr, hresult⟩ := h.outcomes j o ho
      exact ⟨k, e, b, c, r, he, hj, hb, hsettled hc hr, hr, hresult⟩ }

theorem take_cases {i : Nat} {ledger : Ledger} (hs : s.take π i ledger = some s') :
    (s.ledger.starting i = none ∧ s' = { s with ledger }) ∨
    ∃ e q world, s.ledger.starting i = some e ∧
      UserRequest.ofJob e.handler e.args = some q ∧ s.world.step π (.call q) = some world ∧
      s' = ⟨ledger, world, s.bodies ++ [s.world.calls.length]⟩ := by
  rw [take] at hs
  split at hs
  · rename_i e he
    simp only [Option.bind_eq_bind, Option.bind_eq_some_iff] at hs
    obtain ⟨q, hq, world, hworld, hs⟩ := hs
    cases hs
    exact .inr ⟨e, q, world, he, hq, hworld, rfl⟩
  · rename_i hnone
    cases hs
    exact .inl ⟨hnone, rfl⟩

/-- When the worker starts a body, the calls of the bodies before it have settled. -/
theorem Linked.turns (h : s.Linked json Pr) {i : Nat} {ledger : Ledger}
    (hs : s.ledger.step Ledger.userService (.take i) = some ledger) {e : Execution}
    (he : s.ledger.starting i = some e) :
    ∀ c ∈ s.world.calls, c.req.isQueued = true → c.Settled := by
  obtain ⟨Pr', hkept, _⟩ := h.kept.step hs
  obtain ⟨hexec, hout⟩ := Ledger.step_books hs
  simp only [Ledger.Event.begun, he, Option.toList_some] at hexec
  obtain rfl : Pr' = Pr := h.kept.process_eq hkept (Ledger.step_take hs)
  have hone := h.started.nodup
  -- the new body, and every earlier one, is for the one consumer
  have hconsumer {e' : Execution} (he' : e' ∈ ledger.executions) :
      e'.consumerKey = "user-consumer" := by
    obtain ⟨d, _, hof⟩ := hkept.execution e' he'
    exact (h.ofJob hof).1
  intro c hc hqueued
  obtain ⟨b, hb⟩ := List.mem_iff_getElem?.mp hc
  have hreq : (s.world.calls.map Call.req)[b]? = some c.req := by
    rw [List.getElem?_map, hb]
    rfl
  obtain ⟨k, hk⟩ := List.mem_iff_getElem?.mp (h.queued hreq hqueued)
  have hlt : k < s.ledger.executions.length := h.length ▸ (List.getElem?_eq_some_iff.mp hk).1
  have hek := List.getElem?_eq_getElem hlt
  have hmem := List.mem_of_getElem? hek
  have hkeys : (s.ledger.executions[k]).consumerKey = e.consumerKey := by
    have hold := hconsumer (hexec ▸ List.mem_append_left _ hmem)
    have hnew := hconsumer (hexec ▸ List.mem_append_right _ List.mem_cons_self)
    exact hold.trans hnew.symm
  have hended := h.kept.ended_before hkept hone hexec (hout.trans (List.append_nil _)) hmem hkeys
  obtain ⟨⟨j, o⟩, ho, hj⟩ := List.mem_map.mp hended
  obtain ⟨k', e', b', c', r, he', hj', hb', hc', hr, _⟩ := h.outcomes j o ho
  have hkk : k = k' := by
    have hnodup := h.kept.executions
    refine (List.getElem?_inj (by simpa using hlt) hnodup).mp ?_
    rw [List.getElem?_map, List.getElem?_map, hek, he']
    exact congrArg some (hj.symm.trans hj'.symm)
  subst hkk
  cases hk.symm.trans hb'
  cases hb.symm.trans hc'
  exact ⟨r, hr⟩

theorem Linked.take (h : s.Linked json Pr) {i : Nat} {ledger : Ledger}
    (hs : s.ledger.step Ledger.userService (.take i) = some ledger)
    (htake : s.take π i ledger = some s') : ∃ Pr', s'.Linked json Pr' := by
  obtain ⟨Pr', hkept, _⟩ := h.kept.step hs
  obtain ⟨hexec, hout⟩ := Ledger.step_books hs
  replace hout : ledger.outcomes = s.ledger.outcomes := hout.trans (List.append_nil _)
  obtain rfl : Pr' = Pr := h.kept.process_eq hkept (Ledger.step_take hs)
  rcases take_cases htake with ⟨hnone, rfl⟩ | ⟨e, q, world, he, hq, hworld, rfl⟩
  · simp only [Ledger.Event.begun, hnone, Option.toList_none, List.append_nil] at hexec
    exact ⟨Pr', h.quiet hkept h.started h.methods h.requests hexec hout⟩
  simp only [Ledger.Event.begun, he, Option.toList_some] at hexec
  obtain ⟨hreqs, hsettled⟩ := World.step_calls hworld
  have hqueued : q.isQueued = true := by
    obtain ⟨d, _, hof⟩ := hkept.execution e (hexec ▸ List.mem_append_right _ List.mem_cons_self)
    obtain ⟨_, _, q', _, _, hqueued, hq'⟩ := h.ofJob hof
    cases hq.symm.trans hq'
    exact hqueued
  have hnew : (s.world.calls.map Call.req ++ [q])[s.world.calls.length]? = some q := by
    rw [List.getElem?_append_right (List.length_map _).le, List.length_map, Nat.sub_self]
    rfl
  refine ⟨Pr', ?_⟩
  exact {
    kept := hkept
    started := h.started
    methods := h.methods
    requests := h.requests
    length := by
      rw [hexec, List.length_append, List.length_append, h.length]
      rfl
    body := by
      intro k e' b he' hb
      rw [hexec] at he'
      rw [hreqs]
      rcases getElem?_push he' with hold | ⟨rfl, rfl⟩
      · rcases getElem?_push hb with hb | ⟨rfl, _⟩
        · obtain ⟨q', hq', hofJob⟩ := h.body k e' b hold hb
          refine ⟨q', ?_, hofJob⟩
          rw [List.getElem?_append_left (List.getElem?_eq_some_iff.mp hq').1]
          exact hq'
        · exact absurd (List.getElem?_eq_some_iff.mp hold).1 (h.length ▸ Nat.lt_irrefl _)
      · rcases getElem?_push hb with hb | ⟨_, rfl⟩
        · exact absurd (List.getElem?_eq_some_iff.mp hb).1 (h.length ▸ Nat.lt_irrefl _)
        · exact ⟨q, hnew, hq⟩
    bodies := by
      rw [hreqs, queuedPlaces_push, if_pos hqueued, List.length_map, h.bodies]
    inOrder := by
      rw [hexec, hreqs, List.map_append, h.inOrder, List.filter_append, List.map_append]
      simp [hq, hqueued]
    outcomes := by
      intro j o ho
      obtain ⟨k, e', b, c, r, he', hj, hb, hc, hr, hresult⟩ := h.outcomes j o (hout ▸ ho)
      refine ⟨k, e', b, c, r, ?_, hj, ?_, hsettled hc hr, hr, hresult⟩
      · rw [hexec, List.getElem?_append_left (List.getElem?_eq_some_iff.mp he').1]
        exact he'
      · rw [List.getElem?_append_left (List.getElem?_eq_some_iff.mp hb).1]
        exact hb }

/-- The body of a job has ended, and its worker finishes the job with its outcome. -/
theorem Linked.finish (h : s.Linked json Pr) {job : Nat} {c : Call (userService P)}
    (hc : s.callOf job = some c) {r : Except Exn (UserReply P)} (hr : c.outcome = some r)
    {ledger : Ledger}
    (hs : s.ledger.step Ledger.userService (.finish job (r.map json)) = some ledger) :
    ∃ Pr', Linked json { s with ledger } Pr' := by
  obtain ⟨Pr', hkept, _⟩ := h.kept.step hs
  obtain ⟨hexec, hout⟩ := Ledger.step_books hs
  replace hexec : ledger.executions = s.ledger.executions := hexec.trans (List.append_nil _)
  obtain rfl : Pr' = Pr := h.kept.process_eq hkept (Ledger.step_finish hs)
  simp only [callOf, Option.bind_eq_bind, Option.bind_eq_some_iff] at hc
  obtain ⟨k, hk, b, hb, hc⟩ := hc
  obtain ⟨e, he, hjob⟩ : ∃ e, s.ledger.executions[k]? = some e ∧ e.job = job := by
    obtain ⟨hlt, hjob, _⟩ := List.findIdx?_eq_some_iff_getElem.mp hk
    exact ⟨_, List.getElem?_eq_getElem hlt, of_decide_eq_true hjob⟩
  refine ⟨Pr', ?_⟩
  exact {
    kept := hkept
    started := h.started
    methods := h.methods
    requests := h.requests
    length := hexec ▸ h.length
    body := hexec ▸ h.body
    bodies := h.bodies
    inOrder := hexec ▸ h.inOrder
    outcomes := by
      intro j o ho
      rw [hout] at ho
      rcases List.mem_append.mp ho with ho | ho
      · obtain ⟨k, e, b, c, r, he, hrest⟩ := h.outcomes j o ho
        exact ⟨k, e, b, c, r, hexec ▸ he, hrest⟩
      · cases List.mem_singleton.mp ho
        have hphase : c.phase = .settled r := by
          rw [Call.outcome] at hr
          split at hr <;> cases hr
          assumption
        exact ⟨k, e, b, c, r, hexec ▸ he, hjob, hb, hc, hphase, rfl⟩ }

/-! ## Runs -/

/-- What holds in every state of a run from the store `s₀`. -/
structure Inv (π : Policy (schema P)) (json : UserReply P → Json) (s₀ : Store (schema P))
    (s : UserQueue P) : Prop where
  linked : ∃ Pr, s.Linked json Pr
  sound : s.world.Sound (parentRely π s₀.db)
  inTurn : s.world.InTurn UserRequest.isQueued Tables.accounts (Takes s₀.db π.faults)
    s₀.db.accounts

variable {s₀ : Store (schema P)}

theorem Inv.start (s₀ : Store (schema P)) : (start s₀).Inv π json s₀ where
  linked := ⟨.start Ledger.userMethods,
    { kept := .start _
      started := .before rfl rfl rfl rfl
      methods := rfl
      requests _ hc := by cases hc
      length := rfl
      body _ _ _ he := by cases he
      bodies := rfl
      inOrder := rfl
      outcomes _ _ ho := by cases ho }⟩
  sound := .init (.refl s₀.db)
  inTurn := .init s₀

/-- The database takes a step. -/
theorem Inv.world (hP : P.Lawful) (h : s.Inv π json s₀) {l : Label (userService P)}
    {world : World (userService P)} (hl : s.world.Turns UserRequest.isQueued l)
    (hw : s.world.step π l = some world) (hs' : s'.world = world)
    (hlinked : ∃ Pr, s'.Linked json Pr) : s'.Inv π json s₀ := by
  subst hs'
  exact ⟨hlinked, (h.sound.step (parentRely_keeps _) hw).1,
    h.inTurn.step (service_obeys hP) h.sound hl hw⟩

theorem Inv.step (hP : P.Lawful) (h : s.Inv π json s₀) {e : Event P}
    (hs : step π json s e = some s') : s'.Inv π json s₀ := by
  obtain ⟨Pr, hlinked⟩ := h.linked
  cases e with
  | startup =>
    obtain ⟨ledger, hledger, rfl⟩ := Option.map_eq_some_iff.mp hs
    exact ⟨hlinked.startup hledger, h.sound, h.inTurn⟩
  | request q =>
    simp only [UserQueue.step] at hs
    split at hs
    swap
    · cases hs
    rename_i hlistening
    cases hq : q.job with
    | some job =>
      obtain ⟨method, args⟩ := job
      simp only [hq] at hs
      obtain ⟨ledger, hledger, rfl⟩ := Option.map_eq_some_iff.mp hs
      exact ⟨hlinked.call hlistening hq hledger, h.sound, h.inTurn⟩
    | none =>
      simp only [hq] at hs
      obtain ⟨world, hw, rfl⟩ := Option.map_eq_some_iff.mp hs
      have hdirect : q.isQueued = false := by
        cases q with
        | refresh => rfl
        | adminCreate | signIn => cases hq
      refine h.world hP ?_ hw rfl ⟨Pr, hlinked.direct hdirect hw⟩
      intro hqueued
      cases hdirect.symm.trans hqueued
  | dispatch d =>
    obtain ⟨ledger, hledger, rfl⟩ := Option.map_eq_some_iff.mp hs
    exact ⟨hlinked.dispatch hledger, h.sound, h.inTurn⟩
  | take i =>
    obtain ⟨ledger, hledger, htake⟩ := Option.bind_eq_some_iff.mp hs
    have hlinked' := hlinked.take hledger htake
    rcases take_cases htake with ⟨_, rfl⟩ | ⟨e, q, world, he, _, hw, rfl⟩
    · exact ⟨hlinked', h.sound, h.inTurn⟩
    · refine h.world hP ?_ hw rfl hlinked'
      intro _
      exact hlinked.turns hledger he
  | service l =>
    have hcall : ∀ q, l ≠ .call q := by
      rintro q rfl
      cases hs
    have hstep : (s.world.step π l).map (fun world => { s with world }) = some s' := by
      cases l with
      | call q => exact absurd rfl (hcall q)
      | exec | finish | crash | tick | edit => exact hs
    obtain ⟨world, hw, rfl⟩ := Option.map_eq_some_iff.mp hstep
    refine h.world hP ?_ hw rfl ⟨Pr, hlinked.service hcall hw⟩
    cases l with
    | call q => exact absurd rfl (hcall q)
    | exec | finish | crash | tick | edit => trivial
  | finish job =>
    simp only [UserQueue.step, Option.bind_eq_bind, Option.bind_eq_some_iff] at hs
    obtain ⟨c, hc, r, hr, ledger, hledger, hs⟩ := hs
    cases hs
    exact ⟨hlinked.finish hc hr hledger, h.sound, h.inTurn⟩

/-- The requests to the queued methods that have been answered, in the order of their jobs. -/
def served (s : UserQueue P) : List (UserRequest P × Except Exn (UserReply P)) :=
  World.settledOf UserRequest.isQueued s.world.calls

/-- `o` is what the dispatch `d` makes of the outcome of its own request: `d` has added the job `j`,
whose execution `k` is the call `b` of the service, and the register answers the request as its
`k`-th. -/
def AnswersOwn (json : UserReply P → Json) (s : UserQueue P) (Pr : Process) (d : Nat)
    (o : Except Exn Json) : Prop :=
  ∃ (c : Dispatch) (j k b : Nat) (e : Execution) (body : Call (userService P))
    (r : Except Exn (UserReply P)), Pr.dispatches[d]? = some c ∧ s.ledger.adders[j]? = some d ∧
    s.ledger.executions[k]? = some e ∧ e.job = j ∧ s.bodies[k]? = some b ∧
    s.world.calls[b]? = some body ∧ UserRequest.job body.req = some (c.method, c.args) ∧
    body.phase = .settled r ∧ s.served[k]? = some (body.req, r) ∧
    o = WriteQueueRegistry.dispatched (r.map json)

/-- The accounts, and the answers, are those of a register that takes the requests one after the
other, in the order of their jobs. A dispatch adds one job, a job has one execution, and the
executions are, one by one, the calls that the register takes; a dispatch is answered once. -/
structure Registered (π : Policy (schema P)) (json : UserReply P → Json) (s₀ : Store (schema P))
    (s : UserQueue P) (Pr : Process) : Prop where
  executes : Executes (Takes s₀.db π.faults) s₀.db.accounts s.served s.world.db.accounts
  fifo : s.ledger.executions.map (·.job) <+: List.range s.ledger.deployment.jobs.length
  inOrder : s.ledger.executions.map (fun e => UserRequest.ofJob e.handler e.args) =
    ((s.world.calls.map Call.req).filter UserRequest.isQueued).map some
  bodies : s.bodies = queuedPlaces (s.world.calls.map Call.req)
  adders : s.ledger.adders.Nodup ∧ s.ledger.adders.length = s.ledger.deployment.jobs.length
  once : (s.ledger.results.map (·.1)).Nodup
  answers : ∀ d o, (d, o) ∈ s.ledger.results → s.AnswersOwn json Pr d o

/-- All jobs are in the one queue, and are executed in their order. -/
theorem Linked.fifo (h : s.Linked json Pr) :
    s.ledger.executions.map (·.job) <+: List.range s.ledger.deployment.jobs.length := by
  have hfifo := (h.kept.exactlyOnce h.started.nodup).fifo "user-consumer"
  have hexecuted : s.ledger.executed "user-consumer" = s.ledger.executions.map (·.job) := by
    rw [Ledger.executed, List.filter_eq_self.mpr]
    intro e he
    obtain ⟨d, _, hof⟩ := h.kept.execution e he
    exact decide_eq_true (h.ofJob hof).1
  have hqueue : s.ledger.deployment.queueOf "user-consumer" =
      List.range s.ledger.deployment.jobs.length := by
    rw [Deployment.queueOf, List.filter_eq_self.mpr]
    intro j hj
    have hjob := List.getElem?_eq_getElem (List.mem_range.mp hj)
    have hd := List.getElem?_eq_getElem (h.kept.length ▸ List.mem_range.mp hj)
    obtain ⟨c, hc, hconsumer, _⟩ := h.kept.job j _ _ hd hjob
    obtain ⟨q, hq⟩ := h.requests c (List.mem_of_getElem? hc)
    rw [hjob]
    exact decide_eq_true (hconsumer.trans (UserRequest.isQueued_of_job hq).2.1)
  rwa [hexecuted, hqueue] at hfifo

/-- The `k`-th execution, once it has settled, is what the register has answered as its `k`-th. -/
theorem Inv.getElem?_served (h : s.Inv π json s₀) (hlinked : s.Linked json Pr) {k b : Nat}
    {c : Call (userService P)} {r : Except Exn (UserReply P)} (hb : s.bodies[k]? = some b)
    (hc : s.world.calls[b]? = some c) (hqueued : UserRequest.isQueued c.req = true)
    (hr : c.phase = .settled r) : s.served[k]? = some (c.req, r) := by
  obtain ⟨hlt, rfl⟩ := List.getElem?_eq_some_iff.mp hc
  have hw : s.world.calls =
      s.world.calls.take b ++ s.world.calls[b] :: s.world.calls.drop (b + 1) := by
    rw [← List.drop_eq_getElem_cons hlt, List.take_append_drop]
  have hplace := getElem?_queuedPlaces (hlinked.bodies ▸ hb)
  rw [← List.map_take, List.filter_map, List.length_map] at hplace
  have hserved := h.inTurn.getElem?_settledOf hw hqueued hr
  rwa [show (fun c : Call (userService P) => UserRequest.isQueued c.req) =
    UserRequest.isQueued ∘ Call.req from rfl, hplace] at hserved

/-- A settled dispatch has the answer to its own request. -/
theorem Inv.answers (h : s.Inv π json s₀) (hlinked : s.Linked json Pr) {d : Nat}
    {o : Except Exn Json} (ho : (d, o) ∈ s.ledger.results) : s.AnswersOwn json Pr d o := by
  obtain ⟨j, result, hadder, hout, rfl⟩ := hlinked.kept.result d o ho
  obtain ⟨k, e, b, c, r, he, rfl, hb, hc, hr, rfl⟩ := hlinked.outcomes j result hout
  obtain ⟨d', hd', hof⟩ := hlinked.kept.execution e (List.mem_of_getElem? he)
  cases hadder.symm.trans hd'
  obtain ⟨_, dispatch, q, hdispatch, hq, hqueued, hofJob⟩ := hlinked.ofJob hof
  obtain ⟨q', hreq, hofJob'⟩ := hlinked.body k e b he hb
  cases hofJob.symm.trans hofJob'
  rw [List.getElem?_map, hc] at hreq
  obtain rfl : c.req = q := Option.some.inj hreq
  have hserved := h.getElem?_served hlinked hb hc hqueued hr
  exact ⟨dispatch, e.job, k, b, e, c, r, hdispatch, hadder, he, rfl, hb, hc, hq, hr, hserved, rfl⟩

/-- **Behind the queue the service is a register**: in every run of the process, the database and
any number of callers, the accounts and the answers of `adminCreate` and `signIn` are those of a
register that takes the requests one at a time, in the order of their jobs, whatever `refresh` does
meanwhile; and each caller gets the answer to his own request. -/
theorem registered_in_turn (hP : P.Lawful) {ls : List (Event P)}
    (h : Run.exec (step π json) (start s₀) ls = some s) :
    ∃ Pr, s.ledger.deployment.processes 0 = some Pr ∧ s.Registered π json s₀ Pr := by
  have hinv : s.Inv π json s₀ := Run.invariant (fun hI hs => Inv.step hP hI hs) h (.start s₀)
  obtain ⟨Pr, hlinked⟩ := hinv.linked
  exact ⟨Pr, hlinked.kept.process, hinv.inTurn.executed, hlinked.fifo, hlinked.inOrder,
    hlinked.bodies, ⟨hlinked.kept.adders, hlinked.kept.length⟩, hlinked.kept.results,
    fun d o ho => hinv.answers hlinked ho⟩

/-- **First come, first served**: once a login id has been registered, each later request for it
whose passwords match is told so, faults aside; and no request gets as far as the unique key of the
login id. -/
theorem first_come_first_served (hP : P.Lawful) {ls : List (Event P)}
    (h : Run.exec (step π json) (start s₀) ls = some s) :
    (∀ l₁ l₂ dto, s.served = l₁ ++ (.adminCreate dto, .ok .created) :: l₂ →
      ∀ dto' r, (.adminCreate dto', r) ∈ l₂ → P.collate dto'.loginId = P.collate dto.loginId →
        dto'.loginPw = dto'.loginPw2 →
        r = .error (invalid "login_id" "이미 사용 중인 로그인 ID입니다.") ∨ Faulted π r) ∧
    ∀ q, (q, .error (badRequestException { message := "중복된 로그인 ID가 존재합니다." })) ∉ s.served := by
  have hinv : s.Inv π json s₀ := Run.invariant (fun hI hs => Inv.step hP hI hs) h (.start s₀)
  have hexec : Executes (Takes s₀.db π.faults) s₀.db.accounts s.served s.world.db.accounts :=
    hinv.inTurn.executed
  constructor
  · intro l₁ l₂ dto hserved dto' r hr hid hpw
    rw [hserved] at hexec
    exact created_once hexec hr hid hpw
  · intro q hq
    obtain ⟨_, _, b, b', _, _, htakes, _⟩ := hexec.mem hq
    exact htakes.not_duplicate rfl

/-! ## A sample run -/

def memberDto (name : String) : AdminUserCreateDto :=
  ⟨"member", "pw", "pw", name, "nick", "USER", none⟩

/-- Two accounts are requested for one login id; the second job is added while the first is
waiting. -/
def turnLabels : List (Event symbolic) :=
  [.startup, .startup, .startup,
    .request (.adminCreate (memberDto "first")), .request (.adminCreate (memberDto "second")),
    .dispatch 0, .dispatch 0, .dispatch 0, .dispatch 1, .dispatch 1, .dispatch 1,
    .take 0, .service (.exec 0 .proceed), .service (.exec 0 (.pick "m")),
    .service (.exec 0 (.pick "salt")), .service (.exec 0 .proceed), .service (.finish 0), .finish 0,
    .take 0, .service (.exec 1 .proceed), .service (.finish 1), .finish 1,
    .dispatch 0, .dispatch 1]

def turnState : UserQueue symbolic :=
  (Run.exec (step (calm symbolic .repeatableRead) fun _ => .null) (start (sampleStore 5000))
    turnLabels).get (by decide +kernel)

theorem turn_exec : Run.exec (step (calm symbolic .repeatableRead) fun _ => .null)
    (start (sampleStore 5000)) turnLabels = some turnState :=
  (Option.some_get _).symm

theorem registered_in_turn_sample :
    turnState.world.db.accounts.map (·.name) = ["name", "first"] ∧
    ∃ Pr, turnState.ledger.deployment.processes 0 = some Pr ∧
      turnState.Registered (calm symbolic .repeatableRead) (fun _ => .null) (sampleStore 5000) Pr :=
  ⟨by decide +kernel, registered_in_turn symbolic_lawful turn_exec⟩

/-- The second caller is told that the login id is taken. -/
theorem first_come_first_served_sample :
    ∃ r, (.adminCreate (memberDto "second"), r) ∈ turnState.served ∧
      r = .error (invalid "login_id" "이미 사용 중인 로그인 ID입니다.") := by
  have hserved : turnState.served =
      [] ++ (.adminCreate (memberDto "first"), .ok .created) ::
        [(.adminCreate (memberDto "second"),
          .error (invalid "login_id" "이미 사용 중인 로그인 ID입니다."))] := by
    rfl
  obtain ⟨hturn, _⟩ := first_come_first_served symbolic_lawful turn_exec
  refine ⟨_, by rw [hserved]; exact List.mem_cons_of_mem _ List.mem_cons_self, ?_⟩
  rcases hturn _ _ _ hserved (memberDto "second") _ List.mem_cons_self rfl rfl with h | h
  · exact h
  · exact absurd h.1 Bool.false_ne_true

end UserQueue

end NestHarness
