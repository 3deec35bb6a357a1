import NestHarness.Http.FilterReplies
import NestHarness.Http.Guards
import NestHarness.Lib.Run

/-!
# The log of a routed request

A request on its way through the stages of its route: guards, interceptors, pipes and handler, and
the global filter for what any of them throws. `ApiLogInterceptor` installs its listeners once the
guards have let the request pass, and saves the log at the first event it hears.
-/

namespace NestHarness

open Js (Value)

variable {P : Crypto}

/-- Where a request is left. -/
inductive Exit where
  | guard
  | pipe
  | handler
  | answered
deriving DecidableEq

inductive Stage (P : Crypto) where
  | guards (rest : List (Guard P))
  | pipes
  | handler
  | replied (exit : Exit)

/-- What the response of a request emits. -/
inductive ResponseEvent where
  | finish
  | close
deriving DecidableEq

/-- When the response emits an event: before the interceptors, from then on to the reply, after
it. -/
inductive Moment where
  | guarding
  | handling
  | replied
deriving DecidableEq

/-- A routed request. `captured` is the last body that went through the wrapped `res.send`,
`startTime` is set when the listeners are installed, and `inserted` are the entities that
`ApiLogRepository.insert` has been called with. -/
structure HttpExchange (P : Crypto) where
  route : Route P
  stage : Stage P
  request : Request
  user : Option PassportUserResultDto
  statusCode : Nat
  captured : SentBody
  startTime : Option Nat
  saved : Bool
  inserted : List ApiLogEntity
  emitted : List Moment

/-- What an answer relies on of Express: `res.status` throws an error of its own, which has no
response, for a status that it does not accept. -/
structure Adapter extends Express where
  statusError : Value → JsError
  statusError_response : ∀ v, (statusError v).response.truthy = false

namespace HttpExchange

/-- What happens to a request next. -/
inductive Event (P : Crypto) where
  /-- The next guard decides. -/
  | guard (c : Credentials P)
  /-- The guards have let the request pass; the interceptor is called. -/
  | intercept (now : Nat)
  /-- The pipes end, with an error or not. -/
  | pipe (r : Except JsError Unit)
  /-- The handler ends, with an error or the body of the answer. -/
  | handle (r : Except JsError SentBody)
  | emit (e : ResponseEvent) (now : Nat)

def init (route : Route P) (request : Request) : HttpExchange P where
  route
  stage := .guards route.guards
  request
  user := none
  statusCode := 200
  captured := .undefined
  startTime := none
  saved := false
  inserted := []
  emitted := []

/-- `res.send`, which the interceptor wraps. -/
def send (body : SentBody) (x : HttpExchange P) : HttpExchange P :=
  if x.startTime.isSome then { x with captured := body } else x

/-- The number of a status that `res.status` accepts. -/
def statusNumber : Value → Nat
  | .num q => q.num.toNat
  | _ => 0

/-- The request is answered. -/
def answer (exit : Exit) (request : Request) (reply : Reply) (x : HttpExchange P) :
    HttpExchange P :=
  send reply.body
    { x with request, statusCode := statusNumber reply.status, stage := .replied exit }

/-- The global filter answers an error. When `res.status` throws, the new error comes to the filter
in its turn. -/
def fail (A : Adapter) (exit : Exit) (e : JsError) (x : HttpExchange P) : HttpExchange P :=
  let (request, reply) := CustomErrorFilter.catch e x.request
  if A.acceptsStatus reply.status then answer exit request reply x
  else
    let (request, reply) := CustomErrorFilter.catch (A.statusError reply.status) request
    answer exit request reply x

/-- `saveLog`, the listener of both events. -/
def saveLog (startTime now : Nat) (x : HttpExchange P) : HttpExchange P :=
  if x.saved then x
  else
    let entity := ApiLogInterceptor.buildLogEntity x.request ⟨x.statusCode, x.captured⟩ startTime
      (ApiLogInterceptor.extractRoutePath x.route.controllerPath x.route.handlerPath) now
    { x with saved := true, inserted := x.inserted ++ [entity] }

/-- What the listeners do at an event, when they are installed. -/
def hear (now : Nat) (x : HttpExchange P) : HttpExchange P :=
  match x.startTime with
  | some startTime => saveLog startTime now x
  | none => x

def moment (x : HttpExchange P) : Moment :=
  match x.stage with
  | .guards _ => .guarding
  | .pipes | .handler => .handling
  | .replied _ => .replied

/-- The exchange after an event of the response that nobody listens to. -/
def note (x : HttpExchange P) : HttpExchange P := { x with emitted := x.emitted ++ [x.moment] }

/-- A response has not finished before it is sent. -/
def emits (x : HttpExchange P) : ResponseEvent → Bool
  | .finish => x.moment = .replied
  | .close => true

def step (A : Adapter) (x : HttpExchange P) : Event P → Option (HttpExchange P)
  | .guard c =>
    match x.stage with
    | .guards (g :: rest) =>
      match g c x.user with
      | .ok user =>
        some { x with
          user, stage := .guards rest, request.userId := user.map (·.userId) <|> x.request.userId }
      | .error e => some (fail A .guard e x)
    | _ => none
  | .intercept now =>
    match x.stage with
    | .guards [] =>
      some { x with stage := .pipes, statusCode := x.route.httpCode, startTime := now }
    | _ => none
  | .pipe r =>
    match x.stage, r with
    | .pipes, .ok () => some { x with stage := .handler }
    | .pipes, .error e => some (fail A .pipe e x)
    | _, _ => none
  | .handle r =>
    match x.stage, r with
    | .handler, .ok body => some (send body { x with stage := .replied .answered })
    | .handler, .error e => some (fail A .handler e x)
    | _, _ => none
  | .emit e now =>
    if x.emits e then some (hear now x.note) else none

/-- The first event after the guards, when there is one. -/
def heard (x : HttpExchange P) : Option Moment := x.emitted.find? (· ≠ .guarding)

/-- The log of the request: one entity, with the status code of the reply. -/
def LoggedOnce (x : HttpExchange P) : Prop :=
  ∃ entity, x.inserted = [entity] ∧ entity.statusCode = x.statusCode

/-! ## What has been saved -/

/-- No listener has been installed. -/
structure Silent (x : HttpExchange P) : Prop where
  startTime : x.startTime = none
  saved : x.saved = false
  inserted : x.inserted = []

/-- The listeners have saved the first event they have heard. -/
inductive Recorded (x : HttpExchange P) : Prop where
  | unheard (heard : x.heard = none) (saved : x.saved = false) (inserted : x.inserted = [])
  | early (heard : x.heard = some .handling) (saved : x.saved = true)
    (inserted : x.inserted = [entity]) (status : entity.statusCode = x.route.httpCode)
  | late (heard : x.heard = some .replied) (moment : x.moment = .replied) (saved : x.saved = true)
    (logged : x.LoggedOnce)

/-- What holds of a request in a stage. -/
def Meets (x : HttpExchange P) : Stage P → Prop
  | .guards _ => x.Silent ∧ x.heard = none
  | .pipes | .handler =>
    x.startTime.isSome = true ∧ x.statusCode = x.route.httpCode ∧ x.Recorded
  | .replied .guard => x.Silent
  | .replied _ => x.startTime.isSome = true ∧ x.Recorded

def Inv (x : HttpExchange P) : Prop := x.Meets x.stage

variable {A : Adapter} {x x' : HttpExchange P} {e : Event P}

theorem Inv.meets {stage : Stage P} (h : x.Inv) (hs : x.stage = stage) : x.Meets stage := hs ▸ h

theorem Inv.of_meets {stage : Stage P} (hs : x.stage = stage) (h : x.Meets stage) : x.Inv := by
  rw [Inv, hs]
  exact h

theorem find?_append_guarding {l : List Moment} {m : Moment} :
    (l ++ [m]).find? (· ≠ .guarding) =
      (l.find? (· ≠ .guarding)).or (if m = .guarding then none else some m) := by
  rw [List.find?_append]
  congr 1
  cases m <;> rfl

theorem fail_spec (A : Adapter) (exit : Exit) (err : JsError) (x : HttpExchange P) :
    (fail A exit err x).stage = .replied exit ∧ (fail A exit err x).route = x.route ∧
      (fail A exit err x).startTime = x.startTime ∧ (fail A exit err x).saved = x.saved ∧
      (fail A exit err x).inserted = x.inserted ∧ (fail A exit err x).emitted = x.emitted := by
  have hanswer (request : Request) (reply : Reply) :
      (answer exit request reply x).stage = .replied exit ∧
        (answer exit request reply x).route = x.route ∧
        (answer exit request reply x).startTime = x.startTime ∧
        (answer exit request reply x).saved = x.saved ∧
        (answer exit request reply x).inserted = x.inserted ∧
        (answer exit request reply x).emitted = x.emitted := by
    unfold answer send
    split <;> exact ⟨rfl, rfl, rfl, rfl, rfl, rfl⟩
  unfold fail
  dsimp only
  split
  · exact hanswer ..
  · exact hanswer ..

/-- A reply leaves what has been saved: the status may change, but only an event after the reply is
saved with the status of the reply. -/
theorem Recorded.reply (h : x.Recorded) (hm : x.moment = .handling) (hroute : x'.route = x.route)
    (hsaved : x'.saved = x.saved) (hinserted : x'.inserted = x.inserted)
    (hemitted : x'.emitted = x.emitted) : x'.Recorded := by
  have hheard : x'.heard = x.heard := by rw [heard, heard, hemitted]
  cases h with
  | unheard h hs hi => exact .unheard (hheard.trans h) (hsaved.trans hs) (hinserted.trans hi)
  | early h hs hi hcode =>
    exact .early (hheard.trans h) (hsaved.trans hs) (hinserted.trans hi) (hroute ▸ hcode)
  | late _ hreplied =>
    rw [hm] at hreplied
    cases hreplied

theorem Inv.fail {exit : Exit} {err : JsError} (hne : exit ≠ .guard) (hm : x.moment = .handling)
    (hstart : x.startTime.isSome = true) (hrec : x.Recorded) :
    (HttpExchange.fail A exit err x).Inv := by
  obtain ⟨hstage, hroute, hstart', hsaved, hinserted, hemitted⟩ := fail_spec A exit err x
  have hrec' := hrec.reply hm hroute hsaved hinserted hemitted
  refine Inv.of_meets hstage ?_
  cases exit with
  | guard => exact (hne rfl).elim
  | pipe | handler | answered => exact ⟨hstart' ▸ hstart, hrec'⟩

theorem saveLog_fresh (startTime now : Nat) (hsaved : x.saved = false) (hempty : x.inserted = []) :
    ∃ entity, saveLog startTime now x = { x with saved := true, inserted := [entity] } ∧
      entity.statusCode = x.statusCode := by
  unfold saveLog
  rw [hsaved, hempty, if_neg (by decide)]
  exact ⟨_, rfl, rfl⟩

theorem saveLog_saved {startTime now : Nat} (h : x.saved = true) : saveLog startTime now x = x :=
  if_pos h

theorem heard_note (h : x.moment ≠ .guarding) : x.note.heard = x.heard.or (some x.moment) := by
  rw [heard, note, find?_append_guarding, if_neg h]
  rfl

/-- The first event that is heard is saved, and no later one. -/
theorem Recorded.emit {startTime now : Nat} (h : x.Recorded) (hm : x.moment ≠ .guarding)
    (hcode : x.moment = .handling → x.statusCode = x.route.httpCode) :
    (saveLog startTime now x.note).Recorded := by
  have hheard := heard_note hm
  cases h with
  | unheard hnone hs hi =>
    rw [hnone, Option.none_or] at hheard
    obtain ⟨entity, hsave, hstatus⟩ := saveLog_fresh startTime now (x := x.note) hs hi
    rw [hsave]
    cases hmoment : x.moment with
    | guarding => exact (hm hmoment).elim
    | handling =>
      rw [hmoment] at hheard
      exact .early hheard rfl rfl (hstatus.trans (hcode hmoment))
    | replied =>
      rw [hmoment] at hheard
      exact .late hheard hmoment rfl ⟨entity, rfl, hstatus⟩
  | early h hs hi hcode' =>
    rw [saveLog_saved (x := x.note) hs]
    exact .early (by rw [hheard, h]; rfl) hs hi hcode'
  | late h hreplied hs hlogged =>
    rw [saveLog_saved (x := x.note) hs]
    exact .late (by rw [hheard, h]; rfl) hreplied hs hlogged

theorem hear_silent {now : Nat} (h : x.startTime = none) : hear now x = x := by
  rw [hear, h]

theorem hear_eq (now : Nat) (h : x.startTime.isSome = true) :
    ∃ startTime, hear now x = saveLog startTime now x := by
  obtain ⟨startTime, ht⟩ := Option.isSome_iff_exists.mp h
  exact ⟨startTime, by rw [hear, ht]⟩

theorem saveLog_same (startTime now : Nat) (x : HttpExchange P) :
    (saveLog startTime now x).stage = x.stage ∧ (saveLog startTime now x).route = x.route ∧
      (saveLog startTime now x).statusCode = x.statusCode ∧
      (saveLog startTime now x).startTime = x.startTime := by
  unfold saveLog
  split <;> exact ⟨rfl, rfl, rfl, rfl⟩

/-- An event keeps the invariant, whenever it comes. -/
theorem Inv.emit {now : Nat} (h : x.Inv) :
    (hear now x.note).Inv := by
  have hsilent (hq : x.Silent) : (hear now x.note) =
      x.note := hear_silent hq.startTime
  have hloud (hstart : x.startTime.isSome = true) (hrec : x.Recorded) (hm : x.moment ≠ .guarding)
      (hcode : x.moment = .handling → x.statusCode = x.route.httpCode) :
      ∃ x', hear now x.note = x' ∧ x'.Recorded ∧
        x'.stage = x.stage ∧ x'.route = x.route ∧ x'.statusCode = x.statusCode ∧
        x'.startTime = x.startTime := by
    obtain ⟨startTime, heq⟩ := hear_eq now (x := x.note) hstart
    exact ⟨_, heq, hrec.emit hm hcode, saveLog_same ..⟩
  cases hstage : x.stage with
  | guards rest =>
    obtain ⟨hq, hheard⟩ : x.Silent ∧ x.heard = none := h.meets hstage
    have hm : x.moment = .guarding := by rw [moment, hstage]
    rw [hsilent hq]
    refine Inv.of_meets (x := x.note) hstage ⟨⟨hq.startTime, hq.saved, hq.inserted⟩, ?_⟩
    rw [heard, note, find?_append_guarding, if_pos hm, Option.or_none]
    exact hheard
  | pipes | handler =>
    have hmeets := h.meets hstage
    have hm : x.moment = .handling := by rw [moment, hstage]
    obtain ⟨x', heq, hrec, hstage', hroute, hstatus, hstart⟩ :=
      hloud hmeets.1 hmeets.2.2 (by rw [hm]; decide) fun _ => hmeets.2.1
    rw [heq]
    exact Inv.of_meets (hstage'.trans hstage)
      ⟨hstart ▸ hmeets.1, by rw [hstatus, hroute, hmeets.2.1], hrec⟩
  | replied exit =>
    have hmeets := h.meets hstage
    have hm : x.moment = .replied := by rw [moment, hstage]
    cases exit with
    | guard =>
      have hq : x.Silent := hmeets
      rw [hsilent hq]
      have hq' : x.note.Silent := ⟨hq.startTime, hq.saved, hq.inserted⟩
      exact Inv.of_meets (x := x.note) hstage hq'
    | pipe | handler | answered =>
      obtain ⟨x', heq, hrec, hstage', _, _, hstart⟩ :=
        hloud hmeets.1 hmeets.2 (by rw [hm]; decide) (by rw [hm]; nofun)
      rw [heq]
      exact Inv.of_meets (hstage'.trans hstage) ⟨hstart ▸ hmeets.1, hrec⟩

theorem Inv.step (h : x.Inv) (hs : step A x e = some x') : x'.Inv := by
  cases e with
  | guard c =>
    simp only [HttpExchange.step] at hs
    split at hs
    · next g rest hstage =>
      obtain ⟨hq, hheard⟩ : x.Silent ∧ x.heard = none := h.meets hstage
      split at hs
      · cases hs
        exact ⟨⟨hq.startTime, hq.saved, hq.inserted⟩, hheard⟩
      · next err _ =>
        cases hs
        obtain ⟨hstage', _, hstart, hsaved, hinserted, _⟩ := fail_spec A .guard err x
        have hq' : (HttpExchange.fail A .guard err x).Silent :=
          ⟨hstart.trans hq.startTime, hsaved.trans hq.saved, hinserted.trans hq.inserted⟩
        exact Inv.of_meets hstage' hq'
    · cases hs
  | intercept now =>
    simp only [HttpExchange.step] at hs
    split at hs
    · next hstage =>
      obtain ⟨hq, hheard⟩ : x.Silent ∧ x.heard = none := h.meets hstage
      cases hs
      exact ⟨rfl, rfl, .unheard hheard hq.saved hq.inserted⟩
    · cases hs
  | pipe r =>
    simp only [HttpExchange.step] at hs
    split at hs
    · next hstage =>
      have hmeets := h.meets hstage
      have hm : x.moment = .handling := by rw [moment, hstage]
      cases hs
      exact ⟨hmeets.1, hmeets.2.1, hmeets.2.2.reply hm rfl rfl rfl rfl⟩
    · next hstage =>
      have hmeets := h.meets hstage
      cases hs
      exact Inv.fail (by decide) (by rw [moment, hstage]) hmeets.1 hmeets.2.2
    · cases hs
  | handle r =>
    simp only [HttpExchange.step] at hs
    split at hs
    · next body hstage =>
      have hmeets := h.meets hstage
      have hm : x.moment = .handling := by rw [moment, hstage]
      cases hs
      rw [send, if_pos hmeets.1]
      exact ⟨hmeets.1, hmeets.2.2.reply hm rfl rfl rfl rfl⟩
    · next hstage =>
      have hmeets := h.meets hstage
      cases hs
      exact Inv.fail (by decide) (by rw [moment, hstage]) hmeets.1 hmeets.2.2
    · cases hs
  | emit ev now =>
    simp only [HttpExchange.step, Option.ite_none_right_eq_some, Option.some.injEq] at hs
    obtain ⟨_, rfl⟩ := hs
    exact h.emit

theorem Inv.init (route : Route P) (request : Request) : (init route request).Inv :=
  ⟨⟨rfl, rfl, rfl⟩, rfl⟩

/-- **Which requests are logged once**: a request that has been answered is logged in one entity
with the status code of its reply just when no guard has rejected it and the first event after the
guards comes after the reply, or before one with the status code of the handler. -/
theorem logged_once_iff (A : Adapter) {route : Route P} {request : Request}
    {events : List (Event P)} {exit : Exit}
    (h : Run.exec (step A) (HttpExchange.init route request) events = some x)
    (hreplied : x.stage = .replied exit) :
    x.LoggedOnce ↔ exit ≠ .guard ∧ ∃ m, x.heard = some m ∧
      (m = .replied ∨ x.statusCode = x.route.httpCode) := by
  have hinv : x.Inv := Run.invariant Inv.step h (Inv.init route request)
  have hmeets := hinv.meets hreplied
  have hrecorded (hrec : x.Recorded) : x.LoggedOnce ↔
      ∃ m, x.heard = some m ∧ (m = .replied ∨ x.statusCode = x.route.httpCode) := by
    cases hrec with
    | unheard hnone _ hempty => simp [LoggedOnce, hnone, hempty]
    | early hearly _ hinserted hstatus => simp [LoggedOnce, hearly, hinserted, hstatus, eq_comm]
    | late hlate _ _ hlogged => simp [hlate, hlogged]
  cases exit with
  | guard =>
    have hq : x.Silent := hmeets
    simp [LoggedOnce, hq.inserted]
  | pipe | handler | answered => simp [hrecorded hmeets.2]

/-- Express 5, with the beginning of its message. -/
def sampleAdapter : Adapter where
  toExpress := express
  statusError _ := {
    message := "Invalid status code"
    stack := some "RangeError: Invalid status code"
    response := .undefined
    status := .undefined
    getStatus := none
    getResponse := none }
  statusError_response _ := rfl

/-- A request without a token. -/
def sampleRequest (path : String) : Request where
  method := "POST"
  url := some path
  originalUrl := some path
  headers := []
  params := none
  query := none
  body := some (.obj [])
  file := none
  files := .missing
  ip := some "::1"
  remoteAddress := none
  userId := none
  apiLogErrorStack := none

/-- A request that the guard rejects is answered and not logged, whatever its response emits. -/
theorem rejected_not_logged : ∃ x : HttpExchange symbolic,
    Run.exec (step sampleAdapter)
      (init UserController.adminCreate (sampleRequest "/api/v1/user/admin/create"))
      [.guard ⟨none, none⟩, .emit .finish 1, .emit .close 2] = some x ∧
    x.stage = .replied .guard ∧ x.statusCode = 401 ∧ x.emitted = [.replied, .replied] ∧
    x.inserted = [] ∧ ¬x.LoggedOnce := by
  refine ⟨_, rfl, ?_, ?_, ?_, ?_, ?_⟩
  · rfl
  · rfl
  · rfl
  · rfl
  · rintro ⟨entity, h, _⟩
    cases h

/-- The answer of the pipes to a body without fields. -/
def invalidBody : JsError where
  message := "Bad Request Exception"
  stack := some "BadRequestException: Bad Request Exception"
  response := .obj [("message", .str "아이디를 입력해주세요.")]
  status := .num 400
  getStatus := some (.num 400)
  getResponse := some (.obj [("message", .str "아이디를 입력해주세요.")])

theorem logged_once_iff_sample : ∃ x : HttpExchange symbolic,
    Run.exec (step sampleAdapter)
      (init UserController.signIn (sampleRequest "/api/v1/user/sign-in"))
      [.intercept 0, .pipe (.error invalidBody), .emit .finish 1, .emit .close 2] = some x ∧
    x.stage = .replied .pipe ∧ x.statusCode = 400 ∧ x.LoggedOnce := by
  have hrun : ∃ x : HttpExchange symbolic,
      Run.exec (step sampleAdapter)
        (init UserController.signIn (sampleRequest "/api/v1/user/sign-in"))
        [.intercept 0, .pipe (.error invalidBody), .emit .finish 1, .emit .close 2] = some x ∧
      x.stage = .replied .pipe ∧ x.statusCode = 400 ∧ x.heard = some .replied := by
    refine ⟨_, rfl, ?_, ?_, ?_⟩
    · rfl
    · rfl
    · rfl
  obtain ⟨x, h, hstage, hstatus, hheard⟩ := hrun
  refine ⟨x, h, hstage, hstatus, (logged_once_iff sampleAdapter h hstage).mpr ?_⟩
  exact ⟨by decide, _, hheard, .inl rfl⟩

end HttpExchange

end NestHarness
