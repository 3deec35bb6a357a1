import NestHarness.ApiLog.Interceptor
import NestHarness.Http.ErrorFilter
import NestHarness.Queue.Dispatch
import NestHarness.Queue.Processing

/-!
# Outcomes of queued and of direct calls

What the client and the log get of a call of a decorated method, through
`WriteQueueRegistry.dispatch` and in the fallback that calls the method directly.
-/

namespace NestHarness

open Js (Value)

/-- A method: what it returns or throws for its arguments. -/
abbrev OriginalFn := List Value → Except JsError Value

/-- The message of an error that `dispatch` catches: the text of a JSON value, or another text. -/
inductive ErrorText where
  | json (value : Json)
  | text (s : String)

namespace WriteQueueRegistry

/-- `value ?? fallback`, where `value` is the result of an optional method. -/
def coalesce (value : Option Value) (fallback : Value) : Value :=
  match value with
  | some v => if v.nullish then fallback else v
  | none => fallback

/-- The object in the message of the error that the worker throws for an error of the method. -/
def encode (e : JsError) : Value :=
  let status := coalesce e.getStatus (.num 500)
  let response := coalesce e.getResponse (.obj [("message", .str e.message)])
  .obj [("status", status), ("response", response)]

/-- What `dispatch` throws for an error with the given message. -/
def decode (N : Nest) (frames : String) : ErrorText → JsError
  | .json .null =>
    -- reading a property of `null` throws
    N.httpException "HttpException" (.obj [("message", .str "null")]) (.num 500) frames
  | .json value =>
    let parsed := Value.ofJson value
    N.httpException "HttpException" (parsed.get "response") (parsed.get "status") frames
  | .text message =>
    N.httpException "HttpException" (.obj [("message", .str message)]) (.num 500) frames

/-- `dispatch`: the arguments, the result and the error of the worker go through JSON. -/
def dispatch (N : Nest) (frames : String) (originalFn : OriginalFn) (args : List Value) :
    Except JsError Value :=
  match originalFn (args.map (·.normalize)) with
  | .ok value => .ok value.normalize
  | .error e =>
    match (encode e).toJson with
    | some failedReason => .error (decode N frames (.json failedReason))
    | none => .error (decode N frames (.text "undefined"))

end WriteQueueRegistry

open WriteQueueRegistry

/-- A call of a decorated method. -/
def callDecorated (N : Nest) (frames : String) (processing registry : Bool)
    (originalFn : OriginalFn) (args : List Value) : Except JsError Value :=
  match useQueue processing registry with
  | .direct => originalFn args
  | .dispatch => dispatch N frames originalFn args

/-- The request and the answer after the handler, which answers with the given status code. -/
def Nest.respond (N : Nest) (httpCode : Nat) (req : Request) :
    Except JsError Value → Request × Reply
  | .ok value => (req, ⟨.num httpCode, N.reply value.toJson⟩)
  | .error e => CustomErrorFilter.catch e req

/-! ## What the decoder makes of the encoded error -/

variable {N : Nest} {frames : String} {e : JsError}

/-- The value a field of an object comes out of JSON with. -/
def throughJson (v : Value) : Value :=
  match v.toJson with
  | some j => .ofJson j
  | none => .undefined

theorem throughJson_ofJson (j : Json) : throughJson (.ofJson j) = .ofJson j := by
  simp [throughJson]

@[simp] theorem throughJson_num (q : Rat) : throughJson (.num q) = .num q := rfl

@[simp] theorem throughJson_str (s : String) : throughJson (.str s) = .str s := rfl

theorem coalesce_some {v : Value} (h : v.nullish = false) (fallback : Value) :
    coalesce (some v) fallback = v := by
  simp [coalesce, h]

@[simp] theorem coalesce_num (q : Rat) (fallback : Value) :
    coalesce (some (.num q)) fallback = .num q := rfl

theorem decode_encode (N : Nest) (frames : String) (status response : Value) :
    ((Value.obj [("status", status), ("response", response)]).toJson.map
        fun j => decode N frames (.json j)) =
      some (N.httpException "HttpException" (throughJson response) (throughJson status)
        frames) := by
  have hresponse : ∀ fs : List (String × Json), fs = ((status.toJson).map ("status", ·)).toList ++
      ((response.toJson).map ("response", ·)).toList →
      (Value.ofJson (.obj fs)).get "response" = throughJson response ∧
        (Value.ofJson (.obj fs)).get "status" = throughJson status := by
    rintro _ rfl
    cases hs : status.toJson <;> cases hr : response.toJson <;>
      simp [throughJson, hs, hr, Value.ofJson, Value.fieldsOfJson, Value.get, List.lookup_cons]
  obtain ⟨hr, hs⟩ := hresponse _ rfl
  simp only [Value.toJson, Value.fieldsToJson, List.append_nil, Option.map_some, decode, hr, hs]

theorem dispatch_error {originalFn : OriginalFn} {args : List Value}
    (h : originalFn (args.map (·.normalize)) = .error e) :
    dispatch N frames originalFn args = .error (N.httpException "HttpException"
      (throughJson (coalesce e.getResponse (.obj [("message", .str e.message)])))
      (throughJson (coalesce e.getStatus (.num 500))) frames) := by
  have hdecode := decode_encode N frames (coalesce e.getStatus (.num 500))
    (coalesce e.getResponse (.obj [("message", .str e.message)]))
  obtain ⟨j, hj, heq⟩ := Option.map_eq_some_iff.mp hdecode
  have hencode : (encode e).toJson = some j := hj
  simp only [dispatch, h, hencode, heq]

/-- For the exceptions of the services the way through the queue is `dispatched`. -/
theorem dispatch_dispatched {originalFn : OriginalFn} {args : List Value} {exn : Exn}
    (h : originalFn (args.map (·.normalize)) = .error (N.error frames exn)) :
    dispatch N frames originalFn args =
      .error (N.error frames (.http (serialize exn).1 (serialize exn).2)) := by
  rw [dispatch_error h]
  cases exn with
  | http status response =>
    have hresponse : ∀ fallback, coalesce (some (Value.ofJson response.toJson)) fallback =
        .ofJson response.toJson := coalesce_some rfl
    simp [Nest.error, Nest.httpException, hresponse, throughJson_ofJson, serialize]
  | error message =>
    simp [Nest.error, coalesce, serialize, throughJson, Value.toJson, Value.fieldsToJson,
      Value.ofJson, Value.fieldsOfJson, ErrorBody.toJson]

/-! ## Queued and direct calls answer alike -/

/-- An `HttpException` of any class with any status, whose response is a string or a JSON object. -/
def Nest.Throws (N : Nest) (e : JsError) : Prop :=
  ∃ name response status frames, e = N.httpException name (.ofJson response) (.num status) frames ∧
    ((∃ s, response = .str s) ∨ ∃ fields, response = .obj fields)

theorem dispatch_httpException (frames : String) {originalFn : OriginalFn} {args : List Value}
    (he : N.Throws e) (h : originalFn (args.map (·.normalize)) = .error e) :
    ∃ name response status frames', e = N.httpException name response status frames' ∧
      dispatch N frames originalFn args =
        .error (N.httpException "HttpException" response status frames) := by
  obtain ⟨name, response, status, frames', rfl, hresponse⟩ := he
  refine ⟨name, .ofJson response, .num status, frames', rfl, ?_⟩
  have hnullish : (Value.ofJson response).nullish = false := by
    rcases hresponse with ⟨s, rfl⟩ | ⟨fields, rfl⟩ <;> rfl
  rw [dispatch_error h]
  simp only [Nest.httpException, coalesce_some hnullish, coalesce_num, throughJson_ofJson,
    throughJson_num]

theorem map_normalize {args : List Value} (hargs : ∀ v ∈ args, v.Representable) :
    args.map (·.normalize) = args := by
  conv_rhs => rw [← List.map_id args]
  exact List.map_congr_left fun v hv => (hargs v hv).normalize

theorem Nest.reply_normalize (N : Nest) (value : Value) :
    N.reply value.normalize.toJson = N.reply value.toJson := by
  rw [Value.toJson_normalize]
  cases value.toJson with
  | none => exact N.reply_nil.symm
  | some j => rfl

/-- Texts are answered as they are and other values as JSON; the message of a class is that of
`HttpException`. -/
def sampleNest : Nest where
  classMessage _ := "Http Exception"
  reply
    | none | some .null => .undefined
    | some (.str s) => .text s
    | some j => .json j
  classMessage_plain _ := by decide +kernel
  reply_nil := rfl

def sampleRequest : Request where
  method := "POST"
  url := some "/api/v1/user/sign-in"
  originalUrl := some "/api/v1/user/sign-in"
  headers := []
  params := none
  query := none
  body := some (.obj [("login_id", .str "admin")])
  file := none
  files := .missing
  ip := some "10.0.0.1"
  remoteAddress := none
  userId := none
  apiLogErrorStack := none

/-- A method that refuses the login id `taken` and returns a date for any other. -/
def register : OriginalFn
  | [.str "taken"] => .error (sampleNest.httpException "BadRequestException"
      (.ofJson (.obj [("message", .str "이미 사용 중인 로그인 ID입니다.")])) (.num (400 : Nat)) "")
  | _ => .ok (.obj [("create_at", .date (some "2024-02-29T00:00:00.000Z")), ("note", .undefined)])

/-- The client gets the generic body, and the log row of the request has a stack. -/
def Internal (x : Request × Reply) : Prop :=
  x.2 = CustomErrorFilter.requestFailed ∧ ∀ res startTime routePath now,
    (ApiLogInterceptor.buildLogEntity x.1 res startTime routePath now).errorStack.isSome = true

/-- A direct call: the error has a stack and no response, and its message does not speak of a large
request. A call through the queue: the error has a method `getResponse`, whose result is falsy in
JSON but neither `undefined` nor `null`. -/
def StaysInternal (registry : Bool) (e : JsError) : Prop :=
  if registry then
    ∃ response, e.getResponse = some response ∧ response.nullish = false ∧
      response.normalize.truthy = false
  else
    includes e.message "request entity too large" = false ∧ e.response.truthy = false ∧
      e.stack.any (· ≠ "") = true

theorem internal_catch_iff {req : Request} (hreq : req.apiLogErrorStack = none) :
    Internal (CustomErrorFilter.catch e req) ↔
      CustomErrorFilter.reply e = CustomErrorFilter.requestFailed ∧ e.response.truthy = false ∧
        e.stack.any (· ≠ "") = true := by
  have hstack : (CustomErrorFilter.attachStack e req).apiLogErrorStack.isSome = true ↔
      e.response.truthy = false ∧ e.stack.any (· ≠ "") = true := by
    unfold CustomErrorFilter.attachStack
    split
    · next h =>
      obtain ⟨s, hs, _⟩ := (Option.any_eq_true _ _).mp h.1
      simp only [Bool.not_eq_eq_eq_not, Bool.not_true] at h
      exact iff_of_true (by simp [hs]) h.symm
    · next h =>
      rw [hreq]
      refine iff_of_false nofun ?_
      rintro ⟨hresponse, hany⟩
      exact h ⟨hany, by simp [hresponse]⟩
  exact and_congr_right fun _ => ⟨fun h => hstack.mp (h ⟨0, .undefined⟩ 0 none 0),
    fun h _ _ _ _ => hstack.mpr h⟩

theorem reply_falsy (h : e.response.truthy = false) :
    CustomErrorFilter.reply e = CustomErrorFilter.requestFailed ↔
      includes e.message "request entity too large" = false := by
  unfold CustomErrorFilter.reply
  cases includes e.message "request entity too large" with
  | true => simp [CustomErrorFilter.dataTooLarge, CustomErrorFilter.requestFailed]
  | false => simp [h]

theorem internal_direct_iff {req : Request} (hreq : req.apiLogErrorStack = none) :
    Internal (CustomErrorFilter.catch e req) ↔ StaysInternal false e := by
  rw [internal_catch_iff hreq, StaysInternal, if_neg nofun]
  constructor
  · rintro ⟨hreply, hresponse, hstack⟩
    exact ⟨(reply_falsy hresponse).mp hreply, hresponse, hstack⟩
  · rintro ⟨hmessage, hresponse, hstack⟩
    exact ⟨(reply_falsy hresponse).mpr hmessage, hresponse, hstack⟩

/-- An `HttpException` with a falsy response has a harmless message. -/
theorem Nest.falsy_message (N : Nest) {name : String} : ∀ response : Value,
    response.truthy = false →
    includes (N.exceptionMessage name response) "request entity too large" = false
  | .str s, h => by
    have hs : s = "" := by simpa [Value.truthy] using h
    rw [hs]
    exact (by decide +kernel : includes "" "request entity too large" = false)
  | .lone v, h => N.falsy_message v h
  | .undefined, _ | .null, _ | .bool _, _ | .num _, _ | .nan, _ => N.classMessage_plain name

theorem truthy_throughJson (v : Value) : (throughJson v).truthy = v.normalize.truthy := by
  unfold throughJson Value.normalize
  cases v.toJson <;> rfl

/-- The response that the encoded error of a method has in `dispatch`. -/
theorem falsy_iff :
    (throughJson (coalesce e.getResponse (.obj [("message", .str e.message)]))).truthy = false ↔
      StaysInternal true e := by
  rw [StaysInternal, if_pos rfl, truthy_throughJson]
  have hmessage : (Value.normalize (.obj [("message", .str e.message)])).truthy = true := rfl
  cases hr : e.getResponse with
  | none => simp [coalesce, hmessage]
  | some response =>
    cases hn : response.nullish with
    | true => simp [coalesce, hn, hmessage]
    | false => simp [coalesce, hn]

theorem internal_queued_iff {originalFn : OriginalFn} {args : List Value} {req : Request}
    (hreq : req.apiLogErrorStack = none) (h : originalFn (args.map (·.normalize)) = .error e)
    (httpCode : Nat) :
    Internal (N.respond httpCode req (dispatch N frames originalFn args)) ↔
      StaysInternal true e := by
  rw [dispatch_error h, Nest.respond, internal_catch_iff hreq, ← falsy_iff]
  constructor
  · rintro ⟨_, hresponse, _⟩
    exact hresponse
  · intro hresponse
    have hstack : ("Error" ++ frames) ≠ "" := by simp
    refine ⟨?_, hresponse, by simp [Nest.httpException, hstack]⟩
    exact (reply_falsy hresponse).mpr (N.falsy_message _ hresponse)

/-- What a method gets of its arguments. -/
def received (registry : Bool) (args : List Value) : List Value :=
  if registry then args.map (·.normalize) else args

/-- An error of a method stays internal in a direct call if it is a plain one, and through the queue
only if it has an odd `getResponse`. -/
theorem internal_iff (N : Nest) (frames : String) (registry : Bool) (originalFn : OriginalFn)
    (args : List Value) (e : JsError) (httpCode : Nat) (req : Request)
    (hreq : req.apiLogErrorStack = none) (h : originalFn (received registry args) = .error e) :
    Internal (N.respond httpCode req (callDecorated N frames false registry originalFn args)) ↔
      StaysInternal registry e := by
  cases registry with
  | true => exact internal_queued_iff hreq h httpCode
  | false =>
    have hcall : callDecorated N frames false false originalFn args = .error e := h
    rw [hcall]
    exact internal_direct_iff hreq

/-- The error of a driver that has lost its database. -/
def connectionRefused : JsError :=
  ⟨"connect ECONNREFUSED 10.0.0.5:3306", some "Error: connect ECONNREFUSED 10.0.0.5:3306",
    .undefined, .undefined, none, none⟩

theorem internal_iff_sample :
    Internal (sampleNest.respond 200 sampleRequest
      (callDecorated sampleNest "" false false (fun _ => .error connectionRefused) [])) :=
  (internal_iff sampleNest "" false (fun _ => .error connectionRefused) [] connectionRefused 200
    sampleRequest rfl rfl).mpr ⟨by decide +kernel, rfl, rfl⟩

/-- Through the queue the client reads the driver's message, and no stack is logged. -/
theorem message_leaks :
    (sampleNest.respond 200 sampleRequest
        (callDecorated sampleNest "" false true (fun _ => .error connectionRefused) [])).2 =
      ⟨.num 500, .json (.obj [("message", .str "connect ECONNREFUSED 10.0.0.5:3306")])⟩ ∧
    (sampleNest.respond 200 sampleRequest
        (callDecorated sampleNest "" false true (fun _ => .error connectionRefused) [])).1 =
      sampleRequest ∧
    ¬Internal (sampleNest.respond 200 sampleRequest
      (callDecorated sampleNest "" false true (fun _ => .error connectionRefused) [])) := by
  have hcall : callDecorated sampleNest "" false true (fun _ => .error connectionRefused) [] =
      .error (sampleNest.httpException "HttpException"
        (.obj [("message", .str "connect ECONNREFUSED 10.0.0.5:3306")]) (.num 500) "") := rfl
  have hreply : CustomErrorFilter.reply (sampleNest.httpException "HttpException"
        (.obj [("message", .str "connect ECONNREFUSED 10.0.0.5:3306")]) (.num 500) "") =
      ⟨.num 500, .json (.obj [("message", .str "connect ECONNREFUSED 10.0.0.5:3306")])⟩ := by
    have hmessage : includes "connect ECONNREFUSED 10.0.0.5:3306" "request entity too large" =
        false := by decide +kernel
    simp [CustomErrorFilter.reply, Nest.httpException, Nest.exceptionMessage, Value.textOf,
      Value.get, hmessage, Value.truthy, sent, Value.toJson, Value.fieldsToJson]
  rw [hcall]
  refine ⟨hreply, rfl, ?_⟩
  rw [Nest.respond, internal_catch_iff rfl]
  rintro ⟨_, hresponse, _⟩
  cases hresponse

end NestHarness
