import NestHarness.Http.Exchange
import NestHarness.Lib.Js

/-!
# Errors and the global filter

An `Error` as the application reads it, what it relies on of the exceptions and answers of Nest, and
`CustomErrorFilter` on any error.
-/

namespace NestHarness

open Js (Value)

/-- An `Error`. A missing property is `undefined`; of a method the result is kept, `none` when the
error has no such method. -/
structure JsError where
  message : String
  stack : Option String
  response : Value
  status : Value
  getStatus : Option Value
  getResponse : Option Value

/-- What the application relies on of Nest: the message that an `HttpException` takes from the name
of its class when its response has none, and the body of the answer for the JSON of a result, `none`
for `undefined`. -/
structure Nest where
  classMessage : String → String
  reply : Option Json → SentBody
  classMessage_plain : ∀ name, includes (classMessage name) "request entity too large" = false
  /-- `undefined` and `null` are answered alike. -/
  reply_nil : reply none = reply (some .null)

namespace Nest

variable (N : Nest)

/-- `initMessage`: the response if it is a string, its message, or a text from the name of the
class. -/
def exceptionMessage (name : String) (response : Value) : String :=
  match response.textOf with
  | some s => s
  | none => (response.get "message").textOf.getD (N.classMessage name)

/-- `new HttpException(response, status)`, or of the class `name` that extends it; `frames` are the
lines of its stack. -/
def httpException (name : String) (response status : Value) (frames : String) : JsError where
  message := N.exceptionMessage name response
  stack := some ("Error" ++ frames)
  response
  status
  getStatus := some status
  getResponse := some response

end Nest

/-- What the client receives. -/
structure Reply where
  status : Value
  body : SentBody

/-- `res.send` of a value. -/
def sent : Value → SentBody
  | .undefined | .function => .undefined
  | .null => .null
  | .str s => .text s
  | v => match v.toJson with
    | some j => .json j
    | none => .undefined

namespace CustomErrorFilter

def dataTooLarge : Reply :=
  ⟨.num 413, .json (.obj [("code", .str "DATA_TO_LARGE"),
    ("message", .str "한 요청당 제한된 크기를 초과하였습니다. [최대 15Mb]")])⟩

def requestFailed : Reply :=
  ⟨.num 500, .json (.obj [("message", .str "요청이 실패했습니다. 관리자에게 문의해주세요.")])⟩

/-- The request with the stack trace of an unhandled exception. -/
def attachStack (exception : JsError) (request : Request) : Request :=
  if exception.stack.any (· ≠ "") ∧ !exception.response.truthy then
    { request with apiLogErrorStack := exception.stack }
  else request

/-- The answer of `CustomErrorFilter.catch`. -/
def reply (exception : JsError) : Reply :=
  if includes exception.message "request entity too large" then dataTooLarge
  else if exception.response.truthy then ⟨exception.status, sent exception.response⟩
  else requestFailed

end CustomErrorFilter

def CustomErrorFilter.catch (exception : JsError) (request : Request) : Request × Reply :=
  (attachStack exception request, reply exception)

/-- The answer is one to the response and the status, but for a response that tells of a large
request. -/
theorem Nest.reply_httpException (N : Nest) (name name' : String) (response status : Value)
    (frames frames' : String) :
    CustomErrorFilter.reply (N.httpException name response status frames) =
      CustomErrorFilter.reply (N.httpException name' response status frames') := by
  have hmessage : includes (N.exceptionMessage name response) "request entity too large" =
      includes (N.exceptionMessage name' response) "request entity too large" := by
    unfold Nest.exceptionMessage
    cases response.textOf with
    | some s => rfl
    | none =>
      cases (response.get "message").textOf with
      | some s => rfl
      | none => exact (N.classMessage_plain name).trans (N.classMessage_plain name').symm
  unfold CustomErrorFilter.reply Nest.httpException
  cases h : includes (N.exceptionMessage name' response) "request entity too large" with
  | true => simp [hmessage, h]
  | false => simp [hmessage, h]

/-- The exceptions of the services. -/
def Nest.error (N : Nest) (frames : String) : Exn → JsError
  | .http status response =>
    N.httpException "HttpException" (.ofJson response.toJson) (.num status) frames
  | .error message => ⟨message, some frames, .undefined, .undefined, none, none⟩

/-- For the exceptions of the services the filter is `customErrorFilter`. -/
theorem Nest.reply_error (N : Nest) (frames : String) (e : Exn) :
    CustomErrorFilter.reply (N.error frames e) =
      ⟨.num (customErrorFilter e).statusCode, (customErrorFilter e).body⟩ := by
  cases e with
  | http status response =>
    have hmessage : N.exceptionMessage "HttpException" (.ofJson response.toJson) =
        response.message := by
      simp [Nest.exceptionMessage, Value.textOf, ErrorBody.toJson, Value.ofJson, Value.fieldsOfJson,
        Value.get]
    have hsent : sent (.ofJson response.toJson) = .json response.toJson := by
      have hjson := Value.toJson_ofJson response.toJson
      rw [ErrorBody.toJson, Value.ofJson] at hjson ⊢
      simp [sent, hjson]
    have htruthy : (Value.ofJson response.toJson).truthy = true := rfl
    cases h : includes response.message "request entity too large" with
    | true =>
      simp [CustomErrorFilter.reply, CustomErrorFilter.dataTooLarge, Nest.error, Nest.httpException,
        customErrorFilter, Exn.message, hmessage, h]
    | false =>
      simp [CustomErrorFilter.reply, Nest.error, Nest.httpException, customErrorFilter,
        Exn.message, hmessage, hsent, htruthy, h]
  | error message =>
    cases h : includes message "request entity too large" with
    | true =>
      simp [CustomErrorFilter.reply, CustomErrorFilter.dataTooLarge, Nest.error, customErrorFilter,
        Exn.message, h]
    | false =>
      simp [CustomErrorFilter.reply, CustomErrorFilter.requestFailed, Nest.error,
        customErrorFilter, Exn.message, Value.truthy, h]

end NestHarness
