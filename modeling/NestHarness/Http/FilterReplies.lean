import NestHarness.Http.ErrorFilter

/-!
# The answers of the global filter

`CustomErrorFilter` tells an `HttpException` from other errors by the properties of the error, and a
large request by a part of the message. It is faithful to the errors whose properties are as those
of their class.
-/

namespace NestHarness

open Js (Value)

/-- What the filter relies on of Express: `res.status` throws for anything but an integer from 100
to 999. -/
structure Express where
  acceptsStatus : Value → Bool
  acceptsStatus_iff : ∀ v, acceptsStatus v = true ↔ ∃ n : ℕ, v = .num n ∧ 100 ≤ n ∧ n ≤ 999

/-- An `Error` that reaches the filter, but for that of body-parser for a large request. -/
structure Thrown where
  error : JsError
  isHttpException : Bool
  stack : String
  stack_eq : error.stack = some stack
  /-- `JSON.stringify` takes the response: it does not refer to itself. -/
  serializable : Bool

namespace Thrown

variable (t : Thrown)

/-- An `HttpException` with a response. -/
def answersItself : Bool := t.isHttpException && t.error.response.truthy

/-- The answer of such an exception. -/
def ownReply : Reply := ⟨t.error.status, sent t.error.response⟩

/-- The message is one of a large request. -/
def namesLargeRequest : Bool := includes t.error.message "request entity too large"

end Thrown

namespace CustomErrorFilter

/-- The response that `catch` sends, `none` if `res.status` or `res.send` throws. -/
def respond (E : Express) (t : Thrown) : Option Reply :=
  let answer := reply t.error
  if E.acceptsStatus answer.status then
    if !t.namesLargeRequest && t.error.response.truthy && !t.serializable then none
    else some answer
  else none

end CustomErrorFilter

def ErrorStatus (status : Value) : Prop := ∃ n : ℕ, status = .num n ∧ 400 ≤ n ∧ n ≤ 599

/-- A response is sent, and it and the stack trace for the log are those of the class of the
error. -/
structure Faithful (E : Express) (t : Thrown) (request : Request) (answer : Reply) : Prop where
  sends : CustomErrorFilter.respond E t = some answer
  status : ErrorStatus answer.status
  own : t.answersItself = true → answer = t.ownReply
  failed : t.answersItself = false → answer = CustomErrorFilter.requestFailed ∧
    (CustomErrorFilter.catch t.error request).1.apiLogErrorStack = some t.stack

/-- The properties of an error are as those of its class. -/
structure Thrown.Plain (t : Thrown) : Prop where
  own : t.answersItself = true → ErrorStatus t.error.status ∧
    if t.namesLargeRequest then t.ownReply = CustomErrorFilter.dataTooLarge
    else t.serializable = true
  failed : t.answersItself = false →
    t.namesLargeRequest = false ∧ t.error.response.truthy = false ∧ t.stack ≠ ""

variable {E : Express} {t : Thrown} {request : Request} {answer : Reply}

theorem ErrorStatus.accepted {status : Value} (h : ErrorStatus status) :
    E.acceptsStatus status = true := by
  obtain ⟨n, rfl, hlow, hhigh⟩ := h
  exact (E.acceptsStatus_iff _).mpr ⟨n, rfl, by omega, by omega⟩

theorem errorStatus_dataTooLarge : ErrorStatus CustomErrorFilter.dataTooLarge.status :=
  ⟨413, rfl, by decide, by decide⟩

theorem errorStatus_requestFailed : ErrorStatus CustomErrorFilter.requestFailed.status :=
  ⟨500, rfl, by decide, by decide⟩

namespace CustomErrorFilter

theorem reply_of_large (h : t.namesLargeRequest = true) : reply t.error = dataTooLarge :=
  if_pos h

theorem reply_of_response (h : t.namesLargeRequest = false)
    (hresponse : t.error.response.truthy = true) : reply t.error = t.ownReply :=
  (if_neg (Bool.not_eq_true _ ▸ h)).trans (if_pos hresponse)

theorem reply_of_failed (h : t.namesLargeRequest = false)
    (hresponse : t.error.response.truthy = false) : reply t.error = requestFailed :=
  (if_neg (Bool.not_eq_true _ ▸ h)).trans (if_neg (Bool.not_eq_true _ ▸ hresponse))

/-- What is sent is the answer. -/
theorem reply_of_respond (h : respond E t = some answer) : answer = reply t.error := by
  unfold respond at h
  dsimp only at h
  split at h
  · split at h
    · cases h
    · exact (Option.some.inj h).symm
  · cases h

theorem respond_eq (hstatus : ErrorStatus (reply t.error).status)
    (h : t.namesLargeRequest = true ∨ t.error.response.truthy = false ∨ t.serializable = true) :
    respond E t = some (reply t.error) := by
  unfold respond
  dsimp only
  rw [if_pos hstatus.accepted, if_neg]
  rcases h with h | h | h <;> simp [h]

/-- The stack trace is attached to an error without a response. -/
theorem attachStack_eq (request : Request) (hstack : t.stack ≠ "")
    (hresponse : t.error.response.truthy = false) :
    (attachStack t.error request).apiLogErrorStack = some t.stack := by
  unfold attachStack
  rw [if_pos]
  · exact t.stack_eq
  · rw [t.stack_eq, hresponse]
    simp [hstack]

/-- It is attached to no other error. -/
theorem of_attachStack (hrequest : request.apiLogErrorStack = none)
    (h : (attachStack t.error request).apiLogErrorStack = some t.stack) :
    t.error.response.truthy = false ∧ t.stack ≠ "" := by
  unfold attachStack at h
  split at h
  · next hif =>
    rw [t.stack_eq] at hif
    simpa [and_comm] using hif
  · rw [hrequest] at h
    cases h

end CustomErrorFilter

open CustomErrorFilter

theorem Faithful.plain (h : Faithful E t request answer)
    (hrequest : request.apiLogErrorStack = none) :
    t.Plain := by
  have hreply := reply_of_respond h.sends
  refine ⟨?_, ?_⟩
  · intro hself
    have hown := h.own hself
    have hstatus := h.status
    rw [hown] at hstatus
    refine ⟨hstatus, ?_⟩
    split
    · next hlarge => rw [← hown, hreply, reply_of_large hlarge]
    · next hlarge =>
      have hresponse : t.error.response.truthy = true := (Bool.and_eq_true_iff.mp hself).2
      by_contra hserializable
      have hsends := h.sends
      unfold respond at hsends
      dsimp only at hsends
      simp [hlarge, hresponse, hserializable] at hsends
  · intro hself
    obtain ⟨hfailed, hstack⟩ := h.failed hself
    have hattached := of_attachStack hrequest hstack
    refine ⟨?_, hattached⟩
    by_contra hlarge
    rw [Bool.not_eq_false] at hlarge
    rw [hfailed, reply_of_large hlarge] at hreply
    have hstatus : (500 : Rat) = 413 := Value.num.inj (congrArg Reply.status hreply)
    exact absurd hstatus (by decide)

theorem Thrown.Plain.faithful (h : t.Plain) (request : Request) :
    ∃ answer, Faithful E t request answer := by
  cases hself : t.answersItself with
  | true =>
    obtain ⟨hstatus, hrest⟩ := h.own hself
    have hresponse : t.error.response.truthy = true := (Bool.and_eq_true_iff.mp hself).2
    cases hlarge : t.namesLargeRequest with
    | true =>
      rw [hlarge, if_pos rfl] at hrest
      have hreply := reply_of_large hlarge
      refine ⟨reply t.error, respond_eq ?_ (.inl hlarge), ?_, ?_, ?_⟩
      · rw [hreply]
        exact errorStatus_dataTooLarge
      · rw [hreply]
        exact errorStatus_dataTooLarge
      · exact fun _ => hreply.trans hrest.symm
      · intro hself'
        rw [hself] at hself'
        cases hself'
    | false =>
      rw [hlarge, if_neg Bool.false_ne_true] at hrest
      have hreply := reply_of_response hlarge hresponse
      refine ⟨reply t.error, respond_eq ?_ (.inr (.inr hrest)), ?_, fun _ => hreply, ?_⟩
      · rw [hreply]
        exact hstatus
      · rw [hreply]
        exact hstatus
      · intro hself'
        rw [hself] at hself'
        cases hself'
  | false =>
    obtain ⟨hlarge, hresponse, hstack⟩ := h.failed hself
    have hreply := reply_of_failed hlarge hresponse
    refine ⟨reply t.error, respond_eq ?_ (.inr (.inl hresponse)), ?_, ?_, ?_⟩
    · rw [hreply]
      exact errorStatus_requestFailed
    · rw [hreply]
      exact errorStatus_requestFailed
    · intro hself'
      rw [hself] at hself'
      cases hself'
    · exact fun _ => ⟨hreply, attachStack_eq request hstack hresponse⟩

def blankRequest : Request where
  method := ""
  url := none
  originalUrl := none
  headers := []
  params := none
  query := none
  body := none
  file := none
  files := .missing
  ip := none
  remoteAddress := none
  userId := none
  apiLogErrorStack := none

/-- The filter is faithful to an error, whatever the request, if the properties of the error are as
those of its class. -/
theorem faithful_iff (E : Express) (t : Thrown) :
    (∀ request, ∃ answer, Faithful E t request answer) ↔ t.Plain := by
  constructor
  · intro h
    obtain ⟨answer, hfaithful⟩ := h blankRequest
    exact hfaithful.plain rfl
  · exact fun h request => h.faithful request

/-- `res.status` of Express 5. -/
def express : Express where
  acceptsStatus
    | .num q => decide (q.den = 1 ∧ 100 ≤ q.num ∧ q.num ≤ 999)
    | _ => false
  acceptsStatus_iff v := by
    cases v with
    | num q =>
      rw [decide_eq_true_eq]
      constructor
      · rintro ⟨hden, hlow, hhigh⟩
        refine ⟨q.num.toNat, congrArg Value.num (Rat.ext ?_ ?_), by omega, by omega⟩
        · rw [Rat.num_natCast]
          omega
        · rw [Rat.den_natCast]
          exact hden
      · rintro ⟨n, h, hlow, hhigh⟩
        rw [Value.num.inj h, Rat.num_natCast, Rat.den_natCast]
        omega
    | _ =>
      refine iff_of_false Bool.false_ne_true ?_
      rintro ⟨n, h, -⟩
      cases h

/-- The error of an HTTP client, with the response of the other server. -/
def clientError : Thrown where
  error := {
    message := "Request failed with status code 503"
    stack := some "AxiosError: Request failed with status code 503"
    response := .obj [("status", .num 503)]
    status := .num 503
    getStatus := none
    getResponse := none }
  isHttpException := false
  stack := "AxiosError: Request failed with status code 503"
  stack_eq := rfl
  serializable := true

/-- It is answered by that response, and its stack trace is not logged. -/
theorem not_faithful_clientError :
    ¬∀ request, ∃ answer, Faithful express clientError request answer := by
  intro h
  obtain ⟨answer, hfaithful⟩ := h blankRequest
  have hresponse := ((hfaithful.plain rfl).failed rfl).2.1
  cases hresponse

/-! ## The exceptions of the services -/

/-- An exception of the services as it reaches the filter. -/
def Nest.thrown (N : Nest) (frames : String) : Exn → Thrown
  | .http status body =>
    { error := N.error frames (.http status body)
      isHttpException := true
      stack := "Error" ++ frames
      stack_eq := rfl
      serializable := true }
  | .error message =>
    { error := N.error frames (.error message)
      isHttpException := false
      stack := frames
      stack_eq := rfl
      serializable := true }

/-- Theirs is the message of their body, which no service makes one of a large request. -/
theorem Nest.plain_thrown (N : Nest) {frames : String} {e : Exn} (hframes : frames ≠ "")
    (hstatus : ∀ status body, e = .http status body → 400 ≤ status ∧ status ≤ 599)
    (hmessage : includes e.message "request entity too large" = false) :
    (N.thrown frames e).Plain := by
  cases e with
  | http status body =>
    have hlarge : (N.thrown frames (.http status body)).namesLargeRequest = false := by
      have heq : N.exceptionMessage "HttpException" (.ofJson body.toJson) = body.message := by
        simp [Nest.exceptionMessage, Value.textOf, ErrorBody.toJson, Value.ofJson,
          Value.fieldsOfJson, Value.get]
      unfold Thrown.namesLargeRequest
      change includes (N.exceptionMessage "HttpException" (.ofJson body.toJson)) _ = false
      rw [heq]
      exact hmessage
    refine ⟨fun _ => ⟨⟨status, rfl, hstatus status body rfl⟩, ?_⟩, ?_⟩
    · rw [hlarge, if_neg Bool.false_ne_true]
      rfl
    · intro hself
      cases hself
  | error message =>
    refine ⟨?_, fun _ => ⟨hmessage, rfl, hframes⟩⟩
    intro hself
    cases hself

end NestHarness
