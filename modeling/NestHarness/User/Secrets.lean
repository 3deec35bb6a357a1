import NestHarness.ApiLog.Interceptor
import NestHarness.Queue.Dispatch
import NestHarness.User.Rotation

/-!
# What is stored of a secret

The routes of `UserController` between the interceptor that logs them and the queue that keeps their
jobs: which rows and jobs two requests leave behind that differ in their secrets only.
-/

namespace NestHarness

open ApiLogInterceptor WriteQueueRegistry

inductive UserRoute where
  | adminCreate
  | signIn
  | refresh
deriving DecidableEq

namespace UserRoute

def handlerPath : UserRoute → String
  | adminCreate => "/admin/create"
  | signIn => "/sign-in"
  | refresh => "/refresh"

def routePath (route : UserRoute) : Option String :=
  extractRoutePath (.one "/api/v1/user") (.one route.handlerPath)

/-- `@HttpCode` of the route. -/
def httpCode : UserRoute → Nat
  | adminCreate => 204
  | signIn | refresh => 200

/-- The job key of a service method with `@UseQueue`. -/
def jobKey : UserRoute → Option String
  | adminCreate => some "user-service-admin-create"
  | signIn => some "user-service-sign-in"
  | refresh => none

/-- The arguments of the service method: the validated body, and the ip. -/
def args (req : Request) : UserRoute → List Json
  | adminCreate => [req.body.getD .null]
  | signIn | refresh => [req.body.getD .null, (req.ip.map Json.str).getD .null]

end UserRoute

/-- How far a request gets. -/
inductive Handling where
  /-- The body parser or a guard rejects it: it does not reach the interceptor. -/
  | rejected
  /-- The validation pipe rejects its body. -/
  | invalid (response : ErrorBody)
  /-- The service method ends; a result without a value is `null`. -/
  | served (result : Except Exn Json)

structure Exchange where
  route : UserRoute
  req : Request
  handling : Handling
  startTime : Nat
  finishTime : Nat

namespace Exchange

def sendResult : Json → SentBody
  | .null => .undefined
  | value => .json value

/-- The response to a result that reaches the controller. -/
def respond (route : UserRoute) : Except Exn Json → HttpResponse
  | .ok value => ⟨route.httpCode, sendResult value⟩
  | .error e => customErrorFilter e

/-- The response as the interceptor sees it. -/
def response (x : Exchange) : Option HttpResponse :=
  match x.handling with
  | .rejected => none
  | .invalid e => some (customErrorFilter (badRequestException e))
  | .served result =>
    some (respond x.route (if x.route.jobKey.isSome then dispatched result else result))

/-- The row of `t_api_log`. -/
def logEntity (x : Exchange) : Option ApiLogEntity :=
  x.response.map fun res => buildLogEntity x.req res x.startTime x.route.routePath x.finishTime

/-- The job the queue keeps. -/
def job (x : Exchange) : Option JobRecord :=
  match x.handling, x.route.jobKey with
  | .served result, some key => some (jobRecord key (x.route.args x.req) result)
  | _, _ => none

end Exchange

def requestSecrets : List String := ["login_pw", "login_pw2", "refresh_token"]

def issuedSecrets : List String := ["access_token", "refresh_token"]

/-- The branch a request takes, without the secrets it issues. -/
def Handling.hide : Handling → Handling
  | .served (.ok value) => .served (.ok (value.hide issuedSecrets))
  | h => h

def Request.withoutBody (req : Request) : Request := { req with body := none }

/-- Two requests that take the same branch and differ in the presented or issued secrets only. -/
structure DifferInSecrets (x x' : Exchange) : Prop where
  route : x.route = x'.route
  req : x.req.withoutBody = x'.req.withoutBody
  body : x.req.body.map (·.hide requestSecrets) = x'.req.body.map (·.hide requestSecrets)
  handling : x.handling.hide = x'.handling.hide
  differ : ¬(x.req.body = x'.req.body ∧ x.handling = x'.handling)

/-- The row of `t_api_log`, but for its duration, and the retained job do not depend on the
secrets. -/
structure SecretsKept (x x' : Exchange) : Prop where
  log : x.logEntity.map ({ · with durationMs := 0 }) = x'.logEntity.map ({ · with durationMs := 0 })
  job : x.job = x'.job

/-- A row of `t_session_refresh` holds its token as a hash and as a ciphertext. -/
def StoredEncrypted {P : Crypto} (r : SessionRefreshEntity P) : Prop :=
  ∃ token, r.refreshHash = P.sha256Hex token ∧ P.decryptAesGcm r.refreshEncrypted = .ok token

namespace Exchange

variable {x x' : Exchange} {value value' : Json}

theorem parse_sendResult_inj
    (h : parseResponseBody (sendResult value) = parseResponseBody (sendResult value')) :
    value = value' := by
  refine parseResponseBody_json_inj ?_
  cases value <;> cases value' <;> exact h

theorem logEntity_eq_none_iff : x.logEntity = none ↔ x.handling = .rejected := by
  rw [logEntity, Option.map_eq_none_iff, response]
  cases x.handling <;> simp

theorem response_served (hx : x.handling = .served (.ok value)) :
    x.response = some ⟨x.route.httpCode, sendResult value⟩ := by
  simp only [response, hx]
  split <;> rfl

theorem hide_eq {h h' : Handling} (hh : h.hide = h'.hide) :
    h = h' ∨ ∃ value value', h = .served (.ok value) ∧ h' = .served (.ok value') := by
  rcases h with _ | _ | (_ | value) <;> rcases h' with _ | _ | (_ | value')
  case served.ok.served.ok => exact .inr ⟨value, value', rfl, rfl⟩
  all_goals
    first
    | exact .inl hh
    | cases hh

/-- A row determines the bodies it was built from, for a known branch. -/
theorem eq_of_logEntity_eq (h : DifferInSecrets x x') (hx : x.handling ≠ .rejected)
    (hlog : x.logEntity.map ({ · with durationMs := 0 }) =
      x'.logEntity.map ({ · with durationMs := 0 })) :
    x.req.body = x'.req.body ∧ x.handling = x'.handling := by
  cases hres : x.response with
  | none => exact absurd (logEntity_eq_none_iff.mp (by rw [logEntity, hres]; rfl)) hx
  | some res =>
    cases hres' : x'.response with
    | none => simp [logEntity, hres, hres'] at hlog
    | some res' =>
      simp only [logEntity, hres, hres', buildLogEntity, Option.map_some, Option.some.injEq,
        ApiLogEntity.mk.injEq] at hlog
      obtain ⟨_, _, _, _, hbody, _, hparse, _⟩ := hlog
      have hheaders : x.req.headers = x'.req.headers := (congrArg Request.headers h.req :)
      refine ⟨extractBody_inj hheaders h.body hbody, ?_⟩
      rcases hide_eq h.handling with heq | ⟨value, value', hv, hv'⟩
      · exact heq
      · cases hres.symm.trans (response_served hv)
        cases hres'.symm.trans (response_served hv')
        rw [hv, hv', parse_sendResult_inj hparse]

theorem kept_of_rejected (h : x.handling = .rejected) (h' : x'.handling = .rejected) :
    SecretsKept x x' := by
  refine ⟨?_, ?_⟩
  · rw [logEntity_eq_none_iff.mpr h, logEntity_eq_none_iff.mpr h']
  · simp only [job, h, h']

/-- Rows of `t_session_refresh` never hold a plaintext token; what the log and the queue store is
independent of the secrets just when nothing is stored. -/
theorem secrets_kept_iff {P : Crypto} {π : Txn.Policy (schema P)} {w : Txn.World (userService P)}
    (hP : P.Lawful) (hw : Reachable π w) (h : DifferInSecrets x x') :
    (SecretsKept x x' ∧ ∀ r ∈ w.db.tSessionRefresh, StoredEncrypted r) ↔
      x.handling = .rejected := by
  constructor
  · rintro ⟨hkept, _⟩
    by_contra hx
    exact h.differ (eq_of_logEntity_eq h hx hkept.log)
  · intro hx
    constructor
    · refine kept_of_rejected hx ?_
      rcases hide_eq h.handling with heq | ⟨_, _, hv, _⟩
      · exact heq ▸ hx
      · cases hx.symm.trans hv
    · intro r hr
      obtain ⟨_, _, _, _, hs⟩ := (hw.tables hP).stored r hr
      exact ⟨_, hs.hash, hs.cipher⟩

/-! ### A sign-in -/

/-- A sign-in with the given password that issues the given refresh token. -/
def signedIn (password token : String) : Exchange where
  route := .signIn
  req := {
    method := "POST", url := some "/api/v1/user/sign-in", originalUrl := some "/api/v1/user/sign-in"
    headers := [("content-type", "application/json"), ("user-agent", "curl")]
    params := some (.obj []), query := some (.obj [])
    body := some (.obj [("login_id", .str "alice1"), ("login_pw", .str password)])
    file := none, files := .missing, ip := some "10.0.0.1", remoteAddress := some "10.0.0.1"
    userId := none, apiLogErrorStack := none }
  handling := .served (.ok (.obj [("access_token", .str "access"),
    ("access_expires_at", .str "2026-04-15T00:20:00.000Z"), ("refresh_token", .str token),
    ("refresh_expires_at", .str "2026-04-16T00:00:00.000Z")]))
  startTime := 1776211200000
  finishTime := 1776211200042

theorem signedIn_differ {password password' token token' : String} (h : password ≠ password') :
    DifferInSecrets (signedIn password token) (signedIn password' token') where
  route := rfl
  req := rfl
  body := by simp [signedIn, Json.hide, requestSecrets]
  handling := by simp [signedIn, Handling.hide, Json.hide, issuedSecrets]
  differ := by simp [signedIn, h]

theorem signedIn_body (password token : String) :
    extractBody (signedIn password token).req = (signedIn password token).req.body := by
  have hmultipart : isMultipart (signedIn password token).req = false := by
    have hheader : (signedIn password token).req.header "content-type" = some "application/json" :=
      rfl
    rw [isMultipart, hheader]
    decide +kernel
  rw [extractBody, hmultipart]
  rfl

/-- The row of `t_api_log` holds the password and the refresh token, and so does the job. -/
theorem signedIn_stored :
    DifferInSecrets (signedIn "hunter2" "r1") (signedIn "letmein" "r2") ∧
      ¬SecretsKept (signedIn "hunter2" "r1") (signedIn "letmein" "r2") ∧
      (signedIn "hunter2" "r1").logEntity.bind (·.requestBody) =
        some (.obj [("login_id", .str "alice1"), ("login_pw", .str "hunter2")]) ∧
      (signedIn "hunter2" "r1").logEntity.bind (·.responseBody) =
        some (.obj [("access_token", .str "access"),
          ("access_expires_at", .str "2026-04-15T00:20:00.000Z"), ("refresh_token", .str "r1"),
          ("refresh_expires_at", .str "2026-04-16T00:00:00.000Z")]) ∧
      (signedIn "hunter2" "r1").job.map (·.args) =
        some [.obj [("login_id", .str "alice1"), ("login_pw", .str "hunter2")],
          .str "10.0.0.1"] := by
  have hdiffer : DifferInSecrets (signedIn "hunter2" "r1") (signedIn "letmein" "r2") :=
    signedIn_differ (by decide)
  refine ⟨hdiffer, ?_, signedIn_body _ _, rfl, rfl⟩
  intro hkept
  exact hdiffer.differ (eq_of_logEntity_eq hdiffer nofun hkept.log)

theorem secrets_kept_iff_sample :
    ∃ w, Reachable (calm symbolic .repeatableRead) w ∧
      ¬(SecretsKept (signedIn "hunter2" "r1") (signedIn "letmein" "r2") ∧
        ∀ r ∈ w.db.tSessionRefresh, StoredEncrypted r) := by
  obtain ⟨w, hw, _⟩ := sample_reachable
  refine ⟨w, hw, ?_⟩
  rw [secrets_kept_iff symbolic_lawful hw (signedIn_differ (by decide))]
  exact nofun

end Exchange

end NestHarness
