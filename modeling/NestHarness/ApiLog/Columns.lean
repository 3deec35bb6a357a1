import NestHarness.ApiLog.Pipeline
import NestHarness.Lib.MySqlColumn

/-!
# The columns of the log

What the columns of `t_api_log` are declared with, and the requests whose row is within it: nothing
between the request and the row shortens a text, or looks at the JSON that it stores.
-/

namespace NestHarness

open ApiLogInterceptor MySql

variable {P : Crypto}

namespace ApiLogEntity

/-- The row of an entity, but for the generated columns. -/
def row (e : ApiLogEntity) : List (Column × MySql.Cell) :=
  [(⟨"method", .varchar 10, false⟩, .text e.method),
    (⟨"path", .varchar 500, false⟩, .text e.path),
    (⟨"request_param", .json, true⟩, .ofJson e.requestParam),
    (⟨"request_query", .json, true⟩, .ofJson e.requestQuery),
    (⟨"request_body", .json, true⟩, .ofJson e.requestBody),
    (⟨"status_code", .int, false⟩, .int e.statusCode),
    (⟨"response_body", .json, true⟩, .ofJson e.responseBody),
    (⟨"error_stack", .text, true⟩, .ofText e.errorStack),
    (⟨"user_id", .varchar 36, true⟩, .ofText e.userId),
    (⟨"ip", .varchar 45, true⟩, .ofText e.ip),
    (⟨"user_agent", .varchar 500, true⟩, .ofText e.userAgent),
    (⟨"duration_ms", .int, false⟩, .int e.durationMs)]

def cells (e : ApiLogEntity) : List MySql.Cell := e.row.map Prod.snd

/-- Every value is within the limits of its column. -/
def Fits (e : ApiLogEntity) : Prop := ∀ x ∈ e.row, x.1.Takes x.2

end ApiLogEntity

/-- `ApiLogRepository.insert`: the rows of the table after it, or the error that it throws. -/
def ApiLogRepository.insert (rows : List (List MySql.Cell)) (entity : ApiLogEntity) :
    Except Exn (List (List MySql.Cell)) :=
  match storeRow entity.row with
  | some cells => .ok (rows ++ [cells])
  | none =>
    .error (internalServerErrorException "API 로그 등록에 실패했습니다. 관리자에게 문의해주세요.")

namespace HttpExchange

/-- The rows of a request: `saveLog` catches the error of an `insert`. -/
def rows (x : HttpExchange P) : List (List MySql.Cell) :=
  x.inserted.foldl (fun rows entity =>
    match ApiLogRepository.insert rows entity with
    | .ok rows => rows
    | .error _ => rows) []

/-- A log is saved: the exchange before the event, and the times of the interception and of the
event. -/
structure Saving (P : Crypto) where
  before : HttpExchange P
  startTime : ℕ
  now : ℕ

/-- What an event saves. -/
def saving (x : HttpExchange P) : Event P → List (Saving P)
  | .emit _ now =>
    match x.startTime with
    | some startTime => if x.saved then [] else [⟨x, startTime, now⟩]
    | none => []
  | .guard _ | .intercept _ | .pipe _ | .handle _ => []

/-- What is saved in a run. -/
def savings (A : Adapter) (x : HttpExchange P) : List (Event P) → List (Saving P)
  | [] => []
  | e :: events =>
    match step A x e with
    | some x' => x.saving e ++ savings A x' events
    | none => []

/-- The entity that is saved. -/
def Saving.entity (s : Saving P) : ApiLogEntity :=
  buildLogEntity s.before.request ⟨s.before.statusCode, s.before.captured⟩ s.startTime
    (extractRoutePath s.before.route.controllerPath s.before.route.handlerPath) s.now

/-- The path that a request is logged with. -/
def loggedPath (route : Route P) (request : Request) : String :=
  (extractRoutePath route.controllerPath route.handlerPath).getD
    ((request.originalUrl.map beforeQuery).getD (request.url.getD ""))

/-- A request of a client, and what has become of it by the time that its log is saved, within the
limits of the columns. The body of a multipart request is stored one level deeper. -/
structure Loggable (route : Route P) (request : Request) (s : Saving P) : Prop where
  method : request.method.length ≤ 10
  path : (loggedPath route request).length ≤ 500
  params : ∀ j ∈ request.params, j.storable 100 = true
  query : ∀ j ∈ request.query, j.storable 100 = true
  body : ∀ j ∈ request.body, j.storable (if isMultipart request then 99 else 100) = true
  statusCode : s.before.statusCode ≤ 2147483647
  responseBody : ∀ j, s.before.captured = .json j → j.storable 100 = true
  errorStack : ∀ stack ∈ s.before.request.apiLogErrorStack, stack.utf8ByteSize ≤ 65535
  userId : ∀ id ∈ s.before.request.userId, id.length ≤ 36
  ip : ∀ ip ∈ request.ip <|> request.remoteAddress, ip.length ≤ 45
  userAgent : ∀ agent ∈ request.header "user-agent", agent.length ≤ 500
  duration : IsInt (s.now - s.startTime)

/-- The request as the client has sent it, with what guards and filter have put on it. -/
structure SameClient (request request' : Request) : Prop where
  method : request'.method = request.method
  url : request'.url = request.url
  originalUrl : request'.originalUrl = request.originalUrl
  headers : request'.headers = request.headers
  params : request'.params = request.params
  query : request'.query = request.query
  body : request'.body = request.body
  file : request'.file = request.file
  files : request'.files = request.files
  ip : request'.ip = request.ip
  remoteAddress : request'.remoteAddress = request.remoteAddress

theorem SameClient.refl (request : Request) : SameClient request request :=
  ⟨rfl, rfl, rfl, rfl, rfl, rfl, rfl, rfl, rfl, rfl, rfl⟩

theorem SameClient.of_eq {request request' : Request} (h : request' = request) :
    SameClient request request' := h ▸ .refl request

variable {A : Adapter} {route : Route P} {request request' : Request} {entity : ApiLogEntity}
  {x x' : HttpExchange P} {e : Event P} {s : Saving P}

theorem SameClient.trans {request'' : Request} (h : SameClient request request')
    (h' : SameClient request' request'') : SameClient request request'' :=
  ⟨h'.method.trans h.method, h'.url.trans h.url, h'.originalUrl.trans h.originalUrl,
    h'.headers.trans h.headers, h'.params.trans h.params, h'.query.trans h.query,
    h'.body.trans h.body, h'.file.trans h.file, h'.files.trans h.files, h'.ip.trans h.ip,
    h'.remoteAddress.trans h.remoteAddress⟩

/-! ## The entity of a request -/

/-- `toJson` leaves out only what any column takes. -/
theorem storable_toJson {value : Option Json} {levels : ℕ} :
    (∀ j ∈ toJson value, j.storable (levels + 1) = true) ↔
      ∀ j ∈ value, j.storable (levels + 1) = true := by
  unfold toJson
  split <;> simp [Json.storable, Json.storableFields]

theorem storableElems_iff {levels : ℕ} {elems : List Json} :
    Json.storableElems levels elems = true ↔ ∀ j ∈ elems, j.storable levels = true := by
  induction elems with
  | nil => simp [Json.storableElems]
  | cons j elems ih => simp [Json.storableElems, ih]

theorem storable_toFileMeta (file : MulterFile) (levels : ℕ) :
    (toFileMeta file).storable (levels + 1) = true := by
  have hnames : ∀ name ∈ ["fieldname", "originalname", "mimetype", "size"],
      name.utf8ByteSize ≤ 65535 := by decide +kernel
  simp only [List.forall_mem_cons] at hnames
  simp [toFileMeta, Json.storable, Json.storableFields, hnames]

theorem storable_fileMeta (request : Request) (levels : ℕ) :
    Json.storableElems (levels + 1) (fileMeta request) = true := by
  rw [storableElems_iff]
  intro j hj
  rw [fileMeta, List.mem_append] at hj
  have hmap {files : List MulterFile} (hj : j ∈ files.map toFileMeta) :
      j.storable (levels + 1) = true := by
    obtain ⟨file, _, rfl⟩ := List.mem_map.mp hj
    exact storable_toFileMeta file levels
  rcases hj with hj | hj
  · exact hmap hj
  · split at hj
    · cases hj
    · exact hmap hj
    · exact hmap hj

theorem storable_extractBody : (∀ j ∈ extractBody request, j.storable 100 = true) ↔
    ∀ j ∈ request.body, j.storable (if isMultipart request then 99 else 100) = true := by
  rw [extractBody]
  split
  · next hmultipart =>
    have hfields : ((toJson request.body).getD .null).storable 99 = true ↔
        ∀ j ∈ toJson request.body, j.storable 99 = true := by
      cases toJson request.body <;> simp [Json.storable]
    have hnames : "fields".utf8ByteSize ≤ 65535 ∧ "files".utf8ByteSize ≤ 65535 := by
      decide +kernel
    refine Iff.trans ?_ (hfields.trans storable_toJson)
    simp [Json.storable, Json.storableFields, hnames, storable_fileMeta request 97]
  · exact storable_toJson

theorem storable_parseResponseBody {body : SentBody} :
    (∀ j ∈ parseResponseBody body, j.storable 100 = true) ↔
      ∀ j, body = .json j → j.storable 100 = true := by
  have hnames : "type".utf8ByteSize ≤ 65535 ∧ "size".utf8ByteSize ≤ 65535 := by decide +kernel
  unfold parseResponseBody
  split
  · simp
  · simp
  · simp [Json.storable]
  · simp [Json.storable, Json.storableFields, hnames]
  · split <;> simp [Json.storable]
  · simp

/-- Which entities are within the limits of their columns. -/
theorem fits_iff (hroute : s.before.route = route) (hclient : SameClient request s.before.request) :
    s.entity.Fits ↔ Loggable route request s := by
  have hpath : s.entity.path = loggedPath route request := by
    rw [loggedPath, ← hroute, ← hclient.originalUrl, ← hclient.url]
    rfl
  have hheader (name : String) : s.before.request.header name = request.header name := by
    rw [Request.header, Request.header, hclient.headers]
  have hmultipart : isMultipart s.before.request = isMultipart request := by
    rw [isMultipart, isMultipart, hheader]
  have hip : s.entity.ip = (request.ip <|> request.remoteAddress) := by
    rw [← hclient.ip, ← hclient.remoteAddress]
    rfl
  have hparams : (∀ j ∈ s.entity.requestParam, j.storable 100 = true) ↔
      ∀ j ∈ request.params, j.storable 100 = true := by
    rw [← hclient.params]
    exact storable_toJson
  have hquery : (∀ j ∈ s.entity.requestQuery, j.storable 100 = true) ↔
      ∀ j ∈ request.query, j.storable 100 = true := by
    rw [← hclient.query]
    exact storable_toJson
  have hbody : (∀ j ∈ s.entity.requestBody, j.storable 100 = true) ↔
      ∀ j ∈ request.body, j.storable (if isMultipart request then 99 else 100) = true := by
    rw [← hclient.body, ← hmultipart]
    exact storable_extractBody
  have hresponse : (∀ j ∈ s.entity.responseBody, j.storable 100 = true) ↔
      ∀ j, s.before.captured = .json j → j.storable 100 = true := storable_parseResponseBody
  have hstatus : IsInt s.entity.statusCode ↔ s.before.statusCode ≤ 2147483647 := by
    rw [show s.entity.statusCode = s.before.statusCode from rfl, IsInt]
    omega
  unfold ApiLogEntity.Fits ApiLogEntity.row
  simp only [List.forall_mem_cons, takes_varchar, takes_int, takes_varchar_ofText,
    takes_text_ofText, takes_json_ofJson, hpath, hip, hparams, hquery, hbody, hresponse, hstatus]
  have hmethod : s.entity.method = request.method := hclient.method
  have hagent : s.entity.userAgent = request.header "user-agent" := hheader "user-agent"
  rw [hmethod, hagent]
  constructor
  · rintro ⟨hmethod, hpath, hparams, hquery, hbody, hstatus, hresponse, hstack, huser, hip, hagent,
      hduration, -⟩
    exact ⟨hmethod, hpath, hparams, hquery, hbody, hstatus, hresponse, hstack, huser, hip, hagent,
      hduration⟩
  · intro h
    exact ⟨h.method, h.path, h.params, h.query, h.body, h.statusCode, h.responseBody, h.errorStack,
      h.userId, h.ip, h.userAgent, h.duration, fun x hx => absurd hx List.not_mem_nil⟩

/-! ## The entities of a run -/

/-- The filter leaves what the client has sent. -/
theorem SameClient.fail (A : Adapter) (exit : Exit) (err : JsError) (x : HttpExchange P) :
    SameClient x.request (HttpExchange.fail A exit err x).request := by
  have hattach (err : JsError) (request : Request) :
      SameClient request (CustomErrorFilter.catch err request).1 := by
    unfold CustomErrorFilter.catch CustomErrorFilter.attachStack
    dsimp only
    split <;> exact ⟨rfl, rfl, rfl, rfl, rfl, rfl, rfl, rfl, rfl, rfl, rfl⟩
  have hanswer (request : Request) (reply : Reply) :
      (answer exit request reply x).request = request := by
    unfold answer send
    split <;> rfl
  unfold HttpExchange.fail
  dsimp only
  split
  · rw [hanswer]
    exact hattach ..
  · rw [hanswer]
    exact (hattach ..).trans (hattach ..)

/-- The request is that of the client. -/
structure Described (x : HttpExchange P) (route : Route P) (request : Request) : Prop where
  route_eq : x.route = route
  client : SameClient request x.request

theorem Described.init (route : Route P) (request : Request) :
    (init route request).Described route request :=
  ⟨rfl, .refl _⟩

theorem Described.keep (h : x.Described route request) (hroute : x'.route = x.route)
    (hclient : SameClient x.request x'.request) : x'.Described route request :=
  ⟨hroute.trans h.route_eq, h.client.trans hclient⟩

theorem Described.fail (h : x.Described route request) (exit : Exit) (err : JsError) :
    (HttpExchange.fail A exit err x).Described route request :=
  h.keep (fail_spec A exit err x).2.1 (.fail A exit err x)

theorem hear_eq_saving (now : ℕ) (ev : ResponseEvent) (x : HttpExchange P) :
    (hear now x.note).inserted = x.inserted ++ (x.saving (.emit ev now)).map Saving.entity ∧
      (hear now x.note).request = x.request ∧ (hear now x.note).route = x.route := by
  unfold hear saving
  cases hstart : x.startTime with
  | none => simp [note, hstart]
  | some startTime =>
    cases hsaved : x.saved <;> simp [note, hstart, saveLog, hsaved, Saving.entity]

theorem send_spec (body : SentBody) (x : HttpExchange P) :
    (send body x).inserted = x.inserted ∧ (send body x).request = x.request ∧
      (send body x).route = x.route := by
  unfold send
  split <;> exact ⟨rfl, rfl, rfl⟩

/-- A log is saved in the state before the event. -/
theorem before_of_mem_saving (h : s ∈ x.saving e) : s.before = x := by
  cases e with
  | guard | intercept | pipe | handle => cases h
  | emit ev now =>
    simp only [saving] at h
    split at h
    · split at h
      · cases h
      · cases List.mem_singleton.mp h
        rfl
    · cases h

/-- A step inserts the entity of what it saves. -/
theorem Described.step (h : x.Described route request) (hs : HttpExchange.step A x e = some x') :
    x'.Described route request ∧
      x'.inserted = x.inserted ++ (x.saving e).map Saving.entity := by
  have hnone : x.inserted = x.inserted ++ ([] : List (Saving P)).map Saving.entity :=
    (List.append_nil _).symm
  cases e with
  | guard c =>
    simp only [HttpExchange.step] at hs
    split at hs
    · split at hs <;> cases hs
      · exact ⟨h.keep rfl ⟨rfl, rfl, rfl, rfl, rfl, rfl, rfl, rfl, rfl, rfl, rfl⟩, hnone⟩
      · exact ⟨h.fail .., (fail_spec ..).2.2.2.2.1.trans hnone⟩
    · cases hs
  | intercept now =>
    simp only [HttpExchange.step] at hs
    split at hs
    · cases hs
      exact ⟨h.keep rfl (.refl _), hnone⟩
    · cases hs
  | pipe r =>
    simp only [HttpExchange.step] at hs
    split at hs
    · cases hs
      exact ⟨h.keep rfl (.refl _), hnone⟩
    · cases hs
      exact ⟨h.fail .., (fail_spec ..).2.2.2.2.1.trans hnone⟩
    · cases hs
  | handle r =>
    simp only [HttpExchange.step] at hs
    split at hs
    · next body _ =>
      cases hs
      obtain ⟨hinserted, hrequest, hroute⟩ :=
        send_spec body { x with stage := .replied .answered }
      exact ⟨h.keep hroute (.of_eq hrequest), hinserted.trans hnone⟩
    · cases hs
      exact ⟨h.fail .., (fail_spec ..).2.2.2.2.1.trans hnone⟩
    · cases hs
  | emit ev now =>
    simp only [HttpExchange.step, Option.ite_none_right_eq_some, Option.some.injEq] at hs
    obtain ⟨-, rfl⟩ := hs
    obtain ⟨hinserted, hrequest, hroute⟩ := hear_eq_saving now ev x
    exact ⟨h.keep hroute (.of_eq hrequest), hinserted⟩

/-- A run inserts the entities of what it saves. -/
theorem Described.exec {events : List (Event P)} (h : x.Described route request)
    (hs : Run.exec (HttpExchange.step A) x events = some x') :
    x'.inserted = x.inserted ++ (savings A x events).map Saving.entity ∧
      ∀ s ∈ savings A x events, s.before.Described route request := by
  induction events generalizing x with
  | nil =>
    cases hs
    exact ⟨(List.append_nil _).symm, fun s hs => absurd hs List.not_mem_nil⟩
  | cons e events ih =>
    obtain ⟨y, hy, hs⟩ := Run.exec_cons_iff.mp hs
    obtain ⟨hdescribed, hinserted⟩ := h.step hy
    obtain ⟨hrest, hsaved⟩ := ih hdescribed hs
    have hsavings : savings A x (e :: events) = x.saving e ++ savings A y events := by
      rw [savings, hy]
    rw [hsavings]
    refine ⟨?_, ?_⟩
    · rw [hrest, hinserted, List.map_append, List.append_assoc]
    · intro s hmem
      rcases List.mem_append.mp hmem with hmem | hmem
      · rw [before_of_mem_saving hmem]
        exact h
      · exact hsaved s hmem

/-! ## The rows of a run -/

/-- The rows are those that are not refused. -/
theorem rows_eq (x : HttpExchange P) : x.rows = x.inserted.filterMap fun e => storeRow e.row := by
  have hrows (entities : List ApiLogEntity) (rows : List (List MySql.Cell)) :
      entities.foldl (fun rows entity =>
        match ApiLogRepository.insert rows entity with
        | .ok rows => rows
        | .error _ => rows) rows = rows ++ entities.filterMap fun e => storeRow e.row := by
    induction entities generalizing rows with
    | nil => exact (List.append_nil rows).symm
    | cons entity entities ih =>
      rw [List.foldl_cons, ih, List.filterMap_cons, ApiLogRepository.insert]
      cases storeRow entity.row <;> simp
  exact hrows x.inserted []

/-- A list loses nothing just when nothing of it is lost or changed. -/
theorem filterMap_eq_map_iff {α β : Type} {f : α → Option β} {g : α → β} {l : List α} :
    l.filterMap f = l.map g ↔ ∀ a ∈ l, f a = some (g a) := by
  induction l with
  | nil => simp
  | cons a l ih =>
    rw [List.forall_mem_cons, ← ih, List.filterMap_cons, List.map_cons]
    cases ha : f a with
    | some b => simp
    | none =>
      have hlength := List.length_filterMap_le f l
      refine iff_of_false (fun h => ?_) (fun h => by cases h.1)
      replace h : l.filterMap f = g a :: l.map g := h
      rw [h, List.length_cons, List.length_map] at hlength
      omega

/-- A request that the pipes reject, of a client with a name. -/
theorem exec_signIn (agent : String) : ∃ (x : HttpExchange symbolic) (entity : ApiLogEntity)
    (s : Saving symbolic), Run.exec (HttpExchange.step sampleAdapter) (init UserController.signIn
        { sampleRequest "/api/v1/user/sign-in" with headers := [("user-agent", agent)] })
      [.intercept 0, .pipe (.error invalidBody), .emit .finish 1, .emit .close 2] = some x ∧
    x.stage = .replied .pipe ∧ x.statusCode = 400 ∧ x.inserted = [entity] ∧
    entity.userAgent = some agent ∧
    savings sampleAdapter (init UserController.signIn
        { sampleRequest "/api/v1/user/sign-in" with headers := [("user-agent", agent)] })
      [.intercept 0, .pipe (.error invalidBody), .emit .finish 1, .emit .close 2] = [s] ∧
    s.startTime = 0 ∧ s.now = 1 ∧ s.before.statusCode = 400 ∧
    s.before.captured = .json (.obj [("message", .str "아이디를 입력해주세요.")]) ∧
    s.before.request.userId = none ∧ s.before.request.apiLogErrorStack = none := by
  refine ⟨_, _, _, rfl, ?_, ?_, rfl, ?_, rfl, ?_, ?_, ?_, ?_, ?_, ?_⟩
  all_goals rfl

/-- A name of a client with `n` characters. -/
def longAgent (n : ℕ) : String := .ofList (.replicate n 'a')

/-- The column of the name refuses the row. -/
theorem storeRow_longAgent (h : entity.userAgent = some (longAgent 501)) :
    storeRow entity.row = none := by
  refine storeRow_eq_none (x := (⟨"user_agent", .varchar 500, true⟩, .ofText entity.userAgent))
    (by simp [ApiLogEntity.row]) ?_
  have hcut : cutVarchar 500 (longAgent 501) = none := by
    refine cutVarchar_eq_none_iff.mpr ⟨'a', ?_, by decide⟩
    rw [longAgent, String.toList_ofList, List.drop_replicate]
    exact List.mem_replicate.mpr ⟨by decide, rfl⟩
  rw [h]
  simp [MySql.Cell.ofText, Column.store, hcut]

end HttpExchange

end NestHarness
