import NestHarness.Http.Exchange

/-!
# The log entity of a request

`ApiLogInterceptor`: the row of `t_api_log` it builds when the response is finished.
-/

namespace NestHarness

/-- A row of `t_api_log`, without the generated `id` and `create_at`. -/
structure ApiLogEntity where
  method : String
  path : String
  requestParam : Option Json
  requestQuery : Option Json
  requestBody : Option Json
  statusCode : Nat
  responseBody : Option Json
  errorStack : Option String
  userId : Option String
  ip : Option String
  userAgent : Option String
  durationMs : Int

/-- Path metadata of a controller or of a handler. -/
inductive PathMeta where
  | missing
  | one (path : String)
  | many (paths : List String)

def PathMeta.first : PathMeta → String
  | .missing => ""
  | .one path => path
  | .many paths => paths.headD ""

namespace ApiLogInterceptor

/-- `replace(/\/+/g, '/')`; `after` tells that the last character was a slash. -/
def collapseSlashes (after : Bool) : List Char → List Char
  | [] => []
  | c :: cs =>
    if c = '/' then if after then collapseSlashes true cs else c :: collapseSlashes true cs
    else c :: collapseSlashes false cs

def extractRoutePath (controllerMeta handlerMeta : PathMeta) : Option String :=
  let c := controllerMeta.first
  let h := handlerMeta.first
  if c = "" ∧ h = "" then none
  else
    let combined := collapseSlashes false ("/" ++ c ++ "/" ++ h).toList
    some (.ofList
      (if combined.length > 1 ∧ combined.getLast? = some '/' then combined.dropLast else combined))

def toJson : Option Json → Option Json
  | none | some .null | some (.obj []) => none
  | some value => some value

def toFileMeta (file : MulterFile) : Json :=
  .obj [("fieldname", .str (file.fieldname.getD "")),
    ("originalname", .str (file.originalname.getD "")),
    ("mimetype", .str (file.mimetype.getD "")), ("size", .num (file.size.getD 0))]

def fileMeta (req : Request) : List Json :=
  req.file.toList.map toFileMeta ++
    match req.files with
    | .missing => []
    | .array files => files.map toFileMeta
    | .byField files => (files.flatMap fun f => f.2.getD []).map toFileMeta

def isMultipart (req : Request) : Bool :=
  "multipart/form-data".toList.isPrefixOf (((req.header "content-type").getD "").toLower.toList)

def extractBody (req : Request) : Option Json :=
  if isMultipart req then
    some (.obj [("fields", (toJson req.body).getD .null), ("files", .arr (fileMeta req))])
  else toJson req.body

def parseResponseBody : SentBody → Option Json
  | .undefined | .null | .json .null => none
  | .buffer size => some (.obj [("type", .str "Buffer"), ("size", .num size)])
  | .text s => if s = "" then none else some (.str s)
  | .json value => some value

/-- `split('?')[0]`. -/
def beforeQuery (url : String) : String := .ofList (url.toList.takeWhile (· ≠ '?'))

def buildLogEntity (req : Request) (res : HttpResponse) (startTime : Nat)
    (routePath : Option String) (now : Nat) : ApiLogEntity where
  method := req.method
  path := routePath.getD ((req.originalUrl.map beforeQuery).getD (req.url.getD ""))
  requestParam := toJson req.params
  requestQuery := toJson req.query
  requestBody := extractBody req
  statusCode := res.statusCode
  responseBody := parseResponseBody res.body
  errorStack := req.apiLogErrorStack
  userId := req.userId
  ip := req.ip <|> req.remoteAddress
  userAgent := req.header "user-agent"
  durationMs := now - startTime

/-! ## What the entity keeps of the bodies -/

variable {names : List String} {body body' : Option Json} {req req' : Request} {value value' : Json}

theorem toJson_eq_some (h : toJson body = some value) : body = some value ∧ value ≠ .null := by
  unfold toJson at h
  split at h
  · cases h
  · cases h
  · cases h
  · next hnull _ =>
    cases h
    exact ⟨rfl, hnull⟩

theorem toJson_eq_none (h : toJson body = none) :
    body = none ∨ body = some .null ∨ body = some (.obj []) := by
  unfold toJson at h
  split at h
  · exact .inl rfl
  · exact .inr (.inl rfl)
  · exact .inr (.inr rfl)
  · cases h

/-- The entity keeps a body but for whether it is missing, `null` or empty. -/
theorem toJson_inj (hhide : body.map (·.hide names) = body'.map (·.hide names))
    (h : toJson body = toJson body') : body = body' := by
  cases hv : toJson body with
  | some value => exact (toJson_eq_some hv).1.trans (toJson_eq_some (h.symm.trans hv)).1.symm
  | none =>
    rcases toJson_eq_none hv with rfl | rfl | rfl <;>
      rcases toJson_eq_none (h.symm.trans hv) with rfl | rfl | rfl <;> simp_all [Json.hide]

theorem toJson_getD_inj (h : (toJson body).getD .null = (toJson body').getD .null) :
    toJson body = toJson body' := by
  cases hv : toJson body with
  | none =>
    cases hv' : toJson body' with
    | none => rfl
    | some value' =>
      rw [hv, hv'] at h
      exact absurd h.symm (toJson_eq_some hv').2
  | some value =>
    cases hv' : toJson body' with
    | none =>
      rw [hv, hv'] at h
      exact absurd h (toJson_eq_some hv).2
    | some value' =>
      rw [hv, hv'] at h
      exact congrArg some h

theorem extractBody_inj (hheaders : req.headers = req'.headers)
    (hhide : req.body.map (·.hide names) = req'.body.map (·.hide names))
    (h : extractBody req = extractBody req') : req.body = req'.body := by
  have hmultipart : isMultipart req = isMultipart req' := by
    rw [isMultipart, isMultipart, Request.header, Request.header, hheaders]
  refine toJson_inj hhide ?_
  rw [extractBody, extractBody, ← hmultipart] at h
  split at h
  · simp only [Option.some.injEq, Json.obj.injEq, List.cons.injEq, Prod.mk.injEq] at h
    exact toJson_getD_inj h.1.2
  · exact h

theorem parseResponseBody_json_inj
    (h : parseResponseBody (.json value) = parseResponseBody (.json value')) : value = value' := by
  cases value <;> cases value' <;> simp_all [parseResponseBody]

end ApiLogInterceptor

end NestHarness
