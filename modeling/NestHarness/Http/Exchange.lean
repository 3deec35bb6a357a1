import NestHarness.Lib.Json
import NestHarness.User.Entities

/-!
# Requests and responses

What the application reads of an Express request, what reaches `res.send`, and the response
`CustomErrorFilter` gives to an exception. `undefined` and `null` are `none`.
-/

namespace NestHarness

/-- A file that multer has received. `size` is `none` when it is not a number. -/
structure MulterFile where
  fieldname : Option String
  originalname : Option String
  mimetype : Option String
  size : Option Nat
deriving DecidableEq

/-- `req.files`: an array, or an object of arrays whose other values are `none`. -/
inductive MulterFiles where
  | missing
  | array (files : List MulterFile)
  | byField (files : List (String × Option (List MulterFile)))
deriving DecidableEq

structure Request where
  method : String
  url : Option String
  originalUrl : Option String
  headers : List (String × String)
  params : Option Json
  query : Option Json
  body : Option Json
  file : Option MulterFile
  files : MulterFiles
  ip : Option String
  remoteAddress : Option String
  /-- `req.user?.user_id` -/
  userId : Option String
  /-- `req.__apiLogErrorStack` -/
  apiLogErrorStack : Option String

def Request.header (req : Request) (name : String) : Option String := req.headers.lookup name

/-- The last argument of `res.send`: `json` is the text of a JSON value, `text` any other text. -/
inductive SentBody where
  | undefined
  | null
  | buffer (size : Nat)
  | text (s : String)
  | json (value : Json)

structure HttpResponse where
  statusCode : Nat
  body : SentBody

/-! ## Errors -/

def ValidationErrorDto.toJson (e : ValidationErrorDto) : Json :=
  .obj [("type", .str e.type), ("property", .str e.property), ("message", .str e.message)]

def ErrorBody.toJson (e : ErrorBody) : Json :=
  .obj (("message", .str e.message) ::
    ((e.validationErrors.map fun es => ("validationErrors", .arr (es.map (·.toJson)))).toList ++
      (e.errorCode.map fun code => ("errorCode", .str code)).toList))

/-- The message of an exception: an `HttpException` takes it from its response. -/
def Exn.message : Exn → String
  | .http _ response => response.message
  | .error message => message

/-- The text occurs in the other one. -/
def includes (s part : String) : Bool := s.toList.tails.any (part.toList.isPrefixOf ·)

/-- `CustomErrorFilter.catch`, without the stack trace it attaches to the request. -/
def customErrorFilter (exception : Exn) : HttpResponse :=
  if includes exception.message "request entity too large" then
    ⟨413, .json (.obj [("code", .str "DATA_TO_LARGE"),
      ("message", .str "한 요청당 제한된 크기를 초과하였습니다. [최대 15Mb]")])⟩
  else
    match exception with
    | .http status response => ⟨status, .json response.toJson⟩
    | .error _ => ⟨500, .json (.obj [("message", .str "요청이 실패했습니다. 관리자에게 문의해주세요.")])⟩

end NestHarness
