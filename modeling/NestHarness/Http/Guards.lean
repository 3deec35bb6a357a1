import NestHarness.Http.ErrorFilter
import NestHarness.ApiLog.Interceptor
import NestHarness.User.Database

/-!
# Guards

What a request has to pass before the interceptors of its route: the login of its bearer token and
the roles of its handler.
-/

namespace NestHarness

open Js (Value)

variable {P : Crypto}

structure PassportUserResultDto where
  userId : String
  loginId : String
  name : String
  nickname : String
  authId : String
  stateId : String
  isLoginAble : Nat
deriving DecidableEq

/-- What a guard can consult: the claims of the bearer token, if there is one that verifies, and the
database, `none` when it fails. -/
structure Credentials (P : Crypto) where
  payload : Option JwtPayload
  db : Option (Tables P)

/-- `new UnauthorizedException()`. -/
def unauthorizedException : JsError where
  message := "Unauthorized"
  stack := some "UnauthorizedException: Unauthorized"
  response := .obj [("message", .str "Unauthorized"), ("statusCode", .num 401)]
  status := .num 401
  getStatus := some (.num 401)
  getResponse := some (.obj [("message", .str "Unauthorized"), ("statusCode", .num 401)])

/-- What Nest throws for a guard that does not activate. -/
def forbiddenException : JsError where
  message := "Forbidden resource"
  stack := some "ForbiddenException: Forbidden resource"
  response := .obj [("message", .str "Forbidden resource"), ("error", .str "Forbidden"),
    ("statusCode", .num 403)]
  status := .num 403
  getStatus := some (.num 403)
  getResponse := some (.obj [("message", .str "Forbidden resource"), ("error", .str "Forbidden"),
    ("statusCode", .num 403)])

/-- An error that is not an `HttpException`. -/
def plainError (message : String) : JsError where
  message
  stack := some ("Error: " ++ message)
  response := .undefined
  status := .undefined
  getStatus := none
  getResponse := none

def PassPortJwtAuthService.getLoginUser (db : Option (Tables P)) (userId : String) :
    Option PassportUserResultDto := do
  let db ← db
  let u ← db.tUser.find? (·.userId = userId)
  let s ← db.tState.find? (P.collate ·.stateId = P.collate u.stateId)
  let authId ← db.tAuth.find? (P.collate · = P.collate u.authId)
  if s.isLoginAble = 1 then
    return { userId := u.userId, loginId := u.loginId, name := u.name, nickname := u.nickname,
             authId, stateId := s.stateId, isLoginAble := s.isLoginAble }
  else none

/-- A guard leaves the user it has found on the request. -/
abbrev Guard (P : Crypto) :=
  Credentials P → Option PassportUserResultDto → Except JsError (Option PassportUserResultDto)

def PassportJwtAuthStrategy.validate (c : Credentials P) (payload : JwtPayload) :
    Except JsError PassportUserResultDto :=
  if payload.type = some "access" then
    match PassPortJwtAuthService.getLoginUser c.db (payload.userId.getD "") with
    | some user => .ok user
    | none => .error unauthorizedException
  else .error unauthorizedException

def PassportJwtAuthGuard : Guard P := fun c _ =>
  match c.payload with
  | some payload => (PassportJwtAuthStrategy.validate c payload).map some
  | none => .error unauthorizedException

/-- `requiredAuths` is missing when the handler has no roles. -/
def RolesGuard (requiredAuths : Option (List String)) : Guard P := fun _ user =>
  match requiredAuths with
  | none => .ok user
  | some auths =>
    match user with
    | some u => if auths.any (· = u.authId) then .ok user else .error forbiddenException
    | none =>
      if auths.isEmpty then .error forbiddenException
      else .error (plainError "Cannot read properties of undefined (reading 'auth_id')")

/-! ## Routes -/

/-- A handler of a controller: its guards, its `@HttpCode` and the metadata of its path. -/
structure Route (P : Crypto) where
  controllerPath : PathMeta
  handlerPath : PathMeta
  guards : List (Guard P)
  httpCode : Nat

namespace UserController

def adminCreate : Route P where
  controllerPath := .one "/api/v1/user"
  handlerPath := .one "/admin/create"
  guards := [PassportJwtAuthGuard, RolesGuard (some ["ADMIN", "SUPER_ADMIN"])]
  httpCode := 204

def signIn : Route P where
  controllerPath := .one "/api/v1/user"
  handlerPath := .one "/sign-in"
  guards := []
  httpCode := 200

def refresh : Route P where
  controllerPath := .one "/api/v1/user"
  handlerPath := .one "/refresh"
  guards := []
  httpCode := 200

end UserController

end NestHarness
