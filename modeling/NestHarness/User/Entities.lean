import NestHarness.User.Crypto

/-!
# Entities, requests and exceptions of the user module

Columns that no modelled function reads or checks are left out: the timestamps `create_at`,
`update_at`, `resign_at`, `login_at`, `logout_at` and the generated `session_refresh_id`. A date is
a number of milliseconds, and `null` is `none`.
-/

namespace NestHarness

variable (P : Crypto)

/-! ## Entities -/

structure StateEntity where
  stateId : String
  isLoginAble : Nat
deriving DecidableEq

structure UserEntity where
  userId : String
  authId : String
  stateId : String
  positionId : Option String
  loginId : String
  loginPw : String
  name : String
  nickname : String
  deviceOs : Option String
  deviceToken : Option String
deriving DecidableEq

structure SessionEntity where
  sessionId : String
  userId : String
  ip : Option String
  deviceOs : Option String
  deviceToken : Option String
  isDelete : Nat
deriving DecidableEq

structure SessionRefreshEntity where
  sessionId : String
  refreshHash : P.Hash
  refreshEncrypted : P.Cipher
  beforeRefreshHash : Option P.Hash
  endAt : Nat

/-! ## Requests and results -/

structure AdminUserCreateDto where
  loginId : String
  loginPw : String
  loginPw2 : String
  name : String
  nickname : String
  authId : String
  positionId : Option String

structure UserSignInDto where
  loginId : String
  loginPw : String
  deviceOs : Option String
  deviceToken : Option String

structure UserSignInResultDto where
  accessToken : P.Token
  accessExpiresAt : Nat
  refreshToken : P.Token
  refreshExpiresAt : Nat

structure UserRefreshDto where
  refreshToken : P.Token

structure UserRefreshResultDto where
  accessToken : P.Token
  accessExpiresAt : Nat
  refreshToken : P.Token
  refreshExpiresAt : Nat

/-- Truthiness of an optional string: neither missing nor empty. -/
def truthy (s : Option String) : Bool := s.any (· ≠ "")

theorem truthy_iff {s : Option String} : truthy s = true ↔ ∃ v, s = some v ∧ v ≠ "" := by
  cases s <;> simp [truthy]

/-! ## Exceptions -/

structure ValidationErrorDto where
  type : String
  property : String
  message : String
deriving DecidableEq

/-- The `response` of an `HttpException`. -/
structure ErrorBody where
  message : String
  validationErrors : Option (List ValidationErrorDto) := none
  errorCode : Option String := none
deriving DecidableEq

/-- What a service method throws: an `HttpException`, or another `Error` with its message. -/
inductive Exn
  | http (status : Nat) (response : ErrorBody)
  | error (message : String)
deriving DecidableEq

def createValidationError (property message : String) : List ValidationErrorDto :=
  [{ type := "isBoolean", property, message }]

/-- `new BadRequestException(response)`. -/
def badRequestException (response : ErrorBody) : Exn := .http 400 response

def internalServerErrorException (message : String) : Exn := .http 500 { message }

/-- The exception the service throws for a field of the request. -/
def invalid (property message : String) : Exn :=
  .http 400 { message, validationErrors := createValidationError property message }

/-- `error?.response?.errorCode`. -/
def Exn.errorCode : Exn → Option String
  | .http _ response => response.errorCode
  | .error _ => none

end NestHarness
