import NestHarness.User.Repository

/-!
# The user service

`UserService`: `adminCreate`, `signIn` and `refresh`, each the body of one transaction. Reading a
clock, drawing random text and every repository call are operations of the program, so that the
calls of other transactions can fall between any two of them.
-/

namespace NestHarness

open Txn UserRepository

variable {P : Crypto}

/-- `Date.now()`. -/
def dateNow : UserProg P Nat := Prog.perform (E := effect (schema P)) .now

/-- Random text: a uuid without its dashes, an IV or a salt. -/
def randomText : UserProg P String := Prog.perform (E := effect (schema P)) .random

/-- A helper that throws an `Error` of its own. -/
def ofExcept : Except String α → UserProg P α
  | .ok a => pure a
  | .error message => throw (.error message)

/-- `jwtService.sign(claims, {expiresIn})`. -/
def jwtSign (claims : JwtPayload) (expiresIn : Nat) : UserProg P P.Token := do
  return P.sign claims expiresIn (← dateNow)

def encryptAesGcm (plain : P.Token) : UserProg P P.Cipher := do
  return P.encryptAesGcm (← randomText) plain

namespace UserService

def adminCreate (dto : AdminUserCreateDto) : UserProg P Unit := do
  if dto.loginPw ≠ dto.loginPw2 then
    throw (invalid "login_pw2" "비밀번호가 일치하지 않습니다.")
  else
    match ← findOne { loginId := dto.loginId } with
    | some _ => throw (invalid "login_id" "이미 사용 중인 로그인 ID입니다.")
    | none =>
      let userId ← randomText
      let loginPw := P.getBcrypt (← randomText) dto.loginPw
      insert {
        userId, loginId := dto.loginId, loginPw, name := dto.name, nickname := dto.nickname,
        authId := dto.authId, stateId := "ACTIVE", positionId := dto.positionId,
        deviceOs := none, deviceToken := none }

/-- `!!(dto.device_os && dto.device_token)`, as the patch that is written when it holds. -/
def mobilePatch (dto : UserSignInDto) : Option UserPatch :=
  match dto.deviceOs, dto.deviceToken with
  | some os, some token => if os ≠ "" ∧ token ≠ "" then some ⟨os, token⟩ else none
  | _, _ => none

/-- Open a session of the user: the row of `t_session`, the tokens and the chain's first row. -/
def openSession (user : UserEntity) (patch : Option UserPatch) (ip : Option String) :
    UserProg P (UserSignInResultDto P) := do
  let sessionId ← randomText
  insertSession {
    sessionId, userId := user.userId, ip := if truthy ip then ip else none,
    deviceOs := patch.map (·.deviceOs), deviceToken := patch.map (·.deviceToken), isDelete := 0 }
  let accessToken ← jwtSign (accessClaims user.userId sessionId) accessExpiresIn
  let refreshToken ← jwtSign (refreshClaims user.userId sessionId) refreshExpiresIn
  let accessExpiresAt ← ofExcept (P.extractJwtExpiresAt accessToken)
  let refreshExpiresAt ← ofExcept (P.extractJwtExpiresAt refreshToken)
  let refreshEncrypted ← encryptAesGcm refreshToken
  insertSessionRefresh {
    sessionId, refreshHash := P.sha256Hex refreshToken, refreshEncrypted,
    beforeRefreshHash := none, endAt := refreshExpiresAt }
  return { accessToken, accessExpiresAt, refreshToken, refreshExpiresAt }

def signIn (dto : UserSignInDto) (ip : Option String) : UserProg P (UserSignInResultDto P) := do
  match ← findOne { loginId := dto.loginId } with
  | none => throw (invalid "login_id" "아이디 또는 비밀번호가 올바르지 않습니다.")
  | some user =>
    if !P.matchBcrypt dto.loginPw user.loginPw then
      throw (invalid "login_id" "아이디 또는 비밀번호가 올바르지 않습니다.")
    else
      let state ← findOneState { stateId := user.stateId }
      if !state.any (·.isLoginAble = 1) then
        throw (invalid "login_id" "로그인이 제한된 계정입니다.")
      else
        let patch := mobilePatch dto
        patch.forM (update user.userId)
        openSession user patch ip

/-- The claims of a presented refresh token. -/
def verifyRefresh (dto : UserRefreshDto P) : UserProg P JwtPayload := do
  match P.verify dto.refreshToken (← dateNow) with
  | .error .tokenExpired => throw (invalid "refresh_token" "refresh token 이 만료되었습니다.")
  | .error .invalid => throw (invalid "refresh_token" "refresh token 이 유효하지 않습니다.")
  | .ok payload =>
    if payload.type ≠ some "refresh" ∨ !truthy payload.userId ∨ !truthy payload.sessionId then
      throw (invalid "refresh_token" "refresh token 이 유효하지 않습니다.")
    else return payload

/-- The presented token is stored and not expired by the database clock, and its session is live
and, when the request has an ip, has the same ip. -/
def validateAndLoadSession (oldHash : P.Hash) (ip : Option String) (sessionId : String) :
    UserProg P SessionEntity := do
  let submitted ← findOneSessionRefresh { refreshHash := oldHash, endAtAfterNow := true }
  let sessionWhere := { sessionId, isDelete := 0, ip := if truthy ip then ip else none }
  let session ← match submitted with
    | some _ => findOneSession sessionWhere
    | none => pure none
  match session with
  | some session => return session
  | none => throw (invalid "refresh_token" "refresh token 이 유효하지 않습니다.")

/-- The idempotent reply: the token that was already issued, with a new access token. -/
def replyRotated (oldHash : P.Hash) (ip : Option String) (rotated : SessionRefreshEntity P) :
    UserProg P (UserRefreshResultDto P) := do
  let session ← validateAndLoadSession oldHash ip rotated.sessionId
  let access ← jwtSign (accessClaims session.userId session.sessionId) accessExpiresIn
  let accessExpiresAt ← ofExcept (P.extractJwtExpiresAt access)
  let refreshToken ← ofExcept (P.decryptAesGcm rotated.refreshEncrypted)
  return { accessToken := access, accessExpiresAt, refreshToken, refreshExpiresAt := rotated.endAt }

/-- The first exchange: sign the next token and insert its row, or answer as the loser of a race. -/
def firstExchange (oldHash : P.Hash) (ip : Option String) (session : SessionEntity) :
    UserProg P (UserRefreshResultDto P) := do
  let accessToken ← jwtSign (accessClaims session.userId session.sessionId) accessExpiresIn
  let refreshToken ← jwtSign (refreshClaims session.userId session.sessionId) refreshExpiresIn
  let refreshExpiresAt ← ofExcept (P.extractJwtExpiresAt refreshToken)
  let refreshEncrypted ← encryptAesGcm refreshToken
  match ← (insertSessionRefresh {
      sessionId := session.sessionId, refreshHash := P.sha256Hex refreshToken, refreshEncrypted,
      beforeRefreshHash := oldHash, endAt := refreshExpiresAt }).attempt with
  | .ok () =>
    let accessExpiresAt ← ofExcept (P.extractJwtExpiresAt accessToken)
    return { accessToken, accessExpiresAt, refreshToken, refreshExpiresAt }
  | .error error =>
    if error.errorCode = some "REFRESH_ALREADY_ROTATED" then
      match ← findOneSessionRefresh { beforeRefreshHash := oldHash } with
      | some winner => replyRotated oldHash ip winner
      | none => throw error
    else throw error

def refresh (dto : UserRefreshDto P) (ip : Option String) :
    UserProg P (UserRefreshResultDto P) := do
  let payload ← verifyRefresh dto
  let oldHash := P.sha256Hex dto.refreshToken
  match ← findOneSessionRefresh { beforeRefreshHash := oldHash } with
  | some existing => replyRotated oldHash ip existing
  | none =>
    let session ← validateAndLoadSession oldHash ip (payload.sessionId.getD "")
    firstExchange oldHash ip session

end UserService

/-! ## The service -/

inductive UserRequest (P : Crypto)
  | adminCreate (dto : AdminUserCreateDto)
  | signIn (dto : UserSignInDto) (ip : Option String)
  | refresh (dto : UserRefreshDto P) (ip : Option String)

inductive UserReply (P : Crypto)
  | created
  | signedIn (result : UserSignInResultDto P)
  | refreshed (result : UserRefreshResultDto P)

def serveUser : UserRequest P → UserProg P (UserReply P)
  | .adminCreate dto => do UserService.adminCreate dto; return .created
  | .signIn dto ip => return .signedIn (← UserService.signIn dto ip)
  | .refresh dto ip => return .refreshed (← UserService.refresh dto ip)

variable (P) in
/-- A call whose process or connection dies is answered, if at all, by the generic error. -/
abbrev userService : Service (schema P) where
  Req := UserRequest P
  Exn := Exn
  Reply := UserReply P
  serve := serveUser
  crashed := internalServerErrorException "요청이 실패했습니다. 관리자에게 문의해주세요."

end NestHarness
