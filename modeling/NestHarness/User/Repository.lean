import NestHarness.User.Database

/-!
# The user repository

`UserRepository`: each method is one TypeORM call and the translation of its failure into an
exception. A duplicate-key error has errno 1062 and a message that names the violated constraint.
-/

namespace NestHarness

open Txn

variable {P : Crypto}

abbrev UserProg (P : Crypto) (α : Type) := Prog (effect (schema P)) Exn α

/-- `error.errno`; a lost connection has none. -/
def errno : DbError (UserKey P) → Option Nat
  | .duplicate _ => some 1062
  | .refused n => some n
  | .lost => none

/-- `error.sqlMessage.indexOf(name) !== -1`: MySQL names exactly one violated constraint. -/
def sqlMessageNames : DbError (UserKey P) → String → Bool
  | .duplicate k, name => k.constraintName = name
  | _, _ => false

/-- `error.errno === 1062 && error.sqlMessage.indexOf(name) !== -1`. -/
def isDuplicate (error : DbError (UserKey P)) (name : String) : Bool :=
  errno error = some 1062 && sqlMessageNames error name

/-- A query whose failure becomes an internal server error. -/
def queryOr (message : String) (q : UserQuery P) : UserProg P q.Answer := do
  match ← Prog.perform (E := effect (schema P)) (.query q) with
  | .ok row => return row
  | .error _ => throw (internalServerErrorException message)

/-- A row change whose failure the repository translates. -/
def writeOr (translate : DbError (UserKey P) → Exn) (w : UserWrite P) : UserProg P Unit := do
  match ← Prog.perform (E := effect (schema P)) (.write w) with
  | .ok () => return ()
  | .error error => throw (translate error)

namespace UserRepository

def findOne (c : UserWhere) : UserProg P (Option UserEntity) :=
  queryOr "사용자 조회에 실패했습니다. 관리자에게 문의해주세요." (.user c)

def insert (entity : UserEntity) : UserProg P Unit :=
  writeOr (fun error =>
    if isDuplicate error "UK_User_LoginId" then
      badRequestException { message := "중복된 로그인 ID가 존재합니다." }
    else internalServerErrorException "사용자 등록에 실패했습니다. 관리자에게 문의해주세요.")
    (.insertUser entity)

def update (userId : String) (patch : UserPatch) : UserProg P Unit :=
  writeOr (fun _ =>
    internalServerErrorException "사용자 수정에 실패했습니다. 관리자에게 문의해주세요.")
    (.updateUser userId patch)

def findOneState (c : StateWhere) : UserProg P (Option StateEntity) :=
  queryOr "상태 조회에 실패했습니다. 관리자에게 문의해주세요." (.state c)

def findOneSession (c : SessionWhere) : UserProg P (Option SessionEntity) :=
  queryOr "세션 조회에 실패했습니다. 관리자에게 문의해주세요." (.session c)

def findOneSessionRefresh (c : SessionRefreshWhere P) :
    UserProg P (Option (SessionRefreshEntity P)) :=
  queryOr "refresh 토큰 조회에 실패했습니다. 관리자에게 문의해주세요." (.sessionRefresh c)

def insertSession (entity : SessionEntity) : UserProg P Unit :=
  writeOr (fun error =>
    if isDuplicate error "PK_Session" then
      badRequestException { message := "중복된 세션 ID가 존재합니다." }
    else internalServerErrorException "세션 등록에 실패했습니다. 관리자에게 문의해주세요.")
    (.insertSession entity)

/-- The exception of a failed insert into `t_session_refresh`; `refresh_hash` is tested first. -/
def sessionRefreshError (error : DbError (UserKey P)) : Exn :=
  if isDuplicate error "UK_SessionRefresh_RefreshHash" then
    badRequestException { message := "중복된 refresh token 이 존재합니다." }
  else if isDuplicate error "UK_SessionRefresh_BeforeRefreshHash" then
    badRequestException
      { message := "이미 회전된 refresh token 입니다.", errorCode := "REFRESH_ALREADY_ROTATED" }
  else internalServerErrorException "refresh 토큰 등록에 실패했습니다. 관리자에게 문의해주세요."

def insertSessionRefresh (entity : SessionRefreshEntity P) : UserProg P Unit :=
  writeOr sessionRefreshError (.insertSessionRefresh entity)

end UserRepository

end NestHarness
