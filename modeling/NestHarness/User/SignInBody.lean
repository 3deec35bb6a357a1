import NestHarness.User.Service
import NestHarness.User.Validation

/-!
# Sign-ins with any values

`UserService.signIn` on the bodies that the decorators admit, whose fields need not be texts: a
number, a list or an object passes them as well, and becomes a part of the SQL. What MySQL makes of
it there is a parameter. On texts the method is the one of the service.
-/

namespace NestHarness

open Txn UserRepository UserService
open Js (Value)

variable {P : Crypto}

/-- What MySQL makes of values that are no texts. They come to the statement as literals: a number
or a truth value as it stands, an object as its text, the elements of a list with commas between
them. So what a statement writes of them depends on no row. A device column that becomes `NULL` is
taken for an empty one. -/
structure Driver where
  /-- What `findOne({login_id})` finds in the rows of `t_user`, `none` when the statement is
  refused. -/
  find : Value → List UserEntity → Option (Option UserEntity)
  /-- The device columns that an `UPDATE` writes, `none` when the statement is refused. -/
  update : Value → Value → Option UserPatch
  /-- Those that an `INSERT` writes. -/
  insert : Value → Value → Option UserPatch
  find_mem : ∀ {v rows user}, find v rows = some (some user) → user ∈ rows

namespace Driver

variable (D : Driver)

/-- `update` for any values: texts are written as they are. -/
def updatePatch (os token : Value) : Option UserPatch :=
  match os.textOf, token.textOf with
  | some os, some token => some ⟨os, token⟩
  | _, _ => D.update os token

def insertPatch (os token : Value) : Option UserPatch :=
  match os.textOf, token.textOf with
  | some os, some token => some ⟨os, token⟩
  | _, _ => D.insert os token

/-- `find` for any value. -/
def lookup (d : Tables P) (loginId : Value) : Option (Option UserEntity) :=
  match loginId.textOf with
  | some loginId => some (d.tUser.find? (UserWhere.matches P ⟨loginId⟩))
  | none => D.find loginId d.tUser

theorem lookup_mem {d : Tables P} {loginId : Value} {user : UserEntity}
    (h : D.lookup d loginId = some (some user)) : user ∈ d.tUser := by
  unfold lookup at h
  split at h
  · exact List.mem_of_find?_eq_some (Option.some.inj h)
  · exact D.find_mem h

end Driver

/-! ## The method -/

/-- The exceptions of a failed `findOne`, `update` and `insertSession`. -/
def findError : Exn :=
  internalServerErrorException "사용자 조회에 실패했습니다. 관리자에게 문의해주세요."

def updateError : Exn :=
  internalServerErrorException "사용자 수정에 실패했습니다. 관리자에게 문의해주세요."

def sessionError : Exn :=
  internalServerErrorException "세션 등록에 실패했습니다. 관리자에게 문의해주세요."

/-- `!!(dto.device_os && dto.device_token)`, as the values that are written when it holds. -/
def SignInBody.mobile (body : SignInBody) : Option (Value × Value) :=
  if body.deviceOs.truthy && body.deviceToken.truthy then some (body.deviceOs, body.deviceToken)
  else none

namespace UserService

/-- `findOne({login_id})`. -/
def findLogin (D : Driver) (loginId : Value) : UserProg P (Option UserEntity) :=
  match loginId.textOf with
  | some loginId => findOne { loginId }
  | none => do
    match D.find loginId (← queryOr "사용자 조회에 실패했습니다. 관리자에게 문의해주세요." .users) with
    | some user => return user
    | none => throw findError

/-- `matchBcrypt(dto.login_pw, user.login_pw)`, whose second comparison has the password for a
hash. -/
def matchPassword (loginPw : Value) (hash : String) : UserProg P Bool :=
  match loginPw.textOf with
  | some loginPw => return P.matchBcrypt loginPw hash
  | none => throw (.error "data must be a string or Buffer and hash must be a string")

def signInBody (D : Driver) (body : SignInBody) (ip : Option String) :
    UserProg P (UserSignInResultDto P) := do
  match ← findLogin D body.loginId with
  | none => throw (invalid "login_id" "아이디 또는 비밀번호가 올바르지 않습니다.")
  | some user =>
    if !(← matchPassword body.loginPw user.loginPw) then
      throw (invalid "login_id" "아이디 또는 비밀번호가 올바르지 않습니다.")
    else
      let state ← findOneState { stateId := user.stateId }
      if !state.any (·.isLoginAble = 1) then
        throw (invalid "login_id" "로그인이 제한된 계정입니다.")
      else
        match body.mobile with
        | none => openSession user none ip
        | some (os, token) =>
          match D.updatePatch os token with
          | none => throw updateError
          | some patch =>
            update user.userId patch
            match D.insertPatch os token with
            | some patch => openSession user (some patch) ip
            | none =>
              -- the statement is refused once the session id has been drawn
              let _ ← randomText
              throw sessionError

end UserService

/-! ## Texts -/

/-- The body with the texts of a `UserSignInDto`. -/
def UserSignInDto.body (dto : UserSignInDto) : SignInBody where
  loginId := .str dto.loginId
  loginPw := .str dto.loginPw
  deviceOs := dto.deviceOs.elim .undefined .str
  deviceToken := dto.deviceToken.elim .undefined .str

theorem UserSignInDto.mobile_body (dto : UserSignInDto) :
    dto.body.mobile = (mobilePatch dto).map fun p => (.str p.deviceOs, .str p.deviceToken) := by
  obtain ⟨_, _, os, token⟩ := dto
  cases os with
  | none => rfl
  | some os =>
    cases token with
    | none => simp [SignInBody.mobile, UserSignInDto.body, mobilePatch, Value.truthy]
    | some token =>
      by_cases hos : os = "" <;> by_cases htoken : token = "" <;>
        simp [SignInBody.mobile, UserSignInDto.body, mobilePatch, Value.truthy, hos, htoken]

/-- **On texts** the method is `UserService.signIn`. -/
theorem signInBody_body (D : Driver) (dto : UserSignInDto) (ip : Option String) :
    (signInBody D dto.body ip : UserProg P _) = signIn dto ip := by
  unfold signInBody signIn
  refine congrArg (Prog.bind _) (funext fun user => ?_)
  cases user with
  | none => rfl
  | some user =>
    change (if !P.matchBcrypt dto.loginPw user.loginPw then _ else _) = ite _ _ _
    refine ite_congr rfl (fun _ => rfl) fun _ => ?_
    refine congrArg (Prog.bind _) (funext fun state => ?_)
    refine ite_congr rfl (fun _ => rfl) fun _ => ?_
    rw [dto.mobile_body]
    cases mobilePatch dto <;> rfl

end NestHarness
