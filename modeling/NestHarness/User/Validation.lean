import NestHarness.Lib.Js
import NestHarness.User.Entities

/-!
# The validators of the request bodies

The `class-validator` decorators of `AdminUserCreateDto` and `UserSignInDto`, with their messages.
The fields of an `AdminUserCreateDto` are texts here, so that `IsString` always holds; `null` and a
missing field are alike for `IsOptional`.
-/

namespace NestHarness

open Js (Value)

/-! ## Texts -/

/-- A variation selector. -/
def isSelector (c : Char) : Bool := c = '\uFE0E' || c = '\uFE0F'

/-- The length that `isLength` measures: a selector after another character does not count. -/
def isLength : List Char → Nat
  | [] => 0
  | [_] => 1
  | c :: c' :: cs =>
    if !isSelector c && isSelector c' then isLength cs + 1 else isLength (c' :: cs) + 1

theorem isLength_eq {cs : List Char} (h : ∀ c ∈ cs, isSelector c = false) :
    isLength cs = cs.length := by
  induction cs with
  | nil => rfl
  | cons c cs ih =>
    have ih := ih fun c hc => h c (List.mem_cons_of_mem _ hc)
    cases cs with
    | nil => rfl
    | cons c' cs =>
      have hc' : isSelector c' = false := h c' (by simp)
      simpa [isLength, hc'] using ih

/-- The regular expression `^[…]+$` for a class of characters. -/
def matchesAll (cls : Char → Bool) (s : String) : Bool := s ≠ "" && s.toList.all cls

def inRange (a b c : Char) : Bool := a ≤ c && c ≤ b

/-- `[a-z0-9]` -/
def loginIdClass (c : Char) : Bool := inRange 'a' 'z' c || inRange '0' '9' c

/-- `[가-힣a-zA-Z]` -/
def nameClass (c : Char) : Bool := inRange '가' '힣' c || inRange 'a' 'z' c || inRange 'A' 'Z' c

/-- `[가-힣a-zA-Z0-9]` -/
def nicknameClass (c : Char) : Bool := nameClass c || inRange '0' '9' c

theorem isSelector_inRange {a b c : Char} (h : inRange a b c = true) (hb : b < '\uFE0E') :
    isSelector c = false := by
  rw [inRange, Bool.and_eq_true, decide_eq_true_iff, decide_eq_true_iff] at h
  have hc : c < '\uFE0E' := Char.not_le.mp fun hle =>
    Char.not_le.mpr hb (Char.le_trans hle h.2)
  have hne : c ≠ '\uFE0E' := Char.ne_of_lt hc
  have hne' : c ≠ '\uFE0F' := Char.ne_of_lt (Char.lt_trans hc (by decide))
  simp [isSelector, hne, hne']

theorem isSelector_loginId {c : Char} (h : loginIdClass c = true) : isSelector c = false := by
  rcases Bool.or_eq_true_iff.mp h with h | h
  · exact isSelector_inRange h (by decide)
  · exact isSelector_inRange h (by decide)

theorem isSelector_name {c : Char} (h : nameClass c = true) : isSelector c = false := by
  rw [nameClass, Bool.or_eq_true, Bool.or_eq_true] at h
  rcases h with (h | h) | h
  · exact isSelector_inRange h (by decide)
  · exact isSelector_inRange h (by decide)
  · exact isSelector_inRange h (by decide)

theorem isSelector_nickname {c : Char} (h : nicknameClass c = true) : isSelector c = false := by
  rcases Bool.or_eq_true_iff.mp h with h | h
  · exact isSelector_name h
  · exact isSelector_inRange h (by decide)

/-! ## Decorators -/

/-- One decorator on a field: its key in `constraints`, its message and whether the field meets
it. -/
structure Constraint where
  type : String
  message : String
  ok : Bool

def isNotEmpty (value : Value) (message : String) : Constraint :=
  ⟨"isNotEmpty", message, !value.nullish && value.textOf ≠ some ""⟩

def minLength (value : String) (min : Nat) (message : String) : Constraint :=
  ⟨"minLength", message, min ≤ isLength value.toList⟩

def maxLength (value : String) (max : Nat) (message : String) : Constraint :=
  ⟨"maxLength", message, isLength value.toList ≤ max⟩

def fieldMatches (value : String) (cls : Char → Bool) (message : String) : Constraint :=
  ⟨"matches", message, matchesAll cls value⟩

/-- The `ValidationError` of a field: its name and the constraints it violates. -/
structure ValidationError where
  property : String
  constraints : List (String × String)
deriving DecidableEq

/-- The decorators of a field are evaluated, and their constraints listed, from the last to the
first. -/
def validateField (property : String) (checks : List Constraint) : Option ValidationError :=
  if checks.all (·.ok) then none
  else some ⟨property, (checks.reverse.filter (!·.ok)).map fun c => (c.type, c.message)⟩

theorem validateField_eq_none {property : String} {checks : List Constraint} :
    validateField property checks = none ↔ ∀ c ∈ checks, c.ok = true := by
  rw [validateField, ← List.all_eq_true]
  split <;> simp_all

/-- A validation error names the field it is about and a constraint that the field violates. -/
theorem validateField_some {property : String} {checks : List Constraint} {e : ValidationError}
    (h : validateField property checks = some e) :
    e.property = property ∧ e.constraints ≠ [] ∧
      ∀ x ∈ e.constraints, ∃ c ∈ checks, c.ok = false ∧ x = (c.type, c.message) := by
  rw [validateField] at h
  split at h
  · cases h
  · rename_i hall
    cases h
    refine ⟨rfl, ?_, ?_⟩
    · intro hnil
      refine hall (List.all_eq_true.mpr ?_)
      intro c hc
      cases hok : c.ok with
      | true => rfl
      | false =>
        have hmem : c ∈ checks.reverse.filter (!·.ok) :=
          List.mem_filter.mpr ⟨List.mem_reverse.mpr hc, by simp [hok]⟩
        rw [List.map_eq_nil_iff.mp hnil] at hmem
        cases hmem
    · intro x hx
      obtain ⟨c, hc, rfl⟩ := List.mem_map.mp hx
      obtain ⟨hc, hok⟩ := List.mem_filter.mp hc
      exact ⟨c, List.mem_reverse.mp hc, by simpa using hok, rfl⟩

namespace AdminUserCreateDto

def validate (dto : AdminUserCreateDto) : List ValidationError :=
  [validateField "login_id" [
      isNotEmpty (.str dto.loginId) "로그인 ID를 입력해주세요.",
      minLength dto.loginId 6 "로그인 ID는 최소 6자 이상이어야 합니다.",
      maxLength dto.loginId 30 "로그인 ID는 최대 30자까지 입력할 수 있습니다.",
      fieldMatches dto.loginId loginIdClass "로그인 ID는 소문자와 숫자만 사용할 수 있습니다."],
    validateField "login_pw" [
      isNotEmpty (.str dto.loginPw) "비밀번호를 입력해주세요.",
      maxLength dto.loginPw 20 "비밀번호는 최대 20자까지 입력할 수 있습니다."],
    validateField "login_pw2" [
      isNotEmpty (.str dto.loginPw2) "비밀번호 확인을 입력해주세요.",
      maxLength dto.loginPw2 20 "비밀번호 확인은 최대 20자까지 입력할 수 있습니다."],
    validateField "name" [
      isNotEmpty (.str dto.name) "이름을 입력해주세요.",
      minLength dto.name 2 "이름은 최소 2자 이상이어야 합니다.",
      maxLength dto.name 50 "이름은 최대 50자까지 입력할 수 있습니다.",
      fieldMatches dto.name nameClass "이름은 한글과 영문만 사용할 수 있습니다."],
    validateField "nickname" [
      isNotEmpty (.str dto.nickname) "닉네임을 입력해주세요.",
      minLength dto.nickname 2 "닉네임은 최소 2자 이상이어야 합니다.",
      maxLength dto.nickname 50 "닉네임은 최대 50자까지 입력할 수 있습니다.",
      fieldMatches dto.nickname nicknameClass
        "닉네임은 한글, 영문, 숫자만 사용할 수 있습니다."],
    validateField "auth_id" [isNotEmpty (.str dto.authId) "권한 ID를 입력해주세요."]].filterMap id

end AdminUserCreateDto

/-- The body of a sign-in. No decorator of `UserSignInDto` asks for a text, so that its fields can
have any values; a missing field is `undefined`. -/
structure SignInBody where
  loginId : Value
  loginPw : Value
  deviceOs : Value
  deviceToken : Value

/-- The decorators of `UserSignInDto`. -/
def SignInBody.validate (body : SignInBody) : List ValidationError :=
  [validateField "login_id" [isNotEmpty body.loginId "아이디를 입력해주세요."],
    validateField "login_pw" [isNotEmpty body.loginPw "비밀번호를 입력해주세요."]].filterMap id

/-- A text of a class without selectors that meets `maxLength` has at most as many characters. -/
theorem length_le {s : String} {cls : Char → Bool} {max : Nat} {m m' : String}
    (hcls : ∀ {c}, cls c = true → isSelector c = false) (hmax : (maxLength s max m).ok = true)
    (hmatch : (fieldMatches s cls m').ok = true) : s.length ≤ max := by
  have hall : ∀ c ∈ s.toList, cls c = true := by
    rw [fieldMatches, matchesAll, Bool.and_eq_true, List.all_eq_true] at hmatch
    exact hmatch.2
  have hlength : isLength s.toList ≤ max := by simpa [maxLength] using hmax
  rwa [isLength_eq fun c hc => hcls (hall c hc), String.length_toList] at hlength

/-- The columns that validation bounds. -/
structure AdminUserCreateDto.Fits (dto : AdminUserCreateDto) : Prop where
  loginId : dto.loginId.length ≤ 30
  name : dto.name.length ≤ 50
  nickname : dto.nickname.length ≤ 50

/-- **Admitted texts fit the columns** of the login id, the name and the nickname. -/
theorem AdminUserCreateDto.fits {dto : AdminUserCreateDto} (h : dto.validate = []) : dto.Fits := by
  simp only [validate, List.filterMap_eq_nil_iff, List.forall_mem_cons, id_eq,
    validateField_eq_none] at h
  obtain ⟨⟨_, _, hid, hidClass, _⟩, _, _, ⟨_, _, hname, hnameClass, _⟩,
    ⟨_, _, hnick, hnickClass, _⟩, _⟩ := h
  exact {
    loginId := length_le isSelector_loginId hid hidClass
    name := length_le isSelector_name hname hnameClass
    nickname := length_le isSelector_nickname hnick hnickClass }

end NestHarness
