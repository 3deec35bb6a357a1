import NestHarness.Lib.TxnTurns
import NestHarness.User.Admission
import NestHarness.User.Provenance

/-!
# The register of accounts

What `adminCreate` and `signIn` are for: a register of accounts that takes one request at a time.
When the two methods take turns, as behind their queue, every run of the service is a run of the
register, although `refresh` runs in between on the same tables.
-/

namespace NestHarness

open Txn UserRepository UserService

variable {P : Crypto} {π : Policy (schema P)} {A : Rely π} {d₀ : Tables P}

/-! ## The register -/

/-- The methods with `@UseQueue`. -/
def UserRequest.isQueued : UserRequest P → Bool
  | .adminCreate _ | .signIn _ _ => true
  | .refresh _ _ => false

/-- What the register answers to a request that it refuses. -/
def refusal (d : Tables P) (accounts : List UserEntity) : UserRequest P → Option Exn
  | .adminCreate dto =>
    if dto.loginPw ≠ dto.loginPw2 then some (invalid "login_pw2" "비밀번호가 일치하지 않습니다.")
    else if (accounts.find? (P.collate ·.loginId = P.collate dto.loginId)).isSome then
      some (invalid "login_id" "이미 사용 중인 로그인 ID입니다.")
    else none
  | .signIn dto _ =>
    match accounts.find? (P.collate ·.loginId = P.collate dto.loginId) with
    | none => some (invalid "login_id" "아이디 또는 비밀번호가 올바르지 않습니다.")
    | some user =>
      if !P.matchBcrypt dto.loginPw user.loginPw then
        some (invalid "login_id" "아이디 또는 비밀번호가 올바르지 않습니다.")
      else if !(d.tState.find? (StateWhere.matches P ⟨user.stateId⟩)).any (·.isLoginAble = 1) then
        some (invalid "login_id" "로그인이 제한된 계정입니다.")
      else none
  | .refresh _ _ => none

/-- The exceptions with which a sign-in ends that the register has let pass. -/
def openErrors : List Exn :=
  [updateError, sessionError, badRequestException { message := "중복된 refresh token 이 존재합니다." },
    internalServerErrorException "refresh 토큰 등록에 실패했습니다. 관리자에게 문의해주세요."]

/-- The exception with which the register fails to enter an account. -/
def entryError : Exn :=
  internalServerErrorException "사용자 등록에 실패했습니다. 관리자에게 문의해주세요."

/-- The register takes a request. `d` has the tables that accounts refer to. -/
inductive Takes (d : Tables P) (faults : Bool) (accounts : List UserEntity) :
    UserRequest P → Except Exn (UserReply P) → List UserEntity → Prop
  | refuses : refusal d accounts q = some e → Takes d faults accounts q (.error e) accounts
  | enters : refusal d accounts (.adminCreate dto) = none → userId ≠ "" → salt ≠ "" →
    userId ∉ accounts.map (·.userId) →
    d.refuse (.insertUser (userRow P dto userId salt)) = none →
    Takes d faults accounts (.adminCreate dto) (.ok .created)
      (accounts ++ [(userRow P dto userId salt).stored])
  /-- The drawn user id is taken, or the row violates a constraint other than a unique key. -/
  | fails : refusal d accounts (.adminCreate dto) = none →
    (userId ∈ accounts.map (·.userId) ∨
      d.refuse (.insertUser (userRow P dto userId salt)) ≠ none) →
    Takes d faults accounts (.adminCreate dto) (.error entryError) accounts
  | opens : refusal d accounts (.signIn dto ip) = none →
    accounts.find? (P.collate ·.loginId = P.collate dto.loginId) = some user →
    reply.refreshToken = refreshTokenAt P user.userId sessionId now →
    Takes d faults accounts (.signIn dto ip) (.ok (.signedIn reply)) accounts
  | opensNot : refusal d accounts (.signIn dto ip) = none → e ∈ openErrors →
    Takes d faults accounts (.signIn dto ip) (.error e) accounts
  | faulted (m : String) : faults = true →
    Takes d faults accounts q (.error (internalServerErrorException m)) accounts

/-! ## Accounts of the register -/

section
variable {d : Tables P} {faults : Bool} {accounts accounts' : List UserEntity}
  {q : UserRequest P} {r : Except Exn (UserReply P)}

/-- The register only adds accounts. -/
theorem Takes.grows (h : Takes d faults accounts q r accounts') : accounts <+: accounts' := by
  cases h with
  | enters => exact List.prefix_append ..
  | refuses | fails | opens | opensNot | faulted => exact List.prefix_rfl

/-- A request for a login id that has an account is told so. -/
theorem Takes.existing {dto : AdminUserCreateDto}
    (h : Takes d faults accounts (.adminCreate dto) r accounts') {u : UserEntity}
    (hu : u ∈ accounts) (hid : P.collate u.loginId = P.collate dto.loginId)
    (hpw : dto.loginPw = dto.loginPw2) :
    r = .error (invalid "login_id" "이미 사용 중인 로그인 ID입니다.") ∨
      faults = true ∧ ∃ m, r = .error (internalServerErrorException m) := by
  have hfound : (accounts.find? (P.collate ·.loginId = P.collate dto.loginId)).isSome = true :=
    List.find?_isSome.mpr ⟨u, hu, decide_eq_true hid⟩
  have hrefusal : refusal (P := P) d accounts (.adminCreate dto) =
      some (invalid "login_id" "이미 사용 중인 로그인 ID입니다.") := by
    rw [refusal, if_neg (not_not.mpr hpw), if_pos hfound]
  cases h with
  | refuses h =>
    cases hrefusal.symm.trans h
    exact .inl rfl
  | enters h | fails h => cases hrefusal.symm.trans h
  | faulted m hfaults => exact .inr ⟨hfaults, m, rfl⟩

/-- A refusal names the field it is about. -/
theorem refusal_invalid {e : Exn} (h : refusal d accounts q = some e) :
    ∃ property message, e = invalid property message := by
  cases q with
  | adminCreate dto =>
    rw [refusal] at h
    split at h
    · cases h
      exact ⟨_, _, rfl⟩
    split at h <;> cases h
    exact ⟨_, _, rfl⟩
  | signIn dto ip =>
    rw [refusal] at h
    split at h
    · cases h
      exact ⟨_, _, rfl⟩
    split at h
    · cases h
      exact ⟨_, _, rfl⟩
    split at h <;> cases h
    exact ⟨_, _, rfl⟩
  | refresh => cases h

/-- No answer of the register comes from the unique key of the login id. -/
theorem Takes.not_duplicate (h : Takes d faults accounts q r accounts')
    (hr : r = .error (badRequestException { message := "중복된 로그인 ID가 존재합니다." })) : False := by
  cases h with
  | refuses h =>
    obtain ⟨property, message, rfl⟩ := refusal_invalid h
    cases hr
  | enters | opens | fails | faulted => cases hr
  | opensNot _ he =>
    cases hr
    simp [openErrors, updateError, sessionError, internalServerErrorException, badRequestException]
      at he

/-- Of the requests for a login id, those after the one that has registered it are told so. -/
theorem created_once {l₁ l₂ : List (UserRequest P × Except Exn (UserReply P))}
    {dto dto' : AdminUserCreateDto}
    (h : Executes (Takes d faults) accounts (l₁ ++ (.adminCreate dto, .ok .created) :: l₂)
      accounts')
    (hr : (.adminCreate dto', r) ∈ l₂) (hid : P.collate dto'.loginId = P.collate dto.loginId)
    (hpw : dto'.loginPw = dto'.loginPw2) :
    r = .error (invalid "login_id" "이미 사용 중인 로그인 ID입니다.") ∨
      faults = true ∧ ∃ m, r = .error (internalServerErrorException m) := by
  rw [List.append_cons] at h
  obtain ⟨accounts₁, hfirst, hrest⟩ := h.split
  -- the account is there from now on
  have hmem : ∃ u ∈ accounts₁, u.loginId = dto.loginId := by
    obtain ⟨l, l', b, b', hl, _, htakes, hlast⟩ := hfirst.mem (List.mem_append_right _
      List.mem_cons_self)
    obtain ⟨u, hu, hlogin⟩ : ∃ u ∈ b', u.loginId = dto.loginId := by
      cases htakes with
      | enters => exact ⟨_, List.mem_append_right _ List.mem_cons_self, rfl⟩
    refine ⟨u, ?_, hlogin⟩
    exact hlast.invariant (I := fun accounts => u ∈ accounts)
      (fun hu htakes => htakes.grows.subset hu) hu
  obtain ⟨u, hu, hlogin⟩ := hmem
  obtain ⟨l, l', b, b', _, hbefore, htakes, _⟩ := hrest.mem hr
  have hub : u ∈ b := hbefore.invariant (I := fun accounts => u ∈ accounts)
    (fun hu htakes => htakes.grows.subset hu) hu
  exact htakes.existing hub ((congrArg P.collate hlogin).trans hid.symm) hpw

end

/-! ## The methods take requests as the register does -/

/-- The tables that accounts refer to are those of the start. -/
def parentRely (π : Policy (schema P)) (d₀ : Tables P) : Rely π where
  inv s := SameParents d₀ s.db
  grow _ _ := True
  refl _ := trivial
  trans _ _ := trivial
  tick h _ := ⟨h, trivial⟩
  edit h _ := ⟨h.trans ⟨rfl, rfl, rfl⟩, trivial⟩

theorem parentRely_keeps (V : Service (schema P)) : (parentRely π d₀).Keeps V := by
  intro q a s₀ s l t _ hi _ _
  exact ⟨hi.trans (accounts_onto t s.db).2, trivial⟩

theorem accounts_edit (e : UserEdit) (d : Tables P) : (d.edit e).accounts = d.accounts := rfl

/-- What a run of a queued method meets: the accounts `accounts`, and the tables they refer to. -/
abbrev turnRely (π : Policy (schema P)) (d₀ : Tables P) (accounts : List UserEntity) : Rely π :=
  (parentRely π d₀).fixing Tables.accounts accounts_edit accounts

variable {accounts : List UserEntity} {s s' : Store (schema P)} {t t' : Tx (schema P)}
  {l : List (Event (schema P))}

theorem ask_user (d : Tables P) (now : Nat) (id : String) :
    d.accounts.find? (P.collate ·.loginId = P.collate id) =
      Option.map UserEntity.account (d.ask now (.user ⟨id⟩)) := by
  rw [Tables.accounts, List.find?_map]
  rfl

/-- A call without row changes to accounts leaves the accounts as they are. -/
theorem accounts_after_only {p : UserProg P α}
    (hp : p.Only (Op.Writes fun w : UserWrite P => w.account = none)) {r : Except Exn α}
    (h : Runs A p s .empty l (.ended r) s' t') : (s'.after t' r).db.accounts = s'.db.accounts := by
  cases r with
  | error e => rfl
  | ok a =>
    have hnone : t'.writes.filterMap UserWrite.account = [] := by
      refine List.filterMap_eq_nil_iff.mpr fun w hw => ?_
      rcases h.writes hp w hw with hw | hw
      · cases hw
      · exact hw
    change (t'.onto s'.db).accounts = _
    rw [(accounts_onto t' s'.db).1, hnone, List.append_nil]

theorem SameParents.refuse_user {d : Tables P} (h : SameParents d₀ d) (u : UserEntity) :
    d.refuse (.insertUser u) = d₀.refuse (.insertUser u) := by
  rw [Tables.refuse, Tables.refuse, h.auth, h.position, h.state]

theorem insertError_eq {e : DbError (UserKey P)}
    (h : ∀ weight, e ≠ .duplicate (.loginId weight)) :
    insertError e = entryError := by
  rw [insertError, if_neg, entryError]
  intro hdup
  cases e with
  | duplicate k =>
    cases k with
    | loginId weight => exact h weight rfl
    | pkUser | pkSession | refreshHash | beforeRefreshHash =>
      simp [isDuplicate, errno, sqlMessageNames, UserKey.constraintName] at hdup
  | refused | lost => simp [isDuplicate, sqlMessageNames] at hdup

/-- The insert of an account whose login id has been found free fails by another constraint. -/
theorem Fails.entry {dto : AdminUserCreateDto} {userId salt : String} {e : DbError (UserKey P)}
    (hi : (turnRely π d₀ accounts).inv s) (ht : t.writes = [])
    (hlogin : P.collate dto.loginId ∉ accounts.map (P.collate ·.loginId))
    (h : Fails π s t (.insertUser (userRow P dto userId salt)) e) :
    insertError e = entryError ∧ (userId ∈ accounts.map (·.userId) ∨
      d₀.refuse (.insertUser (userRow P dto userId salt)) ≠ none ∨ π.faults = true) := by
  obtain ⟨hparents, rfl⟩ := hi
  cases h with
  | duplicate hk htaken =>
    rw [Tx.onto_nil ht] at htaken
    rcases List.mem_cons.mp hk with rfl | hk
    · refine ⟨insertError_eq (by simp), .inl ?_⟩
      by_contra hid
      cases htaken.symm.trans (taken_pkUser.mpr hid)
    · cases List.mem_singleton.mp hk
      cases htaken.symm.trans (taken_loginId.mpr hlogin)
  | refused hn =>
    rw [Tx.onto_nil ht, hparents.refuse_user] at hn
    exact ⟨insertError_eq (by simp), .inr (.inl (by simp [hn]))⟩
  | lost hfaults => exact ⟨insertError_eq (by simp), .inr (.inr hfaults)⟩

/-- `adminCreate` takes its request as the register does. -/
theorem adminCreate_takes {dto : AdminUserCreateDto} {r : Except Exn Unit}
    (h : Runs (turnRely π d₀ accounts) (UserService.adminCreate dto) s .empty l (.ended r) s' t')
    (hi : (turnRely π d₀ accounts).inv s') :
    Takes d₀ π.faults accounts (.adminCreate dto) (r.map fun _ => .created)
      (s'.after t' r).db.accounts := by
  have hunchanged {e : Exn} (he : r = .error e) : (s'.after t' r).db.accounts = accounts := by
    rw [he]
    exact hi.2
  rw [UserService.adminCreate] at h
  split at h
  · rename_i hpw
    obtain ⟨_, rfl, _⟩ := Runs.ended_inv (.error _) h
    rw [hunchanged rfl]
    exact .refuses (by rw [refusal, if_pos hpw])
  rename_i hpw
  rcases queryOr_bind h with ⟨s₁, l₁, rfl, _, hi₁, h₁⟩ | ⟨hfaults, m, rfl⟩
  swap
  · rw [hunchanged rfl]
    exact .faulted m hfaults
  rw [seen_empty] at h₁
  have hfind := ask_user s₁.db s₁.clock dto.loginId
  rw [hi₁.2] at hfind
  cases hu : s₁.db.ask s₁.clock (.user ⟨dto.loginId⟩) with
  | some user =>
    rw [hu] at h₁ hfind
    obtain ⟨_, rfl, _⟩ := Runs.ended_inv (.error _) h₁
    rw [hunchanged rfl]
    refine .refuses ?_
    rw [refusal, if_neg hpw, hfind]
    rfl
  | none =>
    rw [hu] at h₁ hfind
    have hpass : refusal d₀ accounts (.adminCreate dto) = none := by
      rw [refusal, if_neg hpw, hfind]
      rfl
    have hlogin : P.collate dto.loginId ∉ accounts.map (P.collate ·.loginId) := by
      intro hmem
      obtain ⟨u, hmem, hid⟩ := List.mem_map.mp hmem
      exact absurd (decide_eq_true hid) (List.find?_eq_none.mp hfind u hmem)
    obtain ⟨userId, s₂, l₂, rfl, hne, _, _, h₂⟩ := randomText_bind h₁
    obtain ⟨salt, s₃, l₃, rfl, hsalt, _, _, h₃⟩ := randomText_bind h₂
    rw [← Prog.bind_ret (UserRepository.insert _)] at h₃
    rcases writeOr_run h₃ with ⟨s₄, l₄, rfl, _, hi₄, hacc, h₄⟩ | ⟨e, s₄, rfl, _, hi₄, hf, rfl⟩
    · obtain ⟨_, rfl, rfl, _⟩ := Runs.ended_inv (.ok ()) h₄
      have hadds := (accounts_onto
        ({ Tx.empty.opened s₁.db with writes := [.insertUser (userRow P dto userId salt)] } :
          Tx (schema P)) s'.db).1
      obtain ⟨hrefuse, hfree⟩ := hacc
      rw [Tx.onto_nil rfl] at hrefuse hfree
      have hid := taken_pkUser.mp (hfree (.pkUser userId) (by simp [UserWrite.keys]))
      rw [hi₄.2] at hid
      rw [hi₄.1.refuse_user] at hrefuse
      change Takes d₀ π.faults accounts _ _ (Tables.accounts _)
      rw [hi.2] at hadds
      refine (congrArg (Takes d₀ π.faults accounts _ _) hadds).mpr ?_
      exact .enters hpass hne hsalt hid hrefuse
    · obtain ⟨he, hreason⟩ := hf.entry hi₄ rfl hlogin
      rw [hunchanged rfl]
      change Takes _ _ _ _ (.error (insertError e)) _
      rw [he]
      have hreason : (userId ∈ accounts.map (·.userId) ∨
          d₀.refuse (.insertUser (userRow P dto userId salt)) ≠ none) ∨ π.faults = true :=
        or_assoc.mpr hreason
      rcases hreason with hreason | hfaults
      · exact .fails hpass hreason
      · exact .faulted _ hfaults

/-- No duplicate is one of `PK_Session`: MySQL names primary keys `PRIMARY`. -/
theorem sessionError_mem (e : DbError (UserKey P)) :
    (if isDuplicate e "PK_Session" then badRequestException { message := "중복된 세션 ID가 존재합니다." }
      else internalServerErrorException "세션 등록에 실패했습니다. 관리자에게 문의해주세요.") ∈ openErrors := by
  have hno : isDuplicate e "PK_Session" = false := by
    cases e with
    | duplicate k => cases k <;> simp [isDuplicate, sqlMessageNames, UserKey.constraintName]
    | refused | lost => simp [isDuplicate, sqlMessageNames]
  rw [hno]
  simp [openErrors, sessionError]

theorem sessionRefreshError_mem {r : SessionRefreshEntity P} {s : Store (schema P)}
    {t : Tx (schema P)} {e : DbError (UserKey P)} (hb : r.beforeRefreshHash = none)
    (h : Fails π s t (.insertSessionRefresh r) e) : sessionRefreshError e ∈ openErrors := by
  cases h with
  | @duplicate k hk _ =>
    obtain rfl : k = .refreshHash r.refreshHash := by simpa [UserWrite.keys, hb] using hk
    simp [sessionRefreshError, isDuplicate, errno, sqlMessageNames, UserKey.constraintName,
      openErrors]
  | refused | lost => simp [sessionRefreshError, isDuplicate, sqlMessageNames, openErrors]

/-- `openSession` ends with the tokens of the user or with one of its exceptions. -/
theorem openSession_ends (hP : P.Lawful) {user : UserEntity} {patch : Option UserPatch}
    {ip : Option String} {r : Except Exn (UserSignInResultDto P)}
    (h : Runs A (openSession user patch ip) s t l (.ended r) s' t') :
    (∃ reply sessionId now, r = .ok reply ∧
      reply.refreshToken = refreshTokenAt P user.userId sessionId now) ∨
    ∃ e ∈ openErrors, r = .error e := by
  rw [openSession, Prog.bind_eq] at h
  obtain ⟨sessionId, s₁, l₁, rfl, _, _, _, h₁⟩ := randomText_bind h
  rcases writeOr_run h₁ with ⟨s₂, l₂, rfl, _, _, _, h₂⟩ | ⟨e, s₂, _, _, _, hf, rfl⟩
  swap
  · exact .inr ⟨_, sessionError_mem e, rfl⟩
  obtain ⟨_, _, rfl, _, _, h₃⟩ := jwtSign_bind h₂
  obtain ⟨a, _, rfl, _, _, h₄⟩ := jwtSign_bind h₃
  simp only [hP.extract_sign _ _ (show 0 < accessExpiresIn by decide),
    hP.extract_sign _ _ (show 0 < refreshExpiresIn by decide)] at h₄
  obtain ⟨_, _, _, rfl, _, _, h₅⟩ := encryptAesGcm_bind h₄
  rcases writeOr_run h₅ with ⟨_, _, rfl, _, _, _, h₆⟩ | ⟨e, s₃, _, _, _, hf, rfl⟩
  · obtain ⟨_, rfl, _⟩ := Runs.ended_inv (.ok _) h₆
    exact .inl ⟨_, sessionId, a.clock, rfl, rfl⟩
  · exact .inr ⟨_, sessionRefreshError_mem rfl hf, rfl⟩

/-- `signIn` takes its request as the register does. -/
theorem signIn_takes (hP : P.Lawful) {dto : UserSignInDto} {ip : Option String}
    {r : Except Exn (UserSignInResultDto P)}
    (h : Runs (turnRely π d₀ accounts) (UserService.signIn dto ip) s .empty l (.ended r) s' t')
    (hi : (turnRely π d₀ accounts).inv s') :
    Takes d₀ π.faults accounts (.signIn dto ip) (r.map .signedIn) (s'.after t' r).db.accounts := by
  have hsame : (s'.after t' r).db.accounts = accounts :=
    (accounts_after_only (signIn_only (fun _ _ => rfl) (fun _ => rfl) fun _ => rfl) h).trans hi.2
  rw [hsame]
  rw [UserService.signIn, Prog.bind_eq] at h
  rcases queryOr_bind h with ⟨s₁, l₁, rfl, _, hi₁, h₁⟩ | ⟨hfaults, m, rfl⟩
  swap
  · exact .faulted m hfaults
  rw [seen_empty] at h₁
  have hfind := ask_user s₁.db s₁.clock dto.loginId
  rw [hi₁.2] at hfind
  cases hu : s₁.db.ask s₁.clock (.user ⟨dto.loginId⟩) with
  | none =>
    rw [hu] at h₁ hfind
    obtain ⟨_, rfl, _⟩ := Runs.ended_inv (.error _) h₁
    exact .refuses (by rw [refusal, hfind]; rfl)
  | some user =>
    rw [hu] at h₁ hfind
    change accounts.find? _ = some user.account at hfind
    have hpw : user.account.loginPw = user.loginPw := rfl
    have hstate : user.account.stateId = user.stateId := rfl
    simp only at h₁
    split at h₁
    · rename_i hno
      obtain ⟨_, rfl, _⟩ := Runs.ended_inv (.error _) h₁
      refine .refuses ?_
      simp only [refusal, hfind, hpw, if_pos hno]
    rename_i hmatch
    simp only [Prog.bind_eq] at h₁
    rcases queryOr_bind h₁ with ⟨s₂, l₂, rfl, _, hi₂, h₂⟩ | ⟨hfaults, m, rfl⟩
    swap
    · exact .faulted m hfaults
    have hseen : (seen π s₂ (Tx.empty.opened s₁.db)).tState = d₀.tState := by
      rw [seen_opened]
      cases π.isolation with
      | readCommitted => exact hi₂.1.state
      | repeatableRead => exact hi₁.1.state
    rw [Tables.ask, hseen] at h₂
    split at h₂
    · rename_i hno
      obtain ⟨_, rfl, _⟩ := Runs.ended_inv (.error _) h₂
      refine .refuses ?_
      simp only [refusal, hfind, hpw, hstate, if_neg hmatch, if_pos hno]
    rename_i hable
    have hpass : refusal d₀ accounts (.signIn dto ip) = none := by
      simp only [refusal, hfind, hpw, hstate, if_neg hmatch, if_neg hable]
    have done {s₃ : Store (schema P)} {t₃ : Tx (schema P)} {l₃ : List (Event (schema P))}
        {patch : Option UserPatch}
        (h : Runs (turnRely π d₀ accounts) (openSession user patch ip) s₃ t₃ l₃ (.ended r) s' t') :
        Takes d₀ π.faults accounts (.signIn dto ip) (r.map .signedIn) accounts := by
      rcases openSession_ends hP h with ⟨reply, sessionId, now, rfl, htoken⟩ | ⟨e, he, rfl⟩
      · exact .opens hpass hfind htoken
      · exact .opensNot hpass he
    cases hm : mobilePatch dto with
    | none =>
      rw [hm] at h₂
      exact done h₂
    | some p =>
      rw [hm] at h₂
      rcases writeOr_run h₂ with ⟨s₃, l₃, rfl, _, _, _, h₃⟩ | ⟨e, s₃, _, _, _, _, rfl⟩
      · exact done h₃
      · exact .opensNot hpass List.mem_cons_self

/-! ## Runs of the service -/

/-- **The service keeps to the register.** -/
theorem service_obeys (hP : P.Lawful) : World.Obeys (parentRely π d₀) (userService P)
    UserRequest.isQueued Tables.accounts accounts_edit (Takes d₀ π.faults) where
  ends {q r accounts s₀ s l t} hq hi hb h := by
    cases q with
    | adminCreate dto =>
      obtain ⟨r, rfl, hcreate⟩ := h.map_inv
      have htakes := adminCreate_takes hcreate ⟨hi, hb⟩
      cases r <;> exact htakes
    | signIn dto ip =>
      obtain ⟨r, rfl, hsign⟩ := h.map_inv
      have htakes := signIn_takes hP hsign ⟨hi, hb⟩
      cases r <;> exact htakes
    | refresh => cases hq
  crashes hfaults _ := .faulted _ hfaults
  others {q r s₀ s l t} hq h := by
    cases q with
    | adminCreate | signIn => cases hq
    | refresh dto ip =>
      refine accounts_after_only ?_ h
      exact (refresh_only fun _ => rfl).bind fun _ => trivial

end NestHarness
