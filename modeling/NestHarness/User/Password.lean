import NestHarness.User.Accounts
import NestHarness.User.Rotation

/-!
# The password check

When `signIn` takes a password for that of an account: for its own one, for one that `bcrypt` reads
alike behind the pepper, and for a hash of the peppered stored hash, since `matchBcrypt` compares in
both directions.
-/

namespace NestHarness

open Txn UserRepository UserService

variable {P : Crypto} {π : Policy (schema P)} {A : Rely π} {salt p q : String}

/-- The exception of `signIn` for an unknown login id or a wrong password. -/
def wrongLogin : Exn := invalid "login_id" "아이디 또는 비밀번호가 올바르지 않습니다."

/-- For the account with the password `q` the password `p` is told apart: `bcrypt` reads something
else behind the pepper, and `p` is not a hash of the peppered stored hash. -/
def ToldApart (P : Crypto) (salt q p : String) : Prop :=
  bcryptInput (P.bcryptCode ++ p) ≠ bcryptInput (P.bcryptCode ++ q) ∧
    ∀ salt' s, p = P.bcryptHash salt' s →
      bcryptInput s ≠ bcryptInput (P.bcryptCode ++ P.getBcrypt salt q)

theorem matchBcrypt_iff (hb : P.LawfulBcrypt) :
    P.matchBcrypt p (P.getBcrypt salt q) = true ↔ ¬ToldApart P salt q p := by
  have hforward : P.bcryptCompare (P.bcryptCode ++ p) (P.getBcrypt salt q) = true ↔
      bcryptInput (P.bcryptCode ++ p) = bcryptInput (P.bcryptCode ++ q) := by
    rw [hb.compare_iff]
    constructor
    · rintro ⟨salt', s, hhash, hs⟩
      exact hs.symm.trans (hb.hash_injective hhash).2.symm
    · intro h
      exact ⟨salt, P.bcryptCode ++ q, rfl, h.symm⟩
  have hreverse : P.bcryptCompare (P.bcryptCode ++ P.getBcrypt salt q) p = true ↔
      ∃ salt' s, p = P.bcryptHash salt' s ∧
        bcryptInput s = bcryptInput (P.bcryptCode ++ P.getBcrypt salt q) := hb.compare_iff _ _
  rw [Crypto.matchBcrypt, Bool.or_eq_true, hforward, hreverse, ToldApart, not_and_or, not_not]
  simp only [not_forall, not_not, exists_prop]

/-- The own password is never told apart. -/
theorem matchBcrypt_own (hb : P.LawfulBcrypt) : P.matchBcrypt q (P.getBcrypt salt q) = true :=
  (matchBcrypt_iff hb).mpr fun h => h.1 rfl

theorem matchBcrypt_own_iff (hb : P.LawfulBcrypt) :
    (P.matchBcrypt p (P.getBcrypt salt q) = true ↔ p = q) ↔ p = q ∨ ToldApart P salt q p := by
  constructor
  · intro h
    by_cases hpq : p = q
    · exact .inl hpq
    · right
      by_contra happart
      exact hpq (h.mp ((matchBcrypt_iff hb).mpr happart))
  · rintro (rfl | happart)
    · exact iff_of_true (matchBcrypt_own hb) rfl
    · refine iff_of_false (fun h => (matchBcrypt_iff hb).mp h happart) ?_
      rintro rfl
      exact happart.1 rfl

/-! ## The check in a run of `signIn` -/

theorem queryOr_raises {m : String} {query : UserQuery P} {C : Exn → Prop}
    (h : C (internalServerErrorException m)) : (queryOr m query).Raises C := by
  intro x
  cases x with
  | ok => trivial
  | error => exact h

theorem writeOr_raises {g : DbError (UserKey P) → Exn} {w : UserWrite P} {C : Exn → Prop}
    (h : ∀ e, C (g e)) : (writeOr g w).Raises C := by
  intro x
  cases x with
  | ok => trivial
  | error e => exact h e

theorem ofExcept_raises {r : Except String α} {C : Exn → Prop} (h : ∀ m, C (.error m)) :
    (ofExcept r : UserProg P α).Raises C := by
  cases r with
  | ok => trivial
  | error m => exact h m

theorem internal_ne_wrongLogin {m : String} : internalServerErrorException m ≠ wrongLogin := by
  intro h
  cases h

theorem openSession_raises {user : UserEntity} {patch : Option UserPatch} {ip : Option String} :
    (openSession (P := P) user patch ip).Raises (· ≠ wrongLogin) := by
  intro sessionId
  refine (writeOr_raises ?_).bind fun _ => ?_
  · intro e
    split <;> exact nofun
  intro _ _
  refine (ofExcept_raises fun _ => nofun).bind fun _ => ?_
  refine (ofExcept_raises fun _ => nofun).bind fun _ => ?_
  intro _
  refine (writeOr_raises ?_).bind fun _ => trivial
  intro e
  unfold sessionRefreshError
  split
  · exact nofun
  · split <;> exact nofun

/-- A call of `signIn` that has read a user rejects it for its password just when the passwords do
not match. -/
theorem signIn_check {r : Except Exn (UserSignInResultDto P)} {c : UserWhere} {user : UserEntity}
    (h : Runs A (UserService.signIn dto ip) s .empty
      (⟨.query (.user c), .ok (some user), s₁, t⟩ :: l) (.ended r) s' t') :
    user ∈ s₁.db.tUser ∧ P.collate user.loginId = P.collate dto.loginId ∧ A.grow s₁ s' ∧
      (r = .error wrongLogin ↔ P.matchBcrypt dto.loginPw user.loginPw = false) := by
  rw [UserService.signIn, Prog.bind_eq] at h
  obtain ⟨s₂, choice, x, t₂, l₂, hl, _, _, hx, h₁⟩ := h.call_inv
  cases hl
  rcases exec_query hx with ⟨hanswer, _⟩ | ⟨_, hlost, _⟩
  swap
  · cases hlost
  have hfind : (seen π s₁ Tx.empty).tUser.find? (UserWhere.matches P ⟨dto.loginId⟩) = some user :=
    (Except.ok.inj hanswer).symm
  rw [seen_empty] at hfind
  have hlogin : P.collate user.loginId = P.collate dto.loginId := by
    have hp := List.find?_some hfind
    simpa [UserWhere.matches] using hp
  refine ⟨List.mem_of_find?_eq_some hfind, hlogin, h₁.grows, ?_⟩
  dsimp only [Prog.bind_eq, Prog.pure_eq, Prog.ret_bind, Prog.bind, Prog.throw_eq] at h₁
  cases hmatch : P.matchBcrypt dto.loginPw user.loginPw with
  | false =>
    simp only [hmatch, Bool.not_false, if_true] at h₁
    obtain ⟨_, rfl, _⟩ := Runs.ended_inv (.error _) h₁
    exact iff_of_true rfl rfl
  | true =>
    simp only [hmatch, Bool.not_true, Bool.false_eq_true, if_false] at h₁
    refine iff_of_false ?_ Bool.noConfusion
    rintro rfl
    refine Runs.raises (C := (· ≠ wrongLogin)) ?_ h₁ rfl
    refine (queryOr_raises internal_ne_wrongLogin).bind fun state => ?_
    split
    · exact (by decide : invalid "login_id" "로그인이 제한된 계정입니다." ≠ wrongLogin)
    · cases mobilePatch dto with
      | none => exact openSession_raises
      | some patch =>
        refine (writeOr_raises (C := (· ≠ wrongLogin)) fun _ => ?_).bind fun _ => openSession_raises
        exact internal_ne_wrongLogin

/-! ## Calls of a world -/

variable {w : World (userService P)} {dto : AdminUserCreateDto}

/-- The first operation of the call has found a user. -/
def FoundUser (l : List (Event (schema P))) (user : UserEntity) (s : Store (schema P)) : Prop :=
  ∃ c t l', l = ⟨.query (.user c), .ok (some user), s, t⟩ :: l'

/-- A successful `adminCreate` leaves the account that it was asked for. -/
theorem created_account {c : Call (userService P)} (h : w.Sound (accountRely π)) (hc : c ∈ w.calls)
    (hreq : c.req = .adminCreate dto) (hset : c.phase = .settled (.ok a)) :
    ∃ userId salt, (userRow P dto userId salt).stored.account ∈ w.db.accounts := by
  obtain ⟨req, l, phase⟩ := c
  cases hreq
  cases hset
  rcases h.calls _ hc with ⟨s₀, s₁, t, _, _, hrun, _, hgrow⟩ | ⟨_, he⟩
  swap
  · cases he
  obtain ⟨_ | _, he, hrun⟩ := hrun.map_inv <;> cases he
  obtain ⟨userId, salt, _, hw⟩ := adminCreate_ok hrun
  refine ⟨userId, salt, hgrow.1.subset ?_⟩
  change _ ∈ (t.onto s₁.db).accounts
  rw [(accounts_onto t s₁.db).1, hw]
  exact List.mem_append_right _ (List.mem_singleton_self _)

/-- A call of `signIn` that found a user has rejected it for its password just when the passwords do
not match, and its account is still there. -/
theorem checked_account {c : Call (userService P)} {dto : UserSignInDto} {user : UserEntity}
    (h : w.Sound (accountRely π)) (hc : c ∈ w.calls) (hreq : c.req = .signIn dto ip)
    (hset : c.phase = .settled r) (hr : r ≠ .error (userService P).crashed)
    (hfound : FoundUser c.trace user s) :
    user.account ∈ w.db.accounts ∧ P.collate user.loginId = P.collate dto.loginId ∧
      (r = .error wrongLogin ↔ P.matchBcrypt dto.loginPw user.loginPw = false) := by
  obtain ⟨req, l, phase⟩ := c
  cases hreq
  cases hset
  obtain ⟨q, t, l', rfl⟩ := hfound
  rcases h.calls _ hc with ⟨s₀, s₁, t, _, _, hrun, _, hgrow⟩ | ⟨_, he⟩
  swap
  · exact absurd he hr
  obtain ⟨r₀, rfl, hrun⟩ := hrun.map_inv
  obtain ⟨hmem, hlogin, hseen, hiff⟩ := signIn_check hrun
  refine ⟨?_, hlogin, ?_⟩
  · exact hgrow.1.subset ((accounts_after s₁ t _).subset (hseen.1.subset (account_mem hmem)))
  · rw [← hiff]
    cases r₀ <;> simp [Except.map]

/-- **Which passwords log in**: for the account that an `adminCreate` has left, with its salt, a
sign-in takes exactly the registered password, just when the presented one is the registered one or
is told apart from it. -/
theorem only_password_iff (hb : P.LawfulBcrypt) {s : Store (schema P)} (hs : s.db.OneAccount)
    (h : (World.init s).Reaches π w) {c : Call (userService P)} (hc : c ∈ w.calls)
    (hreq : c.req = .adminCreate dto) (hset : c.phase = .settled (.ok a)) :
    ∃ userId salt, (userRow P dto userId salt).stored.account ∈ w.db.accounts ∧
      ∀ c' ∈ w.calls, ∀ dto' ip r user s, c'.req = .signIn dto' ip →
        P.collate dto'.loginId = P.collate dto.loginId → c'.phase = .settled r →
        r ≠ .error (userService P).crashed → FoundUser c'.trace user s →
        ((r ≠ .error wrongLogin ↔ dto'.loginPw = dto.loginPw) ↔
          dto'.loginPw = dto.loginPw ∨ ToldApart P salt dto.loginPw dto'.loginPw) := by
  have hsound : w.Sound (accountRely π) :=
    ((World.Sound.init hs).reaches (accountRely_keeps (userService P)) h).1
  obtain ⟨userId, salt, hmem⟩ := created_account hsound hc hreq hset
  refine ⟨userId, salt, hmem, ?_⟩
  intro c' hc' dto' ip r user s hreq' hlogin hset' hr hfound
  obtain ⟨hmem', hlogin', hiff⟩ := checked_account hsound hc' hreq' hset' hr hfound
  have haccount : user.account = (userRow P dto userId salt).stored.account :=
    hsound.inv.eq hmem' hmem (hlogin'.trans hlogin)
  have hpw : user.loginPw = P.getBcrypt salt dto.loginPw := congrArg UserEntity.loginPw haccount
  rw [Ne, hiff, hpw, Bool.not_eq_false]
  exact matchBcrypt_own_iff hb

/-! ## A pepper, a hash and passwords in bytes -/

/-- A character for a byte, none of them a dollar sign. -/
def byteChar (b : UInt8) : Char := Char.ofNat (256 + b.toNat)

/-- `bcrypt` as a text that shows its input byte by byte, then the salt. -/
def showInput (s : String) : List Char := (bcryptInput s).map byteChar

abbrev bytewise : Crypto :=
  { symbolic with
    bcryptHash := fun salt s => String.ofList (showInput s ++ '$' :: salt.toList)
    bcryptCompare := fun s h => (showInput s ++ ['$']).isPrefixOf h.toList }

theorem byteChar_toNat (b : UInt8) : (byteChar b).toNat = 256 + b.toNat := by
  have hb := b.toNat_lt
  rw [byteChar, Char.ofNat, dif_pos (.inl (by omega))]
  rfl

theorem byteChar_injective : Function.Injective byteChar := by
  intro a b h
  have h := congrArg Char.toNat h
  rw [byteChar_toNat, byteChar_toNat] at h
  exact UInt8.toNat_inj.mp (by omega)

variable {s s' : String}

theorem dollar_notMem (s : String) : '$' ∉ showInput s := by
  intro h
  obtain ⟨b, _, hb⟩ := List.mem_map.mp h
  have hb := congrArg Char.toNat hb
  rw [byteChar_toNat] at hb
  change _ = 36 at hb
  omega

theorem showInput_inj : showInput s = showInput s' ↔ bcryptInput s = bcryptInput s' :=
  (List.map_injective_iff.mpr byteChar_injective).eq_iff

/-- The text before the first dollar sign and the text after it. -/
theorem dollar_split {a b x y : List Char} (ha : '$' ∉ a) (hb : '$' ∉ b)
    (h : a ++ '$' :: x = b ++ '$' :: y) : a = b ∧ x = y := by
  rcases List.append_eq_append_iff.mp h with ⟨c, rfl, hx⟩ | ⟨c, rfl, hx⟩ <;> cases c with
  | nil => exact ⟨by simp, by cases hx; rfl⟩
  | cons d c =>
    cases hx
    simp at ha hb

theorem bytewise_lawful : bytewise.LawfulBcrypt where
  hash_congr salt {s s'} h := by
    change String.ofList (showInput s ++ _) = String.ofList (showInput s' ++ _)
    rw [showInput, showInput, h]
  hash_injective {salt salt' s s'} h := by
    have h := String.ofList_injective h
    obtain ⟨hs, hsalt⟩ := dollar_split (dollar_notMem s) (dollar_notMem s') h
    exact ⟨String.toList_injective hsalt, showInput_inj.mp hs⟩
  compare_iff s h := by
    change (showInput s ++ ['$']).isPrefixOf h.toList = true ↔ ∃ (salt s' : String),
      h = String.ofList (showInput s' ++ '$' :: salt.toList) ∧ bcryptInput s' = bcryptInput s
    rw [List.isPrefixOf_iff_prefix]
    constructor
    · rintro ⟨salt, hsalt⟩
      refine ⟨String.ofList salt, s, ?_, rfl⟩
      rw [String.toList_ofList]
      rw [← String.ofList_toList (s := h), ← hsalt, List.append_assoc]
      rfl
    · rintro ⟨salt, s', rfl, hs⟩
      refine ⟨salt.toList, ?_⟩
      rw [String.toList_ofList, showInput, showInput, hs, List.append_assoc]
      rfl

/-! ## A sample run -/

/-- Nobody has an account yet. -/
def emptyStore : Store (schema bytewise) where
  db := {
    tAuth := ["USER"], tPosition := [], tState := [⟨"ACTIVE", 1⟩]
    tUser := [], tSession := [], tSessionRefresh := [] }
  clock := 5000

def createDto : AdminUserCreateDto :=
  ⟨"member", "pw", "pw", "name", "nick", "USER", none⟩

/-- An account with the password `pw` is created, then `p` is presented for it. -/
def loginLabels (p : String) (cs : List (Choice (schema bytewise))) :
    List (Label (userService bytewise)) :=
  .call (UserRequest.adminCreate createDto) ::
    [.proceed, .pick "u", .pick "salt", .proceed].map (.exec 0) ++ [.finish 0] ++
    .call (UserRequest.signIn ⟨"member", p, none, none⟩ none) :: cs.map (.exec 1) ++ [.finish 1]

/-- A hash of the peppered stored hash. -/
def forged : String := bytewise.getBcrypt "other" (bytewise.getBcrypt "salt" "pw")

def forgedWorld : World (userService bytewise) :=
  (Run.exec (World.step (calm bytewise .repeatableRead)) (World.init emptyStore)
    (loginLabels forged [.proceed, .proceed, .pick "s", .proceed, .proceed, .proceed, .pick "iv",
      .proceed])).get (by decide +kernel)

theorem reaches_get {s : Store (schema P)} {ls : List (Label (userService P))}
    (h : (Run.exec (World.step π) (World.init s) ls).isSome = true) :
    (World.init s).Reaches π ((Run.exec (World.step π) (World.init s) ls).get h) :=
  ⟨ls, (Option.some_get h).symm⟩

/-- A hash of the peppered stored hash logs in. -/
theorem forged_logs_in : bytewise.LawfulBcrypt ∧ emptyStore.db.OneAccount ∧
    (World.init emptyStore).Reaches (calm bytewise .repeatableRead) forgedWorld ∧
    (∃ c ∈ forgedWorld.calls[0]?, c.req = .adminCreate createDto ∧
      c.phase = .settled (.ok .created)) ∧
    (∃ c ∈ forgedWorld.calls[1]?, ∃ reply, c.req = .signIn ⟨"member", forged, none, none⟩ none ∧
      c.phase = .settled (.ok (.signedIn reply))) ∧ forged ≠ createDto.loginPw :=
  ⟨bytewise_lawful, List.nodup_nil, reaches_get _, ⟨_, rfl, rfl, rfl⟩, ⟨_, rfl, _, rfl, rfl⟩,
    by decide +kernel⟩

def wrongWorld : World (userService bytewise) :=
  (Run.exec (World.step (calm bytewise .repeatableRead)) (World.init emptyStore)
    (loginLabels "guess" [.proceed])).get (by decide +kernel)

theorem only_password_iff_sample : ∃ salt,
    (∃ c ∈ wrongWorld.calls[1]?, c.phase = .settled (.error wrongLogin)) ∧
    (((.error wrongLogin : Except Exn (UserReply bytewise)) ≠ .error wrongLogin ↔ "guess" = "pw") ↔
      "guess" = "pw" ∨ ToldApart bytewise salt "pw" "guess") := by
  have hw : (World.init emptyStore).Reaches (calm bytewise .repeatableRead) wrongWorld :=
    reaches_get _
  have hcreate : ∃ c ∈ wrongWorld.calls[0]?, c.req = .adminCreate createDto ∧
      c.phase = .settled (.ok .created) := ⟨_, rfl, rfl, rfl⟩
  have hsign : ∃ c ∈ wrongWorld.calls[1]?, c.req = .signIn ⟨"member", "guess", none, none⟩ none ∧
      c.phase = .settled (.error wrongLogin) ∧ ∃ user s, FoundUser c.trace user s :=
    ⟨_, rfl, rfl, rfl, _, _, _, _, _, rfl⟩
  obtain ⟨c, hc, hreq, hset⟩ := hcreate
  obtain ⟨c', hc', hreq', hset', user, s, hfound⟩ := hsign
  obtain ⟨_, salt, _, h⟩ := only_password_iff bytewise_lawful (s := emptyStore) List.nodup_nil hw
    (List.mem_of_getElem? hc) hreq hset
  exact ⟨salt, ⟨c', hc', hset'⟩,
    h c' (List.mem_of_getElem? hc') _ _ _ _ _ hreq' rfl hset' nofun hfound⟩

end NestHarness
