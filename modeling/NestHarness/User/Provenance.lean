import NestHarness.Lib.TxnLog
import NestHarness.User.Accounts
import NestHarness.User.Rotation

/-!
# Where rows come from

Every row that a run adds is the work of one call that has ended well, and the reply of that call
tells what it has added: an account for each `adminCreate`, a session for each `signIn` whose
password matched, at most one refresh token for each call. Calls that fail, or whose process dies,
add nothing.
-/

namespace NestHarness

open Txn UserRepository UserService

variable {P : Crypto} {π : Policy (schema P)} {A : Rely π}

/-! ## The row changes of the methods -/

section
variable {C : UserWrite P → Prop}

theorem queryOr_only {m : String} {q : UserQuery P} : (queryOr m q).Only (Op.Writes C) := by
  refine ⟨trivial, ?_⟩
  intro x
  cases x <;> trivial

theorem writeOr_only {g : DbError (UserKey P) → Exn} {w : UserWrite P} (hw : C w) :
    (writeOr g w).Only (Op.Writes C) := by
  refine ⟨hw, ?_⟩
  intro x
  cases x <;> trivial

theorem dateNow_only : (dateNow : UserProg P Nat).Only (Op.Writes C) := ⟨trivial, fun _ => trivial⟩

theorem randomText_only : (randomText : UserProg P String).Only (Op.Writes C) :=
  ⟨trivial, fun _ => trivial⟩

theorem ofExcept_only {r : Except String α} : (ofExcept r : UserProg P α).Only (Op.Writes C) := by
  cases r <;> trivial

theorem jwtSign_only {claims : JwtPayload} {n : Nat} :
    (jwtSign claims n : UserProg P P.Token).Only (Op.Writes C) :=
  dateNow_only.bind fun _ => trivial

theorem encryptAesGcm_only {plain : P.Token} :
    (encryptAesGcm plain : UserProg P P.Cipher).Only (Op.Writes C) :=
  randomText_only.bind fun _ => trivial

theorem openSession_only {user : UserEntity} {patch : Option UserPatch} {ip : Option String}
    (hs : ∀ r, C (.insertSession r)) (hr : ∀ r, C (.insertSessionRefresh r)) :
    (openSession user patch ip : UserProg P _).Only (Op.Writes C) := by
  refine randomText_only.bind fun sessionId => ?_
  refine (writeOr_only (hs _)).bind fun _ => ?_
  refine jwtSign_only.bind fun access => jwtSign_only.bind fun refresh => ?_
  refine ofExcept_only.bind fun _ => ofExcept_only.bind fun _ => ?_
  refine encryptAesGcm_only.bind fun _ => ?_
  exact (writeOr_only (hr _)).bind fun _ => trivial

theorem signIn_only {dto : UserSignInDto} {ip : Option String} (hu : ∀ id p, C (.updateUser id p))
    (hs : ∀ r, C (.insertSession r)) (hr : ∀ r, C (.insertSessionRefresh r)) :
    (UserService.signIn dto ip : UserProg P _).Only (Op.Writes C) := by
  refine queryOr_only.bind fun user => ?_
  cases user with
  | none => trivial
  | some user =>
    dsimp only
    split
    · trivial
    refine queryOr_only.bind fun state => ?_
    split
    · trivial
    cases mobilePatch dto with
    | none => exact openSession_only hs hr
    | some patch => exact (writeOr_only (hu _ _)).bind fun _ => openSession_only hs hr

theorem validateAndLoadSession_only {oldHash : P.Hash} {ip : Option String} {sessionId : String} :
    (validateAndLoadSession oldHash ip sessionId).Only (Op.Writes C) := by
  refine queryOr_only.bind fun submitted => ?_
  cases submitted with
  | none => trivial
  | some =>
    refine queryOr_only.bind fun session => ?_
    cases session <;> trivial

theorem replyRotated_only {oldHash : P.Hash} {ip : Option String}
    {rotated : SessionRefreshEntity P} :
    (replyRotated oldHash ip rotated).Only (Op.Writes C) := by
  refine validateAndLoadSession_only.bind fun session => jwtSign_only.bind fun access => ?_
  exact ofExcept_only.bind fun _ => ofExcept_only.bind fun _ => trivial

theorem refresh_only {dto : UserRefreshDto P} {ip : Option String}
    (hr : ∀ r, C (.insertSessionRefresh r)) :
    (UserService.refresh dto ip).Only (Op.Writes C) := by
  refine Prog.Only.bind (dateNow_only.bind fun now => ?_) fun payload => ?_
  · split
    · trivial
    · trivial
    · split <;> trivial
  refine queryOr_only.bind fun existing => ?_
  cases existing with
  | some => exact replyRotated_only
  | none =>
    refine validateAndLoadSession_only.bind fun session => ?_
    refine jwtSign_only.bind fun access => jwtSign_only.bind fun refresh => ?_
    refine ofExcept_only.bind fun _ => encryptAesGcm_only.bind fun _ => ?_
    refine (writeOr_only (hr _)).attempt.bind fun inserted => ?_
    cases inserted with
    | ok => exact ofExcept_only.bind fun _ => trivial
    | error e =>
      dsimp only
      split
      · refine queryOr_only.bind fun winner => ?_
        cases winner with
        | none => trivial
        | some => exact replyRotated_only
      · trivial

end

/-! ## Accounts -/

variable {s : Store (schema P)} {w : World (userService P)} {i : Nat} {ws : List (UserWrite P)}

theorem accounts_appends :
    Appends (S := schema P) Tables.accounts fun w => w.account.toList where
  apply d w := (accounts_apply d w).1
  edit e d := by
    cases e
    rfl

/-- The accounts that the row changes of a call add. -/
def newAccounts (ws : List (UserWrite P)) : List UserEntity := ws.flatMap fun w => w.account.toList

theorem newAccounts_eq_nil (h : ∀ w ∈ ws, w.account = none) : newAccounts ws = [] := by
  refine List.flatMap_eq_nil_iff.mpr ?_
  intro w hw
  rw [h w hw]
  rfl

/-- The account is that of the `i`-th call, an `adminCreate` that has ended well. -/
def CreatedBy (w : World (userService P)) (i : Nat) (u : UserEntity) : Prop :=
  ∃ dto userId salt, w.Succeeded i (.adminCreate dto) .created ∧ dto.loginPw = dto.loginPw2 ∧
    u = (userRow P dto userId salt).stored

/-- A successful `adminCreate` adds the account it was asked for, another call none. -/
theorem committed_accounts (h : w.Committed A i ws) :
    (∃ u, newAccounts ws = [u] ∧ CreatedBy w i u) ∨
    newAccounts ws = [] ∧ ¬ ∃ dto, w.Succeeded i (.adminCreate dto) .created := by
  obtain ⟨q, l, a, hcall, s₀, s₁, t, _, _, hrun, _, rfl, _⟩ := h
  have hother (hq : ∀ dto, q ≠ .adminCreate dto) :
      ¬ ∃ dto, w.Succeeded i (.adminCreate dto) .created := by
    rintro ⟨dto, l', hcall'⟩
    cases hcall.symm.trans hcall'
    exact hq dto rfl
  have hnone {p : UserProg P (UserReply P)}
      (hp : p.Only (Op.Writes fun c : UserWrite P => c.account = none))
      (hrun : Runs A p s₀ .empty l (.ended (.ok a)) s₁ t) : newAccounts t.writes = [] := by
    refine newAccounts_eq_nil fun w hw => ?_
    rcases hrun.writes hp w hw with hw | hw
    · cases hw
    · exact hw
  cases q with
  | adminCreate dto =>
    obtain ⟨r, hr, hcreate⟩ := hrun.map_inv
    cases r with
    | error e => cases hr
    | ok =>
      cases hr
      have hend := adminCreate_inv hcreate
      generalize he : (Except.ok () : Except Exn Unit) = r at hend
      cases hend with
      | mismatch | existing | refused => cases he
      | faulted hf =>
        subst he
        obtain ⟨_, _, hf⟩ := hf
        cases hf
      | @inserted userId salt _ _ _ htried _ _ hw =>
        exact .inl ⟨_, by rw [hw]; rfl, dto, userId, salt, ⟨l, hcall⟩, htried.pw, rfl⟩
  | signIn dto ip =>
    refine .inr ⟨hnone ?_ hrun, hother (by simp)⟩
    exact (signIn_only (fun _ _ => rfl) (fun _ => rfl) fun _ => rfl).bind fun _ => trivial
  | refresh dto ip =>
    refine .inr ⟨hnone ?_ hrun, hother (by simp)⟩
    exact (refresh_only fun _ => rfl).bind fun _ => trivial

/-- **Accounts are created exactly once**: at the end of any run the accounts are those of the start
and one for each `adminCreate` that has ended well, with the data that was asked for, as its columns
store it. Login ids stay unique, so that no two of those calls were for one login id. -/
theorem accounts_exact (hs : s.db.OneAccount)
    (h : (World.init s : World (userService P)).Reaches π w) :
    ∃ created : List (Nat × UserEntity), (created.map Prod.fst).Nodup ∧
      w.db.accounts = s.db.accounts ++ created.map Prod.snd ∧
      (∀ i u, (i, u) ∈ created → CreatedBy w i u) ∧
      (∀ i dto, w.Succeeded i (.adminCreate dto) .created → ∃ u, (i, u) ∈ created) ∧
      w.db.OneAccount := by
  have hkeeps : (accountRely π).Keeps (userService P) := accountRely_keeps _
  obtain ⟨created, hnodup, haccounts, hmem, hall⟩ :=
    World.exists_appended hkeeps hs h accounts_appends committed_accounts
  refine ⟨created, hnodup, haccounts, hmem, ?_, ((World.Sound.init hs).reaches hkeeps h).1.inv⟩
  intro i dto hsucc
  exact hall i _ _ hsucc ⟨dto, hsucc⟩

/-- The user `id` signs in; then two calls create an account for one login id, and the second finds
it taken when it inserts its row; then the token is exchanged. -/
def busyLabels : List (Label (userService symbolic)) :=
  let dto : AdminUserCreateDto := ⟨"member", "pw", "pw", "name", "nick", "USER", none⟩
  signInLabels 0 ++ [.call (UserRequest.adminCreate dto), .call (UserRequest.adminCreate dto),
    .exec 1 .proceed, .exec 2 .proceed, .exec 1 (.pick "m"), .exec 2 (.pick "n"),
    .exec 2 (.pick "salt"), .exec 1 (.pick "salt"), .exec 1 .proceed, .finish 1,
    .exec 2 (.name (.loginId "member")), .finish 2, .tick 7000] ++
    refreshLabels 3 (sampleToken 5000) [.proceed, .proceed, .proceed, .proceed, .proceed, .proceed,
      .pick "iv", .proceed]

def busyWorld : World (userService symbolic) :=
  (Run.exec (World.step (calm symbolic .repeatableRead)) (World.init (sampleStore 5000))
    busyLabels).get (by decide +kernel)

theorem busy_reaches :
    (World.init (sampleStore 5000)).Reaches (calm symbolic .repeatableRead) busyWorld :=
  ⟨busyLabels, (Option.some_get _).symm⟩

theorem accounts_exact_sample : busyWorld.db.accounts.map (·.loginId) = ["id", "member"] ∧
    ∃ created : List (Nat × UserEntity), (created.map Prod.fst).Nodup ∧
      busyWorld.db.accounts = (sampleStore 5000).db.accounts ++ created.map Prod.snd ∧
      ∃ u, (1, u) ∈ created ∧ CreatedBy busyWorld 1 u := by
  obtain ⟨created, hnodup, haccounts, hmem, hall, _⟩ :=
    accounts_exact (s := sampleStore 5000) (List.nodup_singleton _) busy_reaches
  obtain ⟨u, hu⟩ := hall 1 _ ⟨_, rfl⟩
  exact ⟨by decide +kernel, created, hnodup, haccounts, u, hu, hmem 1 u hu⟩

/-! ## Refresh tokens -/

def UserWrite.refreshRow : UserWrite P → Option (SessionRefreshEntity P)
  | .insertSessionRefresh r => some r
  | .insertUser _ | .updateUser _ _ | .insertSession _ => none

theorem refreshRows_appends :
    Appends (S := schema P) Tables.tSessionRefresh fun w => w.refreshRow.toList where
  apply d w := by
    cases w with
    | insertSessionRefresh => rfl
    | insertUser | updateUser | insertSession => exact (List.append_nil _).symm
  edit e d := by
    cases e
    rfl

def newRefreshRows (ws : List (UserWrite P)) : List (SessionRefreshEntity P) :=
  ws.flatMap fun w => w.refreshRow.toList

/-- The refresh token that a call has returned, and when it expires. -/
def UserReply.issued : UserReply P → Option (P.Token × Nat)
  | .created => none
  | .signedIn result => some (result.refreshToken, result.refreshExpiresAt)
  | .refreshed result => some (result.refreshToken, result.refreshExpiresAt)

/-- The row stores the refresh token that the `i`-th call has returned. -/
def HandedOut (w : World (userService P)) (i : Nat) (r : SessionRefreshEntity P) : Prop :=
  ∃ q a token, w.Succeeded i q a ∧ a.issued = some (token, r.endAt) ∧
    r.refreshHash = P.sha256Hex token ∧ P.decryptAesGcm r.refreshEncrypted = .ok token

/-- A call adds at most one row, which stores the token that it returns; a sign-in adds one. -/
theorem committed_refreshRows (hP : P.Lawful) (h : w.Committed (userRely π) i ws) :
    (∃ r, newRefreshRows ws = [r] ∧ HandedOut w i r) ∨
    newRefreshRows ws = [] ∧ ¬ ∃ dto ip a, w.Succeeded i (.signIn dto ip) a := by
  obtain ⟨q, l, a, hcall, s₀, s₁, t, _, hi, hrun, _, rfl, _⟩ := h
  have hsucc : w.Succeeded i q a := ⟨l, hcall⟩
  have hother (hq : ∀ dto ip, q ≠ .signIn dto ip) :
      ¬ ∃ dto ip a, w.Succeeded i (.signIn dto ip) a := by
    rintro ⟨dto, ip, a, l', hcall'⟩
    cases hcall.symm.trans hcall'
    exact hq dto ip rfl
  cases q with
  | adminCreate dto =>
    obtain ⟨_ | _, he, hcreate⟩ := hrun.map_inv <;> cases he
    obtain ⟨_, _, _, hw⟩ := adminCreate_ok hcreate
    exact .inr ⟨by rw [hw]; rfl, hother (by simp)⟩
  | signIn dto ip =>
    obtain ⟨_ | result, he, hsign⟩ := hrun.map_inv <;> cases he
    obtain ⟨_, b, user, patch, sid, iv, _, _, _, _, _, _, hw, hr, he⟩ := signIn_ok hP hsign
    refine .inl ⟨tokenRow P user.userId sid none iv b.clock, ?_, _, _, result.refreshToken, hsucc,
      ?_, ?_, ?_⟩
    · rw [hw]
      cases patch <;> rfl
    · rw [UserReply.issued, he]
      rfl
    · rw [hr]
      rfl
    · rw [hr]
      exact hP.decrypt_encrypt _ _
  | refresh dto ip =>
    obtain ⟨_ | result, he, href⟩ := hrun.map_inv <;> cases he
    obtain ⟨session, _, row, submitted, _, hrep, hset, _⟩ := refresh_ok .rfl hP href hi
    rcases hset with ⟨hw, _⟩ | ⟨hw, _⟩
    · exact .inr ⟨by rw [hw]; rfl, hother (by simp)⟩
    obtain ⟨now, hst, ht⟩ := hrep.stores
    obtain ⟨now', heq⟩ := hrep.reply_eq
    have hend : result.refreshExpiresAt = row.endAt := by
      rw [heq]
      rfl
    refine .inl ⟨row, by rw [hw]; rfl, _, _, result.refreshToken, hsucc, ?_, ?_, ?_⟩
    · rw [UserReply.issued, hend]
    · rw [hst.hash, ht, hrep.row_sid]
    · rw [hst.cipher, ht, hrep.row_sid]

theorem UserReply.refreshToken_of_issued {a : UserReply P} (h : a.issued = some (token, endAt)) :
    a.refreshToken = some token := by
  cases a with
  | created => cases h
  | signedIn | refreshed =>
    cases h
    rfl

/-- **A refresh token is stored just when it has been handed out**: the rows that a run adds are the
tokens that its calls have returned, at most one for each call and one for each sign-in, and every
token that a call has returned is stored. -/
theorem refreshRows_exact (hP : P.Lawful) (hs : TablesInv s.db)
    (h : (World.init s : World (userService P)).Reaches π w) :
    ∃ added : List (Nat × SessionRefreshEntity P), (added.map Prod.fst).Nodup ∧
      w.db.tSessionRefresh = s.db.tSessionRefresh ++ added.map Prod.snd ∧
      (∀ i r, (i, r) ∈ added → HandedOut w i r) ∧
      (∀ i dto ip a, w.Succeeded i (.signIn dto ip) a → ∃ r, (i, r) ∈ added) ∧
      ∀ i q a token endAt, w.Succeeded i q a → a.issued = some (token, endAt) →
        ∃ r ∈ w.db.tSessionRefresh, r.refreshHash = P.sha256Hex token := by
  have hkeeps : (userRely π).Keeps (userService P) := userRely_keeps hP
  have hsound : w.Sound (userRely π) := ((World.Sound.init hs).reaches hkeeps h).1
  obtain ⟨added, hnodup, hrows, hmem, hall⟩ :=
    World.exists_appended hkeeps hs h refreshRows_appends (committed_refreshRows hP)
  refine ⟨added, hnodup, hrows, hmem, ?_, ?_⟩
  · intro i dto ip a hsucc
    exact hall i _ _ hsucc ⟨dto, ip, a, hsucc⟩
  · intro i q a token endAt hsucc hissued
    obtain ⟨l, hcall⟩ := hsucc
    exact stored_of_sound hP hsound (List.mem_of_getElem? hcall) rfl
      (UserReply.refreshToken_of_issued hissued)

theorem refreshRows_exact_sample : busyWorld.db.tSessionRefresh.length = 2 ∧
    ∃ added : List (Nat × SessionRefreshEntity symbolic), (added.map Prod.fst).Nodup ∧
      busyWorld.db.tSessionRefresh = (sampleStore 5000).db.tSessionRefresh ++ added.map Prod.snd ∧
      ∃ r, (0, r) ∈ added ∧ HandedOut busyWorld 0 r := by
  obtain ⟨added, hnodup, hrows, hmem, hall, _⟩ :=
    refreshRows_exact symbolic_lawful (.initial rfl rfl) busy_reaches
  obtain ⟨r, hr⟩ := hall 0 _ _ _ ⟨_, rfl⟩
  exact ⟨by decide +kernel, added, hnodup, hrows, r, hr, hmem 0 r hr⟩

/-! ## Sessions -/

/-- What a successful `signIn` has checked and written. -/
structure SignedIn (A : Rely π) (dto : UserSignInDto) (ip : Option String)
    (result : UserSignInResultDto P) (s' : Store (schema P)) (writes : List (UserWrite P))
    (user : UserEntity) (sessionId : String) : Prop where
  found : ∃ a, A.grow a s' ∧ user ∈ a.db.tUser
  loginId : P.collate user.loginId = P.collate dto.loginId
  password : P.matchBcrypt dto.loginPw user.loginPw = true
  state : ∃ a, A.grow a s' ∧ ∃ st ∈ a.db.tState,
    P.collate st.stateId = P.collate user.stateId ∧ st.isLoginAble = 1
  writes : ∃ iv now, writes =
    ((mobilePatch dto).map (UserWrite.updateUser user.userId)).toList ++
      [.insertSession (sessionRow user.userId sessionId (mobilePatch dto) ip),
        .insertSessionRefresh (tokenRow P user.userId sessionId none iv now)] ∧
    result.refreshToken = refreshTokenAt P user.userId sessionId now

theorem signIn_checked (hP : P.Lawful) {result : UserSignInResultDto P}
    {s s' : Store (schema P)}
    (h : Runs A (UserService.signIn dto ip) s .empty l (.ended (.ok result)) s' t') :
    ∃ user sessionId, SignedIn A dto ip result s' t'.writes user sessionId := by
  rw [UserService.signIn, Prog.bind_eq] at h
  rcases queryOr_bind h with ⟨a, l₁, rfl, _, hia, h₁⟩ | ⟨_, _, he⟩
  swap
  · cases he
  have hfirst : seen π a Tx.empty = a.db := by
    rw [seen, Tx.view_nil rfl]
    cases π.isolation <;> rfl
  cases hu : (seen π a Tx.empty).ask a.clock (.user ⟨dto.loginId⟩) with
  | none =>
    rw [hu] at h₁
    obtain ⟨_, he, _⟩ := Runs.ended_inv (.error _) h₁
    cases he
  | some user =>
    have hga := h₁.grows
    rw [hu] at h₁
    simp only at h₁
    split at h₁
    · obtain ⟨_, he, _⟩ := Runs.ended_inv (.error _) h₁
      cases he
    rename_i hmatch
    simp only [Prog.bind_eq] at h₁
    rcases queryOr_bind h₁ with ⟨b, l₂, rfl, hgb, hib, h₂⟩ | ⟨_, _, he⟩
    swap
    · cases he
    have hg₂ := h₂.grows
    -- the state is read as of an earlier moment
    obtain ⟨s₀, _, hg₀, hview⟩ :=
      (((Tx.Past.empty A a).opened hia).grow hgb).view hib (t := Tx.empty.opened a.db) rfl
    split at h₂
    · obtain ⟨_, he, _⟩ := Runs.ended_inv (.error _) h₂
      cases he
    rename_i hstate
    rw [Bool.not_eq_true', Bool.not_eq_false] at hstate
    obtain ⟨st, hst, hable⟩ := (Option.any_eq_true _ _).mp hstate
    have hfind : (seen π a Tx.empty).tUser.find? (UserWhere.matches P ⟨dto.loginId⟩) = some user :=
      hu
    have hfind' : s₀.db.tState.find? (StateWhere.matches P ⟨user.stateId⟩) = some st := by
      rw [← hview]
      exact hst
    have done {patch : Option UserPatch} (hpatch : mobilePatch dto = patch)
        {s₃ : Store (schema P)} {t₃ : Tx (schema P)} {l₃ : List (Event (schema P))}
        (hwrites : t₃.writes = (patch.map (UserWrite.updateUser user.userId)).toList)
        (h : Runs A (openSession user patch ip) s₃ t₃ l₃ (.ended (.ok result)) s' t') :
        ∃ user sessionId, SignedIn A dto ip result s' t'.writes user sessionId := by
      obtain ⟨sid, iv, c, _, _, _, hw, hr, _⟩ := openSession_ok hP h
      refine ⟨user, sid, ?_⟩
      exact {
        found := ⟨a, hga, List.mem_of_find?_eq_some (hfirst ▸ hfind)⟩
        loginId := by simpa [UserWhere.matches] using List.find?_some hfind
        password := by simpa using hmatch
        state := ⟨s₀, A.trans hg₀ hg₂, st, List.mem_of_find?_eq_some hfind',
          by simpa [StateWhere.matches] using List.find?_some hfind', by simpa using hable⟩
        writes := ⟨iv, c.clock, by rw [hw, hwrites, hpatch], hr⟩ }
    cases hm : mobilePatch dto with
    | none =>
      rw [hm] at h₂
      exact done hm rfl h₂
    | some p =>
      rw [hm] at h₂
      obtain ⟨s₃, l₃, rfl, _, _, _, h₃⟩ := writeOr_bind h₂
      exact done hm rfl h₃

def UserWrite.session : UserWrite P → Option SessionEntity
  | .insertSession r => some r.stored
  | .insertUser _ | .updateUser _ _ | .insertSessionRefresh _ => none

/-- The session as it was opened. -/
def SessionEntity.opened (r : SessionEntity) : SessionEntity := { r with isDelete := 0 }

def Tables.openedSessions (d : Tables P) : List SessionEntity := d.tSession.map (·.opened)

theorem sessions_appends : Appends (S := schema P) Tables.openedSessions
    fun w => (w.session.map (·.opened)).toList where
  apply d w := by
    cases w with
    | insertSession => exact List.map_append
    | insertUser | updateUser | insertSessionRefresh => exact (List.append_nil _).symm
  edit e d := by
    obtain ⟨id⟩ := e
    refine (List.map_map ..).trans (List.map_congr_left ?_)
    intro r _
    simp only [Function.comp]
    split <;> rfl

def newSessions (ws : List (UserWrite P)) : List SessionEntity :=
  ws.flatMap fun w => (w.session.map (·.opened)).toList

/-- What holds while calls are under way, of sessions and of accounts. -/
def accessRely (π : Policy (schema P)) : Rely π := (userRely π).both (accountRely π)

theorem accessRely_keeps (hP : P.Lawful) : (accessRely π).Keeps (userService P) :=
  Rely.Keeps.both (userRely_keeps hP) (accountRely_keeps _)

/-- The session row was opened by the `i`-th call, a sign-in to an account whose login id and
password were presented and that could log in. -/
def OpenedBy (w : World (userService P)) (i : Nat) (r : SessionEntity) : Prop :=
  ∃ dto ip result, w.Succeeded i (.signIn dto ip) (.signedIn result) ∧ ∃ user ∈ w.db.accounts,
    P.collate user.loginId = P.collate dto.loginId ∧
    P.matchBcrypt dto.loginPw user.loginPw = true ∧
    (∃ st ∈ w.db.tState, P.collate st.stateId = P.collate user.stateId ∧ st.isLoginAble = 1) ∧
    r = sessionRow user.userId r.sessionId ((mobilePatch dto).map UserPatch.stored) ip ∧
    ∃ now, result.refreshToken = refreshTokenAt P user.userId r.sessionId now

theorem committed_sessions (hP : P.Lawful) (h : w.Committed (accessRely π) i ws) :
    (∃ r, newSessions ws = [r] ∧ OpenedBy w i r) ∨
    newSessions ws = [] ∧ ¬ ∃ dto ip a, w.Succeeded i (.signIn dto ip) a := by
  obtain ⟨q, l, a, hcall, s₀, s₁, t, _, _, hrun, _, rfl, hg⟩ := h
  have hsucc : w.Succeeded i q a := ⟨l, hcall⟩
  have hother (hq : ∀ dto ip, q ≠ .signIn dto ip) :
      ¬ ∃ dto ip a, w.Succeeded i (.signIn dto ip) a := by
    rintro ⟨dto, ip, a, l', hcall'⟩
    cases hcall.symm.trans hcall'
    exact hq dto ip rfl
  have hnone {p : UserProg P (UserReply P)}
      (hp : p.Only (Op.Writes fun c : UserWrite P => c.session = none))
      (hrun : Runs (accessRely π) p s₀ .empty l (.ended (.ok a)) s₁ t) :
      newSessions t.writes = [] := by
    refine List.flatMap_eq_nil_iff.mpr fun c hc => ?_
    rcases hrun.writes hp c hc with hc | hc
    · cases hc
    · rw [hc]
      rfl
  cases q with
  | adminCreate dto =>
    refine .inr ⟨?_, hother (by simp)⟩
    obtain ⟨_ | _, he, hcreate⟩ := hrun.map_inv <;> cases he
    obtain ⟨_, _, _, hw⟩ := adminCreate_ok hcreate
    rw [hw]
    rfl
  | refresh dto ip =>
    refine .inr ⟨hnone ?_ hrun, hother (by simp)⟩
    exact (refresh_only fun _ => rfl).bind fun _ => trivial
  | signIn dto ip =>
    obtain ⟨_ | result, he, hsign⟩ := hrun.map_inv <;> cases he
    obtain ⟨user, sid, hin⟩ := signIn_checked hP hsign
    obtain ⟨iv, now, hwrites, htoken⟩ := hin.writes
    obtain ⟨a, hga, huser⟩ := hin.found
    obtain ⟨b, hgb, st, hst, hid, hable⟩ := hin.state
    have hcommit : (accountRely π).grow s₁ { s₁ with db := t.onto s₁.db } :=
      ⟨⟨_, (accounts_onto t s₁.db).1.symm⟩, (accounts_onto t s₁.db).2⟩
    have hgrow {c : Store (schema P)} (h : (accessRely π).grow c s₁) :
        c.db.accounts <+: w.db.accounts ∧ SameParents c.db w.db :=
      (accountRely π).trans h.2 ((accountRely π).trans hcommit hg.2)
    refine .inl ⟨(sessionRow user.userId sid (mobilePatch dto) ip).stored, ?_, dto, ip, result,
      hsucc, user.account, (hgrow hga).1.subset (account_mem huser), hin.loginId, hin.password,
      ⟨st, (hgrow hgb).2.state ▸ hst, hid, hable⟩, sessionRow_stored .., now, htoken⟩
    rw [hwrites]
    cases mobilePatch dto <;> rfl

/-- **Every session was opened by a sign-in**: the sessions that a run adds are one for each
`signIn` that has ended well, of an account of the presented login id whose password matched and
whose state may log in, and with the ip and the device of the request; deleting a session is all
that happens to it later. -/
theorem sessions_exact (hP : P.Lawful) (hs : TablesInv s.db) (hs' : s.db.OneAccount)
    (h : (World.init s : World (userService P)).Reaches π w) :
    ∃ opened : List (Nat × SessionEntity), (opened.map Prod.fst).Nodup ∧
      w.db.openedSessions = s.db.openedSessions ++ opened.map Prod.snd ∧
      (∀ i r, (i, r) ∈ opened → OpenedBy w i r) ∧
      ∀ i dto ip a, w.Succeeded i (.signIn dto ip) a → ∃ r, (i, r) ∈ opened := by
  have hkeeps : (accessRely π).Keeps (userService P) := accessRely_keeps hP
  have hinv : (accessRely π).inv s := ⟨hs, hs'⟩
  obtain ⟨opened, hnodup, hsessions, hmem, hall⟩ :=
    World.exists_appended hkeeps hinv h sessions_appends (committed_sessions hP)
  refine ⟨opened, hnodup, hsessions, hmem, ?_⟩
  intro i dto ip a hsucc
  exact hall i _ _ hsucc ⟨dto, ip, a, hsucc⟩

theorem sessions_exact_sample : busyWorld.db.tSession.length = 1 ∧
    ∃ opened : List (Nat × SessionEntity), (opened.map Prod.fst).Nodup ∧
      busyWorld.db.openedSessions = (sampleStore 5000).db.openedSessions ++ opened.map Prod.snd ∧
      ∃ r, (0, r) ∈ opened ∧ OpenedBy busyWorld 0 r := by
  obtain ⟨opened, hnodup, hsessions, hmem, hall⟩ :=
    sessions_exact (s := sampleStore 5000) symbolic_lawful (.initial rfl rfl)
      (List.nodup_singleton _) busy_reaches
  obtain ⟨r, hr⟩ := hall 0 _ _ _ ⟨_, rfl⟩
  exact ⟨by decide +kernel, opened, hnodup, hsessions, r, hr, hmem 0 r hr⟩

end NestHarness
