import NestHarness.Http.Bearer
import NestHarness.Lib.TxnSerial

/-!
# The controller

`UserController` in front of the user service. The guards of a route decide on the database as it is
at that moment, outside of any transaction; the handler is called later, if at all, and other
requests may do anything in between. Every account that requests have added was ordered by an
administrator who was there before it and had signed in with his password.
-/

namespace NestHarness

open Txn
open PassportJwtAuthStrategy (credentials)

variable {P : Crypto} {π : Policy (schema P)} {w w' : World (userService P)} {s : Store (schema P)}

def UserRequest.route : UserRequest P → Route P
  | .adminCreate _ => UserController.adminCreate
  | .signIn _ _ => UserController.signIn
  | .refresh _ _ => UserController.refresh

/-- A request that its guards have let pass, with the user they have left on it. -/
structure Passed (P : Crypto) where
  request : UserRequest P
  bearer : Option P.Token
  user : Option PassportUserResultDto

/-- The service behind its controller: the requests whose handler has not been called yet, and those
whose handler has made the calls of the service, in the order of the calls. -/
structure Backend (P : Crypto) where
  world : World (userService P)
  waiting : List (Passed P)
  handled : List (Passed P)

inductive Arrival (P : Crypto)
  /-- A request arrives; its guards consult the database, which may fail. -/
  | guards (request : UserRequest P) (bearer : Option P.Token) (fault : Bool)
  /-- The handler of the `k`-th waiting request is called. -/
  | handler (k : Nat)
  /-- The service goes on, without a new call. -/
  | service (l : Label (userService P))

namespace UserController

def init (s : Store (schema P)) : Backend P := ⟨.init s, [], []⟩

/-- A request that its guards refuse is answered with their error. -/
def step (nodeEnv : Option String) (π : Policy (schema P)) (x : Backend P) :
    Arrival P → Option (Backend P)
  | .guards request bearer fault =>
    if fault = true ∧ π.faults = false then none
    else
      let db := if fault then none else some x.world.db
      match request.route.activate (credentials nodeEnv bearer x.world.clock db) with
      | .ok user => some { x with waiting := x.waiting ++ [⟨request, bearer, user⟩] }
      | .error _ => some x
  | .handler k =>
    match x.waiting[k]? with
    | some p =>
      (x.world.step π (.call p.request)).map fun world =>
        ⟨world, x.waiting.eraseIdx k, x.handled ++ [p]⟩
    | none => none
  | .service (.call _) => none
  | .service l => (x.world.step π l).map fun world => { x with world }

end UserController

/-- The tokens that calls have returned. -/
def handedOut (w : World (userService P)) : List P.Token :=
  w.calls.flatMap fun c =>
    match c.phase with
    | .settled (.ok a) => a.tokens
    | .settled (.error _) | .running _ _ => []

/-- Nobody but the service signs tokens: a bearer token whose signature is right has been handed
out. -/
def Genuine (x : Backend P) : Arrival P → Prop
  | .guards _ bearer _ => ∀ token ∈ bearer, P.signatureOk token = true → token ∈ handedOut x.world
  | .handler _ | .service _ => True

theorem mem_handedOut {token : P.Token} :
    token ∈ handedOut w ↔ ∃ i q a, w.Succeeded i q a ∧ token ∈ a.tokens := by
  rw [handedOut, List.mem_flatMap]
  constructor
  · intro h
    obtain ⟨⟨q, l, phase⟩, hc, ht⟩ := h
    obtain ⟨i, hi⟩ := List.mem_iff_getElem?.mp hc
    cases phase with
    | running => cases ht
    | settled r =>
      cases r with
      | error => cases ht
      | ok a => exact ⟨i, q, a, ⟨l, hi⟩, ht⟩
  · intro h
    obtain ⟨i, q, a, ⟨l, hi⟩, ht⟩ := h
    exact ⟨_, List.mem_of_getElem? hi, ht⟩

/-! ## What the guards have seen -/

variable {nodeEnv : Option String}

/-- The guards let the request pass in this state, and its bearer token is genuine. -/
structure Vouched (nodeEnv : Option String) (w : World (userService P)) (p : Passed P) : Prop where
  admitted : ∃ db, (db = none ∨ db = some w.db) ∧
    p.request.route.activate (credentials nodeEnv p.bearer w.clock db) = .ok p.user
  genuine : ∀ token ∈ p.bearer, P.signatureOk token = true → token ∈ handedOut w

/-- Every call of the service was made for a request that its guards had let pass before. -/
structure Guarded (nodeEnv : Option String) (π : Policy (schema P)) (s : Store (schema P))
    (x : Backend P) : Prop where
  reached : (World.init s).Reaches π x.world
  requests : x.world.calls.map Call.req = x.handled.map (·.request)
  waiting : ∀ p ∈ x.waiting, ∃ w, (World.init s).Reaches π w ∧ w.Reaches π x.world ∧
    Vouched nodeEnv w p
  handled : ∀ i p, x.handled[i]? = some p → ∃ w, (World.init s).Reaches π w ∧
    w.Reaches π x.world ∧ w.calls.length ≤ i ∧ Vouched nodeEnv w p

theorem Guarded.init (s : Store (schema P)) : Guarded nodeEnv π s (UserController.init s) where
  reached := ⟨[], rfl⟩
  requests := rfl
  waiting p hp := by cases hp
  handled i p hp := by cases hp

/-- The service goes on. -/
theorem Guarded.service {x : Backend P} (h : Guarded nodeEnv π s x) {l : Label (userService P)}
    (hl : ∀ q, l ≠ .call q) (hw : x.world.step π l = some w) :
    Guarded nodeEnv π s { x with world := w } := by
  have hreach : x.world.Reaches π w := .head hw ⟨[], rfl⟩
  refine ⟨h.reached.trans hreach, ?_, ?_, ?_⟩
  · refine Eq.trans ?_ h.requests
    rw [(World.step_calls hw).1]
    cases l with
    | call q => exact absurd rfl (hl q)
    | exec | finish | crash | tick | edit => exact List.append_nil _
  · intro p hp
    obtain ⟨w₀, h₀, hlater, hv⟩ := h.waiting p hp
    exact ⟨w₀, h₀, hlater.trans hreach, hv⟩
  · intro i p hp
    obtain ⟨w₀, h₀, hlater, hi, hv⟩ := h.handled i p hp
    exact ⟨w₀, h₀, hlater.trans hreach, hi, hv⟩

theorem Guarded.step {x x' : Backend P} {l : Arrival P} (h : Guarded nodeEnv π s x)
    (hg : Genuine x l) (hs : UserController.step nodeEnv π x l = some x') :
    Guarded nodeEnv π s x' := by
  cases l with
  | guards request bearer fault =>
    simp only [UserController.step] at hs
    split at hs
    · cases hs
    split at hs <;> cases hs
    swap
    · exact h
    rename_i user hpass
    refine { h with waiting := ?_ }
    intro p hp
    rcases List.mem_append.mp hp with hp | hp
    · exact h.waiting p hp
    · cases List.mem_singleton.mp hp
      refine ⟨x.world, h.reached, ⟨[], rfl⟩, ⟨_, ?_, hpass⟩, hg⟩
      cases fault
      · exact .inr rfl
      · exact .inl rfl
  | handler k =>
    simp only [UserController.step] at hs
    split at hs
    swap
    · cases hs
    rename_i p hp
    obtain ⟨w, hw, rfl⟩ := Option.map_eq_some_iff.mp hs
    have hreach : x.world.Reaches π w := .head hw ⟨[], rfl⟩
    have hlength : x.world.calls.length = x.handled.length := by
      simpa using congrArg List.length h.requests
    refine ⟨h.reached.trans hreach, ?_, ?_, ?_⟩
    · rw [(World.step_calls hw).1, h.requests, List.map_append]
      rfl
    · intro p' hp'
      obtain ⟨w₀, h₀, hlater, hv⟩ := h.waiting p' (List.mem_of_mem_eraseIdx hp')
      exact ⟨w₀, h₀, hlater.trans hreach, hv⟩
    · intro i p' hp'
      rw [List.getElem?_append] at hp'
      split at hp'
      · obtain ⟨w₀, h₀, hlater, hi, hv⟩ := h.handled i p' hp'
        exact ⟨w₀, h₀, hlater.trans hreach, hi, hv⟩
      · rename_i hi
        cases List.mem_singleton.mp (List.mem_of_getElem? hp')
        obtain ⟨w₀, h₀, hlater, hv⟩ := h.waiting p (List.mem_of_getElem? hp)
        refine ⟨w₀, h₀, hlater.trans hreach, ?_, hv⟩
        exact hlater.calls.1.trans (hlength ▸ Nat.le_of_not_lt hi)
  | service l =>
    have hcall : ∀ q, l ≠ .call q := by
      rintro q rfl
      cases hs
    have hstep : (x.world.step π l).map (fun world => { x with world }) = some x' := by
      cases l with
      | call q => exact absurd rfl (hcall q)
      | exec | finish | crash | tick | edit => exact hs
    obtain ⟨w, hw, rfl⟩ := Option.map_eq_some_iff.mp hstep
    exact h.service hcall hw

theorem Guarded.of_exec {x : Backend P} {ls : List (Arrival P)}
    (h : Run.exec (UserController.step nodeEnv π) (UserController.init s) ls = some x)
    (hC : Run.Along (UserController.step nodeEnv π) Genuine (UserController.init s) ls) :
    Guarded nodeEnv π s x :=
  Run.invariant_along (I := Guarded nodeEnv π s) (fun hI hg hs => hI.step hg hs) h hC (.init s)

/-! ## User ids -/

/-- The user id a unique-index entry is of. -/
def UserKey.user : UserKey P → Option String
  | .pkUser id => some id
  | .loginId _ | .pkSession _ | .refreshHash _ | .beforeRefreshHash _ => none

def Tables.userIds (d : Tables P) : List String := d.accounts.map (·.userId)

theorem userIds_keys (ws : List (UserWrite P)) :
    (ws.flatMap UserWrite.keys).filterMap UserKey.user =
      (ws.filterMap UserWrite.account).map (·.userId) := by
  induction ws with
  | nil => rfl
  | cons w ws ih =>
    have hw : w.keys.filterMap UserKey.user = (w.account.map (·.userId)).toList := by
      cases w with
      | insertUser r => rfl
      | updateUser | insertSession => rfl
      | insertSessionRefresh r =>
        cases hb : r.beforeRefreshHash <;>
          simp [UserWrite.keys, UserKey.user, UserWrite.account, hb]
    rw [List.flatMap_cons, List.filterMap_append, ih, hw]
    cases ha : w.account <;> simp [ha]

/-- No two accounts have one user id. -/
def userIdRely (π : Policy (schema P)) : Rely π where
  inv s := s.db.userIds.Nodup
  grow _ _ := True
  refl _ := trivial
  trans _ _ := trivial
  tick h _ := ⟨h, trivial⟩
  edit h _ := ⟨h, trivial⟩

theorem userIdRely_keeps (V : Service (schema P)) : (userIdRely π).Keeps V := by
  intro r a s₀ s l t _ hi _ hf
  have hinj : ∀ (k k' : UserKey P) (id : String),
      id ∈ UserKey.user k → id ∈ UserKey.user k' → k = k' := by
    intro k k' id hk hk'
    cases k <;> cases hk
    cases k' <;> cases hk'
    rfl
  refine ⟨hf.nodup (f := Tables.userIds) hinj ?_ ?_ hi, trivial⟩
  · rw [Tables.userIds, (accounts_onto t s.db).1, List.map_append]
    exact congrArg _ (userIds_keys t.writes).symm
  · intro k id hk htaken hmem
    cases k <;> cases hk
    obtain ⟨u, hu, rfl⟩ := List.mem_map.mp hmem
    obtain ⟨r, hr, rfl⟩ := List.mem_map.mp hu
    have hany : s.db.tUser.any (·.userId = r.account.userId) = true :=
      List.any_eq_true.mpr ⟨r, hr, decide_eq_true rfl⟩
    cases hany.symm.trans htaken

/-! ## Who has ordered an account -/

/-- The account that a login has found. -/
theorem getLoginUser_account {d : Tables P} {u : PassportUserResultDto}
    (h : PassPortJwtAuthService.getLoginUser (some d) userId = some u) :
    ∃ admin ∈ d.accounts, admin.userId = userId ∧ P.collate admin.authId = P.collate u.authId ∧
      ∃ st ∈ d.tState, P.collate st.stateId = P.collate admin.stateId ∧ st.isLoginAble = 1 := by
  simp only [PassPortJwtAuthService.getLoginUser, Option.bind_eq_bind, Option.bind_some,
    Option.bind_eq_some_iff] at h
  obtain ⟨row, hrow, st, hst, authId, hauth, hable⟩ := h
  split at hable <;> cases hable
  rename_i hable
  have hid : row.userId = userId := by simpa using List.find?_some hrow
  have hstate : P.collate st.stateId = P.collate row.stateId := by simpa using List.find?_some hst
  have hrole : P.collate authId = P.collate row.authId := by simpa using List.find?_some hauth
  exact ⟨row.account, account_mem (List.mem_of_find?_eq_some hrow), hid, hrole.symm, st,
    List.mem_of_find?_eq_some hst, hstate, hable⟩

variable (P) in
/-- The account has one of the authorities that may create accounts. -/
def UserEntity.Administers (u : UserEntity) : Prop :=
  P.collate u.authId = P.collate "ADMIN" ∨ P.collate u.authId = P.collate "SUPER_ADMIN"

/-- In this state the administrator can log in, and the request has come with an access token that
has not expired (in development with an expired one too), of a session that a sign-in with the
administrator's password has opened. -/
structure OrderedBy (nodeEnv : Option String) (w : World (userService P)) (p : Passed P)
    (admin : UserEntity) : Prop where
  account : admin ∈ w.db.accounts
  role : admin.Administers P
  state : ∃ st ∈ w.db.tState, P.collate st.stateId = P.collate admin.stateId ∧ st.isLoginAble = 1
  bearer : ∃ sessionId signed, p.bearer = some (accessTokenAt P admin.userId sessionId signed) ∧
    (nodeEnv = some "development" ∨ w.clock < (signed / 1000 + accessExpiresIn) * 1000) ∧
    ∃ j dto ip result now, w.Succeeded j (.signIn dto ip) (.signedIn result) ∧
      P.collate dto.loginId = P.collate admin.loginId ∧
      P.matchBcrypt dto.loginPw admin.loginPw = true ∧
      result.refreshToken = refreshTokenAt P admin.userId sessionId now

/-- What is assumed of the store that a run starts in: nobody is signed in, and login ids and user
ids are unique. -/
structure Fresh (s : Store (schema P)) : Prop where
  sessions : s.db.tSession = []
  refreshRows : s.db.tSessionRefresh = []
  loginIds : s.db.OneAccount
  userIds : s.db.userIds.Nodup

/-- Every session was opened by a sign-in to its user's account. -/
theorem Fresh.opened (hs : Fresh s) (hP : P.Lawful) (h : (World.init s).Reaches π w)
    {session : SessionEntity} (hmem : session ∈ w.db.tSession) :
    ∃ j r, OpenedBy w j r ∧ r.userId = session.userId ∧ r.sessionId = session.sessionId := by
  obtain ⟨opened, _, hopened, hall, _⟩ :=
    sessions_exact hP (.initial hs.sessions hs.refreshRows) hs.loginIds h
  have hin : session.opened ∈ w.db.openedSessions := List.mem_map_of_mem hmem
  rw [hopened, Tables.openedSessions, hs.sessions] at hin
  obtain ⟨⟨j, r⟩, hr, he⟩ := List.mem_map.mp hin
  obtain rfl : r = session.opened := he
  exact ⟨j, _, hall j _ hr, rfl, rfl⟩

theorem Fresh.orderedBy (hs : Fresh s) (hP : P.Lawful) (h : (World.init s).Reaches π w)
    {p : Passed P} (hp : p.request = .adminCreate dto) (hv : Vouched nodeEnv w p) :
    ∃ admin, OrderedBy nodeEnv w p admin := by
  have htables : TablesInv s.db := .initial hs.sessions hs.refreshRows
  have hsound : w.Sound (userRely π) :=
    ((World.Sound.init htables).reaches (userRely_keeps hP) h).1
  have hids : w.db.userIds.Nodup :=
    ((World.Sound.init (A := userIdRely π) hs.userIds).reaches (userIdRely_keeps _) h).1.inv
  obtain ⟨db, hdb, hpass⟩ := hv.admitted
  rw [hp] at hpass
  obtain ⟨payload, u, _, had⟩ := adminCreate_activate_iff.mp hpass
  obtain ⟨token, hbearer, hverify⟩ := Option.bind_eq_some_iff.mp had.verified
  have hsigned : P.signatureOk token = true := by
    rw [Crypto.verifyBearer] at hverify
    split at hverify
    · assumption
    · cases hverify
  obtain ⟨i, q, a, hsucc, htoken⟩ := mem_handedOut.mp (hv.genuine token hbearer hsigned)
  obtain ⟨session, hsession, signed, now, htokens, _⟩ :=
    carried_of_sound hP hsound hsucc (List.ne_nil_of_mem htoken)
  obtain ⟨j, r, ⟨dto', ip, result, hin, user, huser, hlogin, hpassword, _, hrow, now', hrefresh⟩,
    hruser, hrsession⟩ := hs.opened hP h hsession
  rw [htokens] at htoken
  rcases List.mem_pair.mp htoken with rfl | rfl
  swap
  · -- a refresh token does not have the type that the strategy asks for
    obtain ⟨_, rfl⟩ := (verifyBearer_sign hP).mp hverify
    have htype := had.type
    simp [refreshClaims] at htype
  obtain ⟨hlive, rfl⟩ := (verifyBearer_sign hP).mp hverify
  have hlogged : PassPortJwtAuthService.getLoginUser db session.userId = some u := had.login
  obtain rfl : db = some w.db := by
    rcases hdb with rfl | hdb
    · cases hlogged
    · exact hdb
  obtain ⟨admin, hadmin, hid, hauth, hstate⟩ := getLoginUser_account hlogged
  have hsame : user = admin := by
    refine List.inj_on_of_nodup_map hids huser hadmin ?_
    rw [hid, ← hruser, hrow]
    rfl
  subst hsame
  refine ⟨user, hadmin, ?_, hstate, session.sessionId, signed, hid ▸ hbearer, ?_, j, dto', ip,
    result, now', hin, hlogin.symm, hpassword, ?_⟩
  · rw [UserEntity.Administers, hauth]
    exact had.administers.imp (congrArg P.collate) (congrArg P.collate)
  · refine hlive.imp_left ?_
    exact of_decide_eq_true
  · rw [hid, ← hruser, ← hrsession]
    exact hrow ▸ hrefresh

/-! ## Every account has been ordered -/

theorem created_at (hs : s.db.OneAccount) (h : (World.init s : World (userService P)).Reaches π w)
    (hn : s.db.accounts.length ≤ n) (hu : w.db.accounts[n]? = some u) : ∃ i, CreatedBy w i u := by
  obtain ⟨created, _, haccounts, hall, _⟩ := accounts_exact hs h
  rw [haccounts, List.getElem?_append_right hn] at hu
  obtain ⟨⟨i, u'⟩, hmem, rfl⟩ := List.mem_map.mp (List.mem_of_getElem? hu)
  exact ⟨i, hall i u' hmem⟩

theorem CreatedBy.later (h : CreatedBy w i u) (hr : w.Reaches π w') : CreatedBy w' i u := by
  obtain ⟨dto, userId, salt, hsucc, hpw, hu⟩ := h
  exact ⟨dto, userId, salt, hr.calls.2 hsucc, hpw, hu⟩

theorem CreatedBy.loginId (h : CreatedBy w i u) (h' : CreatedBy w i u') :
    u.loginId = u'.loginId := by
  obtain ⟨dto, _, _, ⟨l, hi⟩, _, rfl⟩ := h
  obtain ⟨dto', _, _, ⟨l', hi'⟩, _, rfl⟩ := h'
  cases hi.symm.trans hi'
  rfl

/-- One call has created the account of a login id. -/
theorem created_unique (hs : s.db.OneAccount)
    (h : (World.init s : World (userService P)).Reaches π w) (hi : CreatedBy w i u)
    (hj : CreatedBy w j u') (he : u.loginId = u'.loginId) : i = j := by
  obtain ⟨created, _, haccounts, hall, hmem, hone⟩ := accounts_exact hs h
  have hlogins : (created.map fun c => P.collate c.2.loginId).Nodup := by
    have hnodup : (w.db.accounts.map (P.collate ·.loginId)).Nodup := hone
    rw [haccounts, List.map_append, List.map_map] at hnodup
    exact (List.nodup_append'.mp hnodup).2.1
  have hcreated {i : Nat} {u : UserEntity} (hi : CreatedBy w i u) :
      ∃ v, (i, v) ∈ created ∧ v.loginId = u.loginId := by
    obtain ⟨dto, _, _, hsucc, _⟩ := id hi
    obtain ⟨v, hv⟩ := hmem i dto hsucc
    exact ⟨v, hv, (hall i v hv).loginId hi⟩
  obtain ⟨v, hv, hvu⟩ := hcreated hi
  obtain ⟨v', hv', hvu'⟩ := hcreated hj
  exact congrArg Prod.fst
    (List.inj_on_of_nodup_map hlogins hv hv' (congrArg P.collate (hvu.trans (he.trans hvu'.symm))))

theorem Guarded.ordered (hs : Fresh s) (hP : P.Lawful) {x : Backend P}
    (h : Guarded nodeEnv π s x) (hn : s.db.accounts.length ≤ n)
    (hu : x.world.db.accounts[n]? = some u) :
    ∃ i p w admin, x.handled[i]? = some p ∧ CreatedBy x.world i u ∧
      (World.init s).Reaches π w ∧ w.Reaches π x.world ∧ w.db.accounts.length ≤ n ∧
      OrderedBy nodeEnv w p admin := by
  obtain ⟨i, hcreated⟩ := created_at hs.loginIds h.reached hn hu
  obtain ⟨dto, _, _, ⟨l, hi⟩, _⟩ := id hcreated
  have hreq : (x.world.calls.map Call.req)[i]? = some (.adminCreate dto) := by
    rw [List.getElem?_map, hi]
    rfl
  rw [h.requests, List.getElem?_map, Option.map_eq_some_iff] at hreq
  obtain ⟨p, hp, hpreq⟩ := hreq
  obtain ⟨w, hreach, hlater, hlen, hv⟩ := h.handled i p hp
  obtain ⟨admin, hordered⟩ := hs.orderedBy hP hreach hpreq hv
  refine ⟨i, p, w, admin, hp, hcreated, hreach, hlater, Nat.le_of_not_lt ?_, hordered⟩
  -- an account that was there before the guards has another call
  intro hlt
  have hsound : w.Sound (accountRely π) :=
    ((World.Sound.init hs.loginIds).reaches (accountRely_keeps _) hreach).1
  have hprefix : w.db.accounts <+: x.world.db.accounts :=
    (hsound.reaches (accountRely_keeps _) hlater).2.1
  have hold : w.db.accounts[n]? = some u := by
    obtain ⟨rest, hrest⟩ := hprefix
    rw [← hu, ← hrest, List.getElem?_append_left hlt]
  obtain ⟨j, hj⟩ := created_at hs.loginIds hreach hn hold
  obtain ⟨_, _, _, ⟨_, hjcall⟩, _⟩ := id hj
  have hji : j < i := Nat.lt_of_lt_of_le (List.getElem?_eq_some_iff.mp hjcall).1 hlen
  exact hji.ne' (created_unique hs.loginIds h.reached hcreated (hj.later hlater) rfl)

/-- **Every account was ordered by an administrator**: when the service is the only one that signs
tokens, every account that requests have added was created by a call whose guards had met an access
token, unexpired but in development, of an administrator who was there before the account, could log
in and had signed in with his password. Without an administrator at the start no account is ever
added. -/
theorem accounts_ordered (hs : Fresh s) (hP : P.Lawful) {x : Backend P} {ls : List (Arrival P)}
    (h : Run.exec (UserController.step nodeEnv π) (UserController.init s) ls = some x)
    (hC : Run.Along (UserController.step nodeEnv π) Genuine (UserController.init s) ls) :
    (∀ n u, s.db.accounts.length ≤ n → x.world.db.accounts[n]? = some u →
      ∃ i p w admin, x.handled[i]? = some p ∧ CreatedBy x.world i u ∧
        (World.init s).Reaches π w ∧ w.Reaches π x.world ∧ w.db.accounts.length ≤ n ∧
        OrderedBy nodeEnv w p admin) ∧
    ((∀ u ∈ s.db.accounts, ¬ u.Administers P) →
      x.world.db.accounts = s.db.accounts) := by
  have hguarded : Guarded nodeEnv π s x := .of_exec h hC
  refine ⟨fun n u hn hu => hguarded.ordered hs hP hn hu, ?_⟩
  intro hnone
  obtain ⟨created, _, haccounts, _⟩ := accounts_exact hs.loginIds hguarded.reached
  cases created with
  | nil => rw [haccounts, List.map_nil, List.append_nil]
  | cons c created =>
    have hfirst : x.world.db.accounts[s.db.accounts.length]? = some c.2 := by
      rw [haccounts, List.getElem?_append_right (Nat.le_refl _), Nat.sub_self]
      rfl
    obtain ⟨_, _, w, admin, _, _, hreach, _, hlen, hordered⟩ :=
      hguarded.ordered hs hP (Nat.le_refl _) hfirst
    -- the administrator is one of the accounts of the start
    obtain ⟨created', _, hbefore, _⟩ := accounts_exact hs.loginIds hreach
    have hold : w.db.accounts = s.db.accounts := by
      rw [hbefore, List.length_append] at hlen
      rw [hbefore, List.eq_nil_of_length_eq_zero (l := created'.map Prod.snd) (by omega),
        List.append_nil]
    exact absurd hordered.role (hnone admin (hold ▸ hordered.account))

instance (x : Backend symbolic) (l : Arrival symbolic) : Decidable (Genuine x l) :=
  match l with
  | .guards _ bearer _ =>
    inferInstanceAs (Decidable (∀ token ∈ bearer, symbolic.signatureOk token = true →
      token ∈ handedOut x.world))
  | .handler _ | .service _ => isTrue trivial

/-- An administrator signs in and creates an account; a request without a token is refused. -/
def orderLabels : List (Arrival symbolic) :=
  let dto : AdminUserCreateDto := ⟨"member", "pw", "pw", "name", "nick", "ADMIN", none⟩
  [.guards (.adminCreate dto) none false,
    .guards (.signIn ⟨"id", "pw", none, none⟩ none) none false, .handler 0] ++
    ([.proceed, .proceed, .pick "s", .proceed, .proceed, .proceed, .pick "iv", .proceed].map
      fun c => .service (.exec 0 c)) ++
    [.service (.finish 0),
      .guards (.adminCreate dto) (some (accessTokenAt symbolic "u" "s" 5000)) false, .handler 0] ++
    ([.proceed, .pick "m", .pick "salt", .proceed].map fun c => .service (.exec 1 c)) ++
    [.service (.finish 1)]

def ordered : Backend symbolic :=
  (Run.exec (UserController.step none (calm symbolic .repeatableRead))
    (UserController.init ⟨promoted, 5000⟩) orderLabels).get (by decide +kernel)

theorem accounts_ordered_sample : ordered.world.db.accounts.map (·.loginId) = ["id", "member"] ∧
    ∃ (i : Nat) (p : Passed symbolic) (w : World (userService symbolic)) (admin : UserEntity),
      ordered.handled[i]? = some p ∧ w.db.accounts.length ≤ 1 ∧ OrderedBy none w p admin := by
  have hs : Fresh (P := symbolic) ⟨promoted, 5000⟩ :=
    ⟨rfl, rfl, List.nodup_singleton _, List.nodup_singleton _⟩
  have hrun : Run.exec (UserController.step none (calm symbolic .repeatableRead))
      (UserController.init ⟨promoted, 5000⟩) orderLabels = some ordered := (Option.some_get _).symm
  obtain ⟨hall, _⟩ := accounts_ordered hs symbolic_lawful hrun (by decide +kernel)
  have hlogins : ordered.world.db.accounts.map (·.loginId) = ["id", "member"] := by decide +kernel
  have hlength : ordered.world.db.accounts.length = 2 := by
    simpa using congrArg List.length hlogins
  obtain ⟨i, p, w, admin, hp, _, _, _, hlen, hordered⟩ :=
    hall 1 (ordered.world.db.accounts.get ⟨1, by omega⟩) (by decide)
      (List.getElem?_eq_getElem (by omega))
  exact ⟨hlogins, i, p, w, admin, hp, hlen, hordered⟩

end NestHarness
