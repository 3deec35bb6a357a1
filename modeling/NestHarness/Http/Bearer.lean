import NestHarness.Http.Guards
import NestHarness.User.Revocation

/-!
# Bearer tokens

What `PassportJwtAuthStrategy` makes of the token that comes with a request, and which of the tokens
that the user service hands out it lets pass the guards of a route. The session of a token is not
consulted: an access token opens the route until it expires, whatever has become of its session.
-/

namespace NestHarness

open Txn

variable {P : Crypto} {π : Policy (schema P)} {w : World (userService P)} {s : Store (schema P)}

variable (P) in
/-- The claims of a token as `passport-jwt` takes them; `none` for a token that it refuses. -/
def Crypto.verifyBearer (ignoreExpiration : Bool) (token : P.Token) (now : Nat) :
    Option JwtPayload :=
  if P.signatureOk token then
    (P.decodeJwt token).filter fun p => ignoreExpiration || p.exp.all (now / 1000 < ·)
  else none

namespace PassportJwtAuthStrategy

/-- `process.env.NODE_ENV === 'development'`. -/
def ignoreExpiration (nodeEnv : Option String) : Bool := nodeEnv = some "development"

/-- What the guards of a request consult that comes with this bearer token at the instant `now`. -/
def credentials (nodeEnv : Option String) (bearer : Option P.Token) (now : Nat)
    (db : Option (Tables P)) : Credentials P where
  payload := bearer.bind fun token => P.verifyBearer (ignoreExpiration nodeEnv) token now
  db

end PassportJwtAuthStrategy

open PassportJwtAuthStrategy (credentials)

/-- The guards of the route, one after the other: the user they leave on the request. -/
def Route.activate (route : Route P) (c : Credentials P) :
    Except JsError (Option PassportUserResultDto) :=
  route.guards.foldlM (fun user guard => guard c user) none

/-! ## The guards of a route -/

/-- The user may create accounts. -/
def PassportUserResultDto.Administers (u : PassportUserResultDto) : Prop :=
  u.authId = "ADMIN" ∨ u.authId = "SUPER_ADMIN"

/-- Whom the guards of `adminCreate` let pass. -/
structure AdmittedAs (c : Credentials P) (payload : JwtPayload) (u : PassportUserResultDto) :
    Prop where
  verified : c.payload = some payload
  type : payload.type = some "access"
  login : PassPortJwtAuthService.getLoginUser c.db (payload.userId.getD "") = some u
  administers : u.Administers

theorem rolesGuard_iff {c : Credentials P} {u : PassportUserResultDto} :
    RolesGuard (some ["ADMIN", "SUPER_ADMIN"]) c (some u) = .ok r ↔ r = some u ∧ u.Administers := by
  have hany : (["ADMIN", "SUPER_ADMIN"].any (· = u.authId)) = true ↔ u.Administers := by
    simp only [PassportUserResultDto.Administers, List.any_cons, List.any_nil, Bool.or_false,
      Bool.or_eq_true, decide_eq_true_eq, eq_comm (b := u.authId)]
  rw [RolesGuard, ← hany]
  split
  · rename_i h
    constructor
    · intro hr
      cases hr
      exact ⟨rfl, h⟩
    · intro hr
      rw [hr.1]
  · rename_i h
    simp [h]

/-- The login of a request. -/
theorem jwtAuthGuard_iff {c : Credentials P} :
    PassportJwtAuthGuard c none = .ok r ↔ ∃ payload u, r = some u ∧ c.payload = some payload ∧
      payload.type = some "access" ∧
      PassPortJwtAuthService.getLoginUser c.db (payload.userId.getD "") = some u := by
  rw [PassportJwtAuthGuard]
  cases hc : c.payload with
  | none => simp
  | some payload =>
    dsimp only
    rw [PassportJwtAuthStrategy.validate]
    split
    · rename_i htype
      cases hu : PassPortJwtAuthService.getLoginUser c.db (payload.userId.getD "") with
      | none => simp [Except.map, hu]
      | some u => simp [Except.map, hu, htype, eq_comm]
    · rename_i htype
      simp [Except.map, htype]

theorem adminCreate_activate_iff {c : Credentials P} :
    UserController.adminCreate.activate c = .ok r ↔
      ∃ payload u, r = some u ∧ AdmittedAs c payload u := by
  have hpass : UserController.adminCreate.activate c =
      PassportJwtAuthGuard c none >>= fun user =>
        RolesGuard (some ["ADMIN", "SUPER_ADMIN"]) c user >>= pure := rfl
  rw [hpass]
  constructor
  · intro h
    cases hlogin : PassportJwtAuthGuard c none with
    | error e =>
      rw [hlogin] at h
      cases h
    | ok user =>
      obtain ⟨payload, u, rfl, hc, htype, hu⟩ := jwtAuthGuard_iff.mp hlogin
      rw [hlogin] at h
      have hroles : RolesGuard (some ["ADMIN", "SUPER_ADMIN"]) c (some u) = .ok r :=
        (bind_pure _).symm.trans h
      obtain ⟨hr, hadministers⟩ := rolesGuard_iff.mp hroles
      exact ⟨payload, u, hr, hc, htype, hu, hadministers⟩
  · intro h
    obtain ⟨payload, u, rfl, had⟩ := h
    rw [jwtAuthGuard_iff.mpr ⟨payload, u, rfl, had.verified, had.type, had.login⟩]
    exact (bind_pure _).trans (rolesGuard_iff.mpr ⟨rfl, had.administers⟩)

/-! ## Signed tokens -/

/-- A signed token is taken until it expires, and in development for ever. -/
theorem verifyBearer_sign (hP : P.Lawful) {claims payload : JwtPayload} {n signed now : Nat}
    {ignoring : Bool} :
    P.verifyBearer ignoring (P.sign claims n signed) now = some payload ↔
      (ignoring = true ∨ now < (signed / 1000 + n) * 1000) ∧
        payload = { claims with iat := some (signed / 1000), exp := some (signed / 1000 + n) } := by
  have hexp : now / 1000 < signed / 1000 + n ↔ now < (signed / 1000 + n) * 1000 :=
    Nat.div_lt_iff_lt_mul (by decide)
  rw [Crypto.verifyBearer, hP.decode_sign, Crypto.sign, hP.signatureOk_encode, if_pos rfl,
    Option.filter_eq_some_iff, ← hexp]
  constructor
  · intro h
    obtain ⟨he, hlive⟩ := h
    cases he
    exact ⟨by simpa using hlive, rfl⟩
  · intro h
    obtain ⟨hlive, rfl⟩ := h
    exact ⟨rfl, by simpa using hlive⟩

/-- The guards let the token pass, for a user of this id. -/
def Admits (nodeEnv : Option String) (token : P.Token) (now : Nat) (db : Option (Tables P))
    (r : Option PassportUserResultDto) : Prop :=
  UserController.adminCreate.activate (credentials nodeEnv (some token) now db) = .ok r

theorem admits_access_iff (hP : P.Lawful) {nodeEnv : Option String} {db : Option (Tables P)} :
    Admits nodeEnv (accessTokenAt P userId sessionId signed) now db r ↔
      (nodeEnv = some "development" ∨ now < (signed / 1000 + accessExpiresIn) * 1000) ∧
        ∃ u, r = some u ∧ PassPortJwtAuthService.getLoginUser db userId = some u ∧
          u.Administers := by
  have hpayload {payload : JwtPayload} :
      P.verifyBearer (PassportJwtAuthStrategy.ignoreExpiration nodeEnv)
        (accessTokenAt P userId sessionId signed) now = some payload ↔ _ := verifyBearer_sign hP
  rw [show PassportJwtAuthStrategy.ignoreExpiration nodeEnv = true ↔
    nodeEnv = some "development" from decide_eq_true_iff] at hpayload
  rw [Admits, adminCreate_activate_iff]
  constructor
  · intro h
    obtain ⟨payload, u, hr, had⟩ := h
    obtain ⟨hlive, rfl⟩ := hpayload.mp had.verified
    exact ⟨hlive, u, hr, had.login, had.administers⟩
  · intro h
    obtain ⟨hlive, u, hr, hlogin, hadministers⟩ := h
    exact ⟨_, u, hr, hpayload.mpr ⟨hlive, rfl⟩, rfl, hlogin, hadministers⟩

theorem not_admits_refresh (hP : P.Lawful) {nodeEnv : Option String} {db : Option (Tables P)} :
    ¬ Admits nodeEnv (refreshTokenAt P userId sessionId signed) now db r := by
  rw [Admits, adminCreate_activate_iff]
  intro h
  obtain ⟨payload, u, _, had⟩ := h
  obtain ⟨_, rfl⟩ := (verifyBearer_sign hP).mp had.verified
  have htype := had.type
  simp [refreshClaims] at htype

/-! ## The tokens of a run -/

/-- The tokens of a reply are for a session of the database. -/
theorem carried_of_sound (hP : P.Lawful) (h : w.Sound (userRely π)) (hsucc : w.Succeeded i q a)
    (ht : a.tokens ≠ []) :
    ∃ session ∈ w.db.tSession, a.Carries session.userId session.sessionId := by
  obtain ⟨l, hcall⟩ := hsucc
  rcases h.calls _ (List.mem_of_getElem? hcall) with ⟨s₀, s₁, t, _, hi₁, hrun, _, hg⟩ | ⟨_, he⟩
  swap
  · cases he
  have hdone {user : String} {sid : String} (hcarries : a.Carries user sid)
      (hholds : ∃ r ∈ (t.onto s₁.db).tSession, r.sessionId = sid ∧ r.userId = user) :
      ∃ session ∈ w.db.tSession, a.Carries session.userId session.sessionId := by
    obtain ⟨r, hr, rfl, rfl⟩ := hholds
    have hgrows : Grows π (t.onto s₁.db) w.db := hg.1
    obtain ⟨session, hmem, hid, huser⟩ := hgrows.session hr
    exact ⟨session, hmem, hid ▸ huser ▸ hcarries⟩
  cases q with
  | adminCreate dto =>
    obtain ⟨_ | _, he, _⟩ := hrun.map_inv <;> cases he
    exact absurd rfl ht
  | signIn dto ip =>
    obtain ⟨_ | _, he, hsign⟩ := hrun.map_inv <;> cases he
    obtain ⟨user, sid, hin, hcarries⟩ := signIn_carries hP hsign
    obtain ⟨iv, now, hwrites, _⟩ := hin.writes
    refine hdone hcarries
      ⟨sessionRow user.userId sid ((UserService.mobilePatch dto).map UserPatch.stored) ip, ?_, rfl,
        rfl⟩
    rw [sessions_onto, hwrites]
    refine List.mem_append_right _ ?_
    cases UserService.mobilePatch dto <;> exact List.mem_singleton_self _
  | refresh dto ip =>
    obtain ⟨_ | _, he, href⟩ := hrun.map_inv <;> cases he
    obtain ⟨session, hholds, _, _, _, hrep, _⟩ := refresh_ok .rfl hP href hi₁
    obtain ⟨r, hr, hid, huser⟩ := hholds
    refine hdone hrep.carries ⟨r, ?_, hid, huser⟩
    rw [sessions_onto]
    exact List.mem_append_left _ hr

/-- No refresh takes an access token. -/
theorem access_not_refreshed (hP : P.Lawful) (h : w.Sound (userRely π)) {dto : UserRefreshDto P}
    (ht : dto.refreshToken = accessTokenAt P userId sessionId signed) :
    ¬ w.Succeeded i (.refresh dto ip) a := by
  intro hsucc
  obtain ⟨l, hcall⟩ := hsucc
  rcases h.calls _ (List.mem_of_getElem? hcall) with ⟨s₀, s₁, t, _, hi₁, hrun, _⟩ | ⟨_, he⟩
  swap
  · cases he
  obtain ⟨_ | _, he, href⟩ := hrun.map_inv <;> cases he
  obtain ⟨_, _, _, _, _, _, _, s₂, payload, _, hverify, hpayload, _⟩ := refresh_ok .rfl hP href hi₁
  rw [ht] at hverify
  have htype : payload.type = some "access" := (verify_sign_claims hP hverify).1
  simp [hpayload.type] at htype

/-- **What a token opens**: of the two tokens that a call hands out, the guards of `adminCreate` let
the access token pass until it expires, in development for ever, for the user of its session and by
that user's role, whether or not the session has been deleted; they never let the refresh token
pass, and no later call refreshes the access token. -/
theorem access_opens (hP : P.Lawful) (hs : TablesInv s.db)
    (h : (World.init s : World (userService P)).Reaches π w) (hsucc : w.Succeeded i q a)
    (ht : a.tokens = [access, refresh]) (he : a.accessExpiresAt = some expiresAt) :
    ∃ session ∈ w.db.tSession,
      (∀ nodeEnv now db r, Admits nodeEnv access now db r ↔
        (nodeEnv = some "development" ∨ now < expiresAt) ∧
          ∃ u, r = some u ∧ PassPortJwtAuthService.getLoginUser db session.userId = some u ∧
            u.Administers) ∧
      (∀ nodeEnv now db r, ¬ Admits nodeEnv refresh now db r) ∧
      ∀ w', w.Reaches π w' → ∀ j ip a', ¬ w'.Succeeded j (.refresh ⟨access⟩ ip) a' := by
  have hsound : w.Sound (userRely π) := ((World.Sound.init hs).reaches (userRely_keeps hP) h).1
  obtain ⟨session, hmem, now, now', htokens, hexpires⟩ :=
    carried_of_sound hP hsound hsucc (by simp [ht])
  cases ht.symm.trans htokens
  cases he.symm.trans hexpires
  refine ⟨session, hmem, ?_, ?_, ?_⟩
  · intro nodeEnv at_ db r
    exact admits_access_iff hP
  · intro nodeEnv at_ db r
    exact not_admits_refresh hP
  · intro w' h' j ip a'
    exact access_not_refreshed hP (hsound.reaches (userRely_keeps hP) h').1 rfl

/-- The database of the sample run once the user has become an administrator. -/
def promoted : Tables symbolic where
  tAuth := ["ADMIN"]
  tPosition := []
  tState := [⟨"ACTIVE", 1⟩]
  tUser := [⟨"u", "ADMIN", "ACTIVE", none, "id", "salt$codepw", "name", "nick", none, none⟩]
  tSession := []
  tSessionRefresh := []

theorem access_opens_sample : ∃ a access refresh,
    busyWorld.Succeeded 0 (.signIn ⟨"id", "pw", none, none⟩ none) a ∧
    a.tokens = [access, refresh] ∧
    (∃ u, u.Administers ∧ Admits none access 1204999 (some promoted) (some u)) ∧
    (∀ r, ¬ Admits none access 1205000 (some promoted) r) ∧
    ∀ r, ¬ Admits none refresh 1204999 (some promoted) r := by
  obtain ⟨session, hmem, haccess, hrefresh, _⟩ :=
    access_opens (s := sampleStore 5000) (i := 0) symbolic_lawful (.initial rfl rfl) busy_reaches
      ⟨_, rfl⟩ rfl rfl
  have hsessions : busyWorld.db.tSession.map (·.userId) = ["u"] := by decide +kernel
  have huser : session.userId = "u" :=
    List.mem_singleton.mp (hsessions ▸ List.mem_map_of_mem hmem)
  rw [huser] at haccess
  refine ⟨_, _, _, ⟨_, rfl⟩, rfl, ?_, ?_, ?_⟩
  · exact ⟨_, .inl rfl, (haccess none 1204999 (some promoted) _).mpr
      ⟨.inr (by decide), _, rfl, rfl, .inl rfl⟩⟩
  · intro r h
    obtain ⟨hlive, _⟩ := (haccess none 1205000 (some promoted) r).mp h
    simp at hlive
  · exact hrefresh none 1204999 (some promoted)

end NestHarness
