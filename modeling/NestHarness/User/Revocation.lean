import NestHarness.User.Provenance

/-!
# Deleted sessions

A session is deleted from outside, at any moment of a run. From then on it stays deleted, and no
call that is made later hands out a token of it. Calls that were made before may still do so: under
`REPEATABLE READ` they read the session as it was at their first read.
-/

namespace NestHarness

open Txn UserRepository UserService

variable {P : Crypto} {π : Policy (schema P)} {A : Rely π}

/-! ## The tokens of a reply -/

/-- The access token and the refresh token that a call has returned. -/
def UserReply.tokens : UserReply P → List P.Token
  | .created => []
  | .signedIn result => [result.accessToken, result.refreshToken]
  | .refreshed result => [result.accessToken, result.refreshToken]

/-- When the access token expires, as the reply says. -/
def UserReply.accessExpiresAt : UserReply P → Option Nat
  | .created => none
  | .signedIn result => some result.accessExpiresAt
  | .refreshed result => some result.accessExpiresAt

/-- Both tokens were signed for the user and the session. -/
def UserReply.Carries (a : UserReply P) (userId sessionId : String) : Prop :=
  ∃ now now', a.tokens =
      [accessTokenAt P userId sessionId now, refreshTokenAt P userId sessionId now'] ∧
    a.accessExpiresAt = some ((now / 1000 + accessExpiresIn) * 1000)

/-- The claims of a token that verifies are those it was signed with. -/
theorem verify_sign_claims (hP : P.Lawful) {claims payload : JwtPayload} {n now clock : Nat}
    (h : P.verify (P.sign claims n now) clock = .ok payload) :
    payload.type = claims.type ∧ payload.userId = claims.userId ∧
      payload.sessionId = claims.sessionId := by
  rw [hP.verify_sign] at h
  split at h <;> cases h
  exact ⟨rfl, rfl, rfl⟩

theorem decode_of_verify {token : P.Token} (h : P.verify token clock = .ok payload) :
    P.decodeJwt token = some payload := by
  rw [Crypto.verify] at h
  split at h
  swap
  · cases h
  split at h
  · cases h
  rename_i p hd
  rw [hd]
  split at h
  · cases h
    rfl
  · split at h <;> cases h
    rfl

theorem UserReply.Carries.claims (hP : P.Lawful) {a : UserReply P}
    (h : a.Carries userId sessionId) {token : P.Token} (ht : token ∈ a.tokens)
    (hv : P.verify token clock = .ok payload) :
    payload.userId = some userId ∧ payload.sessionId = some sessionId := by
  obtain ⟨now, now', h, _⟩ := h
  rw [h] at ht
  rcases List.mem_pair.mp ht with rfl | rfl
  · exact (verify_sign_claims hP hv).2
  · exact (verify_sign_claims hP hv).2

theorem jwtSign_returns {claims : JwtPayload} {n : Nat} :
    (jwtSign claims n : UserProg P P.Token).Returns fun token =>
      ∃ now, token = P.sign claims n now := fun now => ⟨now, rfl⟩

theorem ofExcept_returns {r : Except String α} :
    (ofExcept r : UserProg P α).Returns fun a => r = .ok a := by
  cases r with
  | ok => exact rfl
  | error => trivial

/-- What `signIn` returns, whatever its operations are answered. -/
structure SignedFor (result : UserSignInResultDto P) (userId sessionId : String) : Prop where
  access : ∃ now, result.accessToken = accessTokenAt P userId sessionId now
  refresh : ∃ now, result.refreshToken = refreshTokenAt P userId sessionId now
  expires : P.extractJwtExpiresAt result.accessToken = .ok result.accessExpiresAt

theorem openSession_returns {user : UserEntity} {patch : Option UserPatch} {ip : Option String} :
    (openSession user patch ip : UserProg P _).Returns fun result =>
      ∃ sessionId, SignedFor result user.userId sessionId := by
  refine Prog.Returns.bind_of fun sessionId => Prog.Returns.bind_of fun _ => ?_
  refine jwtSign_returns.bind fun access ha => jwtSign_returns.bind fun refresh hr => ?_
  refine ofExcept_returns.bind fun accessExpiresAt he => Prog.Returns.bind_of fun _ => ?_
  refine Prog.Returns.bind_of fun _ => Prog.Returns.bind_of fun _ => ?_
  exact ⟨sessionId, ha, hr, he⟩

theorem signIn_returns {dto : UserSignInDto} {ip : Option String} :
    (UserService.signIn dto ip : UserProg P _).Returns fun result =>
      ∃ userId sessionId, SignedFor result userId sessionId := by
  refine Prog.Returns.bind_of fun user => ?_
  cases user with
  | none => trivial
  | some user =>
    dsimp only
    split
    · trivial
    refine Prog.Returns.bind_of fun state => ?_
    split
    · trivial
    refine Prog.Returns.bind_of fun _ => ?_
    rw [← Prog.bind_ret (openSession user (mobilePatch dto) ip)]
    refine openSession_returns.bind ?_
    intro result hsigned
    exact ⟨user.userId, hsigned⟩

/-- The tokens of a sign-in are for the session that it has written. -/
theorem signIn_carries (hP : P.Lawful) {result : UserSignInResultDto P} {s s' : Store (schema P)}
    (h : Runs A (UserService.signIn dto ip) s .empty l (.ended (.ok result)) s' t') :
    ∃ user sessionId, SignedIn A dto ip result s' t'.writes user sessionId ∧
      (UserReply.signedIn result).Carries user.userId sessionId := by
  obtain ⟨user, sessionId, hin⟩ := signIn_checked hP h
  obtain ⟨_, _, _, htoken⟩ := hin.writes
  obtain ⟨u, sid, ⟨now, ha⟩, ⟨now', hr⟩, he⟩ := h.returns signIn_returns
  obtain ⟨rfl, rfl, _⟩ := hP.sign_refresh_inj (htoken.symm.trans hr)
  rw [ha, accessTokenAt, hP.extract_sign _ _ (by decide)] at he
  refine ⟨user, sessionId, hin, now, now', ?_, ?_⟩
  · rw [UserReply.tokens, ha, hr]
  · rw [UserReply.accessExpiresAt, Except.ok.inj he]

/-- The tokens of a refresh are for the session that it has checked. -/
theorem Replied.carries {l : List (Event (schema P))}
    (h : Replied π oldHash ip l reply session submitted row) :
    (UserReply.refreshed reply).Carries session.userId session.sessionId := by
  obtain ⟨now, _, ht⟩ := h.stores
  obtain ⟨now', hreply⟩ := h.reply_eq
  refine ⟨now', now, ?_, ?_⟩
  · rw [UserReply.tokens, ht, hreply]
    rfl
  · rw [UserReply.accessExpiresAt, hreply]
    rfl

/-! ## What later calls rely on -/

/-- The session is there and deleted. -/
def Tables.Revoked (d : Tables P) (sessionId : String) : Prop :=
  ∃ r ∈ d.tSession, r.sessionId = sessionId ∧ r.isDelete = 1

theorem Tables.Revoked.edit {d : Tables P} (h : d.Revoked sessionId) (e : UserEdit) :
    (d.edit e).Revoked sessionId := by
  obtain ⟨r, hr, hid, hdel⟩ := h
  obtain ⟨id⟩ := e
  refine ⟨_, List.mem_map_of_mem hr, ?_⟩
  split
  · exact ⟨hid, rfl⟩
  · exact ⟨hid, hdel⟩

/-- No session row that can be used has a deleted session's id. -/
theorem Tables.Revoked.not_live {d : Tables P} (h : d.Revoked sessionId) (hinv : TablesInv d)
    {r : SessionEntity} (hr : r ∈ d.tSession) (hlive : r.isDelete = 0) :
    r.sessionId ≠ sessionId := by
  rintro rfl
  obtain ⟨r', hr', hid, hdel⟩ := h
  obtain rfl := hinv.session_unique hr' hr hid
  cases hdel.symm.trans hlive

theorem sessions_apply (d : Tables P) (c : UserWrite P) :
    (d.apply c).tSession = d.tSession ++ c.session.toList := by
  cases c with
  | insertSession => rfl
  | insertUser | updateUser | insertSessionRefresh => exact (List.append_nil _).symm

theorem sessions_onto (t : Tx (schema P)) (d : Tables P) :
    (t.onto d).tSession = d.tSession ++ t.writes.filterMap UserWrite.session := by
  obtain ⟨snapshot, ws⟩ := t
  simp only [Tx.onto]
  induction ws generalizing d with
  | nil => exact (List.append_nil _).symm
  | cons c ws ih =>
    rw [List.foldl_cons]
    refine (ih (d.apply c)).trans ?_
    rw [sessions_apply]
    cases hc : c.session <;> simp [hc]

/-- What calls rely on that are made once the session has been deleted. -/
def revokedRely (π : Policy (schema P)) (sessionId : String) : Rely π where
  inv s := TablesInv s.db ∧ s.db.Revoked sessionId
  grow := (userRely π).grow
  refl := (userRely π).refl
  trans := (userRely π).trans
  tick h ht := ⟨h, ((userRely π).tick h.1 ht).2⟩
  edit h he := ⟨⟨h.1.edit _, h.2.edit _⟩, ((userRely π).edit h.1 he).2⟩

theorem revokedRely_implies : (revokedRely π sessionId).Implies (userRely π) := ⟨And.left, id⟩

theorem revokedRely_keptBy (hP : P.Lawful) :
    (revokedRely π sessionId).KeptBy (userRely π) (userService P) := by
  intro r a s₀ s l t hi₀ hi hrev h hf
  obtain ⟨hinv, hgrow⟩ := userRely_keeps hP hi₀ hi h hf
  refine ⟨⟨hinv, ?_⟩, hgrow⟩
  obtain ⟨row, hrow, hid, hdel⟩ := hrev.2
  refine ⟨row, ?_, hid, hdel⟩
  change row ∈ (t.onto s.db).tSession
  rw [sessions_onto]
  exact List.mem_append_left _ hrow

/-- A query of a transaction that opens no session reads the sessions of a moment in the past. -/
theorem seen_sessions {e : Event (schema P)} (hpast : e.tx.Past A e.store) (hi : A.inv e.store)
    (hw : ∀ c ∈ e.tx.writes, c.session = none) :
    ∃ s₀, A.inv s₀ ∧ (eventSeen π e).tSession = s₀.db.tSession := by
  have hnone {t : Tx (schema P)} (ht : t.writes = e.tx.writes) (d : Tables P) :
      (t.onto d).tSession = d.tSession := by
    rw [sessions_onto, List.filterMap_eq_nil_iff.mpr (ht ▸ hw), List.append_nil]
  rw [eventSeen, seen]
  cases π.isolation with
  | readCommitted => exact ⟨e.store, hi, hnone (e.tx.opened_writes _) _⟩
  | repeatableRead =>
    obtain ⟨s₀, h₀, hi₀, _⟩ := hpast.opened hi _ rfl
    refine ⟨s₀, hi₀, (hnone (e.tx.opened_writes _) _).trans ?_⟩
    rw [h₀]
    rfl

/-! ## Calls that are made later -/

/-- A refresh that relies on the session being deleted takes a token of another session, and answers
for that one. -/
theorem refresh_other (hP : P.Lawful) {s s' : Store (schema P)}
    {reply : UserRefreshResultDto P}
    (h : Runs (revokedRely π sessionId) (UserService.refresh dto ip) s .empty l
      (.ended (.ok reply)) s' t') (hi : (revokedRely π sessionId).inv s') :
    ∃ userId sid, (UserReply.refreshed reply).Carries userId sid ∧ sid ≠ sessionId ∧
      ∀ now payload,
        P.verify dto.refreshToken now = .ok payload → payload.sessionId = some sid := by
  obtain ⟨session, _, row, submitted, _, hrep, _, s₁, payload, _, hverify, _, hpayload, _⟩ :=
    refresh_ok revokedRely_implies hP h hi
  refine ⟨session.userId, session.sessionId, hrep.carries, ?_, ?_⟩
  swap
  · intro now payload' hv
    cases (decode_of_verify hverify).symm.trans (decode_of_verify hv)
    exact hpayload
  obtain ⟨_, _, e, he, _, sid, hval⟩ := hrep.validated
  have honly : (UserService.refresh dto ip).Only
      (Op.Writes fun c : UserWrite P => c.session = none) := refresh_only fun _ => rfl
  obtain ⟨hpast, hwrites⟩ := h.events_tx honly (.empty _ s) e he
  have hsessions := seen_sessions hpast (h.events e he).1 fun c hc => by
    rcases hwrites c hc with hc | hc
    · cases hc
    · exact hc
  obtain ⟨s₀, hi₀, hseen⟩ := hsessions
  exact hi₀.2.not_live hi₀.1 (hseen ▸ hval.session_mem) hval.session_ok.2.1

/-- A sign-in that has gone through has opened another session. -/
theorem signIn_other (hP : P.Lawful) {s s' : Store (schema P)} {result : UserSignInResultDto P}
    (h : Runs (revokedRely π sessionId) (UserService.signIn dto ip) s .empty l
      (.ended (.ok result)) s' t') (hi : (revokedRely π sessionId).inv s')
    (hafter : TablesInv (t'.onto s'.db)) :
    ∃ userId sid, (UserReply.signedIn result).Carries userId sid ∧ sid ≠ sessionId := by
  obtain ⟨user, sid, hin, hcarries⟩ := signIn_carries hP h
  refine ⟨user.userId, sid, hcarries, ?_⟩
  obtain ⟨iv, now, hwrites, _⟩ := hin.writes
  have hnew : t'.writes.filterMap UserWrite.session =
      [sessionRow user.userId sid ((mobilePatch dto).map UserPatch.stored) ip] := by
    rw [hwrites]
    cases mobilePatch dto <;> rfl
  have hpk := hafter.sessionPk
  rw [sessions_onto, hnew, List.map_append] at hpk
  obtain ⟨r, hr, hid, _⟩ := hi.2
  rintro rfl
  exact (List.nodup_append'.mp hpk).2.2 (List.mem_map.mpr ⟨r, hr, hid⟩) (List.mem_singleton_self _)

variable {w w' : World (userService P)}

/-- A call that has ended well is for another session than the deleted one. -/
def ForOther (P : Crypto) (sessionId : String) (q : UserRequest P) (a : UserReply P) : Prop :=
  (∀ token ∈ a.tokens, ∀ now payload, P.verify token now = .ok payload →
    payload.sessionId ≠ some sessionId) ∧
  ∀ dto ip, q = .refresh dto ip → ∀ now payload, P.verify dto.refreshToken now = .ok payload →
    payload.sessionId ≠ some sessionId

theorem ForOther.of_carries (hP : P.Lawful) {q : UserRequest P} {a : UserReply P}
    (h : a.Carries userId sid) (hne : sid ≠ sessionId)
    (hq : ∀ dto ip, q = .refresh dto ip → ∀ now payload,
      P.verify dto.refreshToken now = .ok payload → payload.sessionId = some sid) :
    ForOther P sessionId q a := by
  refine ⟨?_, ?_⟩
  · intro token htoken now payload hv
    rw [(h.claims hP htoken hv).2]
    simpa using hne
  · intro dto ip he now payload hv
    rw [hq dto ip he now payload hv]
    simpa using hne

/-- A call that was made once the session had been deleted. -/
theorem forOther_of_later (hP : P.Lawful) {n : Nat}
    (h : w.SoundFrom (userRely π) (revokedRely π sessionId) n) (hle : n ≤ i)
    (hsucc : w.Succeeded i q a) : ForOther P sessionId q a := by
  obtain ⟨s₀, s₁, t, l, _, hi, hrun, hafter⟩ := h.completed hle hsucc
  cases q with
  | adminCreate dto =>
    obtain ⟨_ | _, he, _⟩ := hrun.map_inv <;> cases he
    refine ⟨?_, by simp⟩
    intro token htoken
    cases htoken
  | signIn dto ip =>
    obtain ⟨_ | _, he, hsign⟩ := hrun.map_inv <;> cases he
    obtain ⟨_, _, hcarries, hne⟩ := signIn_other hP hsign hi hafter.1
    exact .of_carries hP hcarries hne (by simp)
  | refresh dto ip =>
    obtain ⟨_ | _, he, href⟩ := hrun.map_inv <;> cases he
    obtain ⟨_, _, hcarries, hne, hpresented⟩ := refresh_other hP href hi
    refine .of_carries hP hcarries hne ?_
    intro dto' ip' he
    cases he
    exact hpresented

theorem soundFrom_revoked (hP : P.Lawful) (hw : w.Sound (userRely π))
    (hrev : w.db.Revoked sessionId) (h : w.Reaches π w') :
    w'.SoundFrom (userRely π) (revokedRely π sessionId) w.calls.length := by
  have hinv : (revokedRely π sessionId).inv w.toStore := ⟨hw.inv, hrev⟩
  exact (hw.from hinv).reaches (userRely_keeps hP) (revokedRely_keptBy hP) h

/-- **A deleted session is over**: it stays deleted, and of the calls that are made after its
deletion none takes a token of it or hands one out, whatever they are interleaved with. -/
theorem revoked_for_good (hP : P.Lawful) {s : Store (schema P)} (hs : TablesInv s.db)
    (h : (World.init s).Reaches π w) (hrev : w.db.Revoked sessionId) (h' : w.Reaches π w') :
    w'.db.Revoked sessionId ∧
      ∀ i q a, w.calls.length ≤ i → w'.Succeeded i q a → ForOther P sessionId q a := by
  have hsound : w.Sound (userRely π) := ((World.Sound.init hs).reaches (userRely_keeps hP) h).1
  have hfrom := soundFrom_revoked hP hsound hrev h'
  exact ⟨hfrom.inv.2, fun i q a hle hsucc => forOther_of_later hP hfrom hle hsucc⟩

/-! ## A sample run -/

def editing : Policy (schema symbolic) :=
  { calm symbolic .repeatableRead with edits := fun _ => true }

/-- The session of a sign-in is deleted; its token is then refused, and the user signs in again. -/
def deletedWorld : World (userService symbolic) :=
  (Run.exec (World.step editing) (World.init (sampleStore 5000))
    (signInLabels 0 ++ [.edit (.deleteSession "s")])).get (by decide +kernel)

def againLabels : List (Label (userService symbolic)) :=
  refreshLabels 1 (sampleToken 5000) [.proceed, .proceed, .proceed, .proceed] ++
    .call (UserRequest.signIn ⟨"id", "pw", none, none⟩ none) ::
      [.proceed, .proceed, .pick "again", .proceed, .proceed, .proceed, .pick "iv", .proceed].map
        (.exec 2) ++ [.finish 2]

def againWorld : World (userService symbolic) :=
  (Run.exec (World.step editing) deletedWorld againLabels).get (by decide +kernel)

theorem revoked_for_good_sample : againWorld.db.Revoked "s" ∧
    (∃ l, againWorld.calls[1]? = some ⟨.refresh ⟨sampleToken 5000⟩ none, l,
      .settled (.error refreshInvalid)⟩) ∧
    ∃ a, againWorld.Succeeded 2 (.signIn ⟨"id", "pw", none, none⟩ none) a ∧
      ForOther symbolic "s" (.signIn ⟨"id", "pw", none, none⟩ none) a := by
  have hagain : deletedWorld.Reaches editing againWorld := ⟨_, (Option.some_get _).symm⟩
  obtain ⟨hrev, hother⟩ := revoked_for_good symbolic_lawful (s := sampleStore 5000)
    (.initial rfl rfl) ⟨_, (Option.some_get _).symm⟩ ⟨_, List.mem_singleton_self _, rfl, rfl⟩ hagain
  exact ⟨hrev, ⟨_, rfl⟩, _, ⟨_, rfl⟩, hother 2 _ _ (by decide +kernel) ⟨_, rfl⟩⟩

end NestHarness
