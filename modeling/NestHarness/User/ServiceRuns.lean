import NestHarness.Lib.TxnRuns
import NestHarness.User.Service

/-!
# Completed runs of the service methods

For each method of the repository and the service, what a completed run of it has read and written.
`refresh_inv` and `firstExchange_inv` list the paths of `refresh`; every later fact about a call is
read off them.
-/

namespace NestHarness

open Txn UserRepository UserService

variable {P : Crypto} {π : Policy (schema P)} {A : Rely π}

/-! ## Operations and repository calls -/

theorem dateNow_bind {f : Nat → UserProg P α} (h : Runs A (dateNow.bind f) s t l (.ended r) s' t') :
    ∃ s₁ l', l = ⟨.now, s₁.clock, s₁, t⟩ :: l' ∧ A.grow s s₁ ∧ A.inv s₁ ∧
      Runs A (f s₁.clock) s₁ t l' (.ended r) s' t' := by
  obtain ⟨s₁, c, x, t₁, l', rfl, hg, hi, hx, h'⟩ := h.call_inv
  obtain ⟨rfl, rfl⟩ := exec_now hx
  exact ⟨s₁, l', rfl, hg, hi, h'⟩

theorem jwtSign_bind {f : P.Token → UserProg P α}
    (h : Runs A ((jwtSign claims n).bind f) s t l (.ended r) s' t') :
    ∃ s₁ l', l = ⟨.now, s₁.clock, s₁, t⟩ :: l' ∧ A.grow s s₁ ∧ A.inv s₁ ∧
      Runs A (f (P.sign claims n s₁.clock)) s₁ t l' (.ended r) s' t' :=
  dateNow_bind h

theorem randomText_bind {f : String → UserProg P α}
    (h : Runs A (randomText.bind f) s t l (.ended r) s' t') :
    ∃ x s₁ l', l = ⟨.random, x, s₁, t⟩ :: l' ∧ x ≠ "" ∧ A.grow s s₁ ∧ A.inv s₁ ∧
      Runs A (f x) s₁ t l' (.ended r) s' t' := by
  obtain ⟨s₁, c, x, t₁, l', rfl, hg, hi, hx, h'⟩ := h.call_inv
  obtain ⟨hne, rfl⟩ := exec_random hx
  exact ⟨x, s₁, l', rfl, hne, hg, hi, h'⟩

theorem encryptAesGcm_bind {f : P.Cipher → UserProg P α}
    (h : Runs A ((encryptAesGcm plain).bind f) s t l (.ended r) s' t') :
    ∃ x s₁ l', l = ⟨.random, x, s₁, t⟩ :: l' ∧ A.grow s s₁ ∧ A.inv s₁ ∧
      Runs A (f (P.encryptAesGcm x plain)) s₁ t l' (.ended r) s' t' :=
  let ⟨x, s₁, l', hl, _, h⟩ := randomText_bind h
  ⟨x, s₁, l', hl, h⟩

/-- What the transaction `t` reads in the store `s`. -/
def seen (π : Policy (schema P)) (s : Store (schema P)) (t : Tx (schema P)) : Tables P :=
  (t.opened s.db).view π.isolation s.db

/-- The run was cut short by a fault of the database. -/
def Faulted (π : Policy (schema P)) (r : Except Exn α) : Prop :=
  π.faults = true ∧ ∃ m, r = .error (internalServerErrorException m)

theorem queryOr_bind {q : UserQuery P} {f : q.Answer → UserProg P α}
    (h : Runs A ((queryOr m q).bind f) s t l (.ended r) s' t') :
    (∃ s₁ l', l = ⟨.query q, .ok ((seen π s₁ t).ask s₁.clock q), s₁, t⟩ :: l' ∧ A.grow s s₁ ∧
      A.inv s₁ ∧
      Runs A (f ((seen π s₁ t).ask s₁.clock q)) s₁ (t.opened s₁.db) l' (.ended r) s' t') ∨
    Faulted π r := by
  obtain ⟨s₁, c, x, t₁, l', rfl, hg, hi, hx, h'⟩ := h.call_inv
  rcases exec_query hx with ⟨rfl, rfl⟩ | ⟨hf, rfl, rfl⟩
  · exact .inl ⟨s₁, l', rfl, hg, hi, h'⟩
  · obtain ⟨_, rfl, _⟩ := Runs.ended_inv (.error _) h'
    exact .inr ⟨hf, _, rfl⟩

/-- Why a row change `w` fails in the store `s`. -/
inductive Fails (π : Policy (schema P)) (s : Store (schema P)) (t : Tx (schema P))
    (w : UserWrite P) : DbError (UserKey P) → Prop
  | duplicate : k ∈ w.keys → (t.onto s.db).taken k = true → Fails π s t w (.duplicate k)
  | refused : (t.onto s.db).refuse w = some n → Fails π s t w (.refused n)
  | lost : π.faults = true → Fails π s t w .lost

/-- A row change that goes through in the store `s`. -/
structure Accepted (s : Store (schema P)) (t : Tx (schema P)) (w : UserWrite P) : Prop where
  refuse : (t.onto s.db).refuse w = none
  free : ∀ k ∈ w.keys, (t.onto s.db).taken k = false

theorem writeOr_attempt_bind {w : UserWrite P} {f : Except Exn Unit → UserProg P α}
    (h : Runs A ((writeOr g w).attempt.bind f) s t l (.ended r) s' t') :
    (∃ s₁ l', l = ⟨.write w, .ok (), s₁, t⟩ :: l' ∧ A.grow s s₁ ∧ A.inv s₁ ∧ Accepted s₁ t w ∧
      Runs A (f (.ok ())) s₁ { t with writes := t.writes ++ [w] } l' (.ended r) s' t') ∨
    ∃ e s₁ l', l = ⟨.write w, .error e, s₁, t⟩ :: l' ∧ A.grow s s₁ ∧ A.inv s₁ ∧
      Fails π s₁ t w e ∧ Runs A (f (.error (g e))) s₁ t l' (.ended r) s' t' := by
  obtain ⟨s₁, c, x, t₁, l', rfl, hg, hi, hx, h'⟩ := h.call_inv
  rcases exec_write hx with ⟨rfl, rfl, hn, hk⟩ | ⟨rfl, ⟨k, hk, ht, rfl⟩ | ⟨n, hn, rfl⟩ | ⟨hf, rfl⟩⟩
  · exact .inl ⟨s₁, l', rfl, hg, hi, ⟨hn, hk⟩, h'⟩
  · exact .inr ⟨_, s₁, l', rfl, hg, hi, .duplicate hk ht, h'⟩
  · exact .inr ⟨_, s₁, l', rfl, hg, hi, .refused hn, h'⟩
  · exact .inr ⟨_, s₁, l', rfl, hg, hi, .lost hf, h'⟩

theorem writeOr_run {w : UserWrite P} {f : Unit → UserProg P α} {r : Except Exn α}
    (h : Runs A ((writeOr g w).bind f) s t l (.ended r) s' t') :
    (∃ s₁ l', l = ⟨.write w, .ok (), s₁, t⟩ :: l' ∧ A.grow s s₁ ∧ A.inv s₁ ∧ Accepted s₁ t w ∧
      Runs A (f ()) s₁ { t with writes := t.writes ++ [w] } l' (.ended r) s' t') ∨
    ∃ e s₁, l = [⟨.write w, .error e, s₁, t⟩] ∧ A.grow s s₁ ∧ A.inv s₁ ∧ Fails π s₁ t w e ∧
      r = .error (g e) := by
  obtain ⟨s₁, c, x, t₁, l', rfl, hg, hi, hx, h'⟩ := h.call_inv
  rcases exec_write hx with ⟨rfl, rfl, hn, hk⟩ | ⟨rfl, ⟨k, hk, ht, rfl⟩ | ⟨n, hn, rfl⟩ | ⟨hf, rfl⟩⟩
  · exact .inl ⟨s₁, l', rfl, hg, hi, ⟨hn, hk⟩, h'⟩
  all_goals obtain ⟨rfl, he, _⟩ := Runs.ended_inv (.error _) h'
  · exact .inr ⟨_, s₁, rfl, hg, hi, .duplicate hk ht, he⟩
  · exact .inr ⟨_, s₁, rfl, hg, hi, .refused hn, he⟩
  · exact .inr ⟨_, s₁, rfl, hg, hi, .lost hf, he⟩

theorem writeOr_bind {w : UserWrite P} {f : Unit → UserProg P α} {a : α}
    (h : Runs A ((writeOr g w).bind f) s t l (.ended (.ok a)) s' t') :
    ∃ s₁ l', l = ⟨.write w, .ok (), s₁, t⟩ :: l' ∧ A.grow s s₁ ∧ A.inv s₁ ∧ Accepted s₁ t w ∧
      Runs A (f ()) s₁ { t with writes := t.writes ++ [w] } l' (.ended (.ok a)) s' t' := by
  rcases writeOr_run h with h | ⟨_, _, _, _, _, _, he⟩
  · exact h
  · cases he

/-! ## Signed tokens and their rows -/

/-- The refresh token signed for a session at the instant `now`. -/
def refreshTokenAt (P : Crypto) (userId sessionId : String) (now : Nat) : P.Token :=
  P.sign (refreshClaims userId sessionId) refreshExpiresIn now

def accessTokenAt (P : Crypto) (userId sessionId : String) (now : Nat) : P.Token :=
  P.sign (accessClaims userId sessionId) accessExpiresIn now

/-- The row that stores the refresh token signed at `now`. -/
def tokenRow (P : Crypto) (userId sessionId : String) (before : Option P.Hash) (iv : String)
    (now : Nat) : SessionRefreshEntity P where
  sessionId
  refreshHash := P.sha256Hex (refreshTokenAt P userId sessionId now)
  refreshEncrypted := P.encryptAesGcm iv (refreshTokenAt P userId sessionId now)
  beforeRefreshHash := before
  endAt := (now / 1000 + refreshExpiresIn) * 1000

/-- The reply with an access token signed at `now`. -/
def replyAt (session : SessionEntity) (now : Nat) (refreshToken : P.Token) (endAt : Nat) :
    UserRefreshResultDto P where
  accessToken := accessTokenAt P session.userId session.sessionId now
  accessExpiresAt := (now / 1000 + accessExpiresIn) * 1000
  refreshToken
  refreshExpiresAt := endAt

/-! ## The validation of a presented token -/

/-- The exception for a token that is not acceptable. -/
def refreshInvalid : Exn := invalid "refresh_token" "refresh token 이 유효하지 않습니다."

/-- The claims `refresh` requires of a verified token. -/
structure RefreshPayload (payload : JwtPayload) : Prop where
  type : payload.type = some "refresh"
  userId : truthy payload.userId = true
  sessionId : truthy payload.sessionId = true

theorem verifyRefresh_bind {f : JwtPayload → UserProg P α} {r : Except Exn α}
    (h : Runs A ((verifyRefresh dto).bind f) s t l (.ended r) s' t') :
    ∃ s₁ l', l = ⟨.now, s₁.clock, s₁, t⟩ :: l' ∧ A.grow s s₁ ∧ A.inv s₁ ∧
      ((∃ payload, P.verify dto.refreshToken s₁.clock = .ok payload ∧ RefreshPayload payload ∧
        Runs A (f payload) s₁ t l' (.ended r) s' t') ∨
      l' = [] ∧ (∃ message, r = .error (invalid "refresh_token" message)) ∧
        ∀ payload,
          P.verify dto.refreshToken s₁.clock = .ok payload → ¬ RefreshPayload payload) := by
  rw [verifyRefresh, Prog.bind_eq, Prog.bind_assoc] at h
  obtain ⟨s₁, l', rfl, hg, hi, h⟩ := dateNow_bind h
  refine ⟨s₁, l', rfl, hg, hi, ?_⟩
  split at h
  · rename_i hv
    obtain ⟨rfl, rfl, _⟩ := Runs.ended_inv (.error _) h
    exact .inr ⟨rfl, ⟨_, rfl⟩, by simp [hv]⟩
  · rename_i hv
    obtain ⟨rfl, rfl, _⟩ := Runs.ended_inv (.error _) h
    exact .inr ⟨rfl, ⟨_, rfl⟩, by simp [hv]⟩
  · rename_i payload hv
    split at h
    · rename_i hp
      obtain ⟨rfl, rfl, _⟩ := Runs.ended_inv (.error _) h
      refine .inr ⟨rfl, ⟨_, rfl⟩, fun payload' hv' hp' => ?_⟩
      cases hv.symm.trans hv'
      simp [hp'.type, hp'.userId, hp'.sessionId] at hp
    · rename_i hp
      simp only [not_or, not_not, Bool.not_eq_true', Bool.not_eq_false] at hp
      exact .inl ⟨payload, hv, ⟨hp.1, hp.2.1, hp.2.2⟩, h⟩

/-- What the operation `e` read, when it is a query. -/
def eventSeen (π : Policy (schema P)) (e : Event (schema P)) : Tables P := seen π e.store e.tx

/-- The row of a presented token that `refresh` accepts. -/
def Submitted (oldHash : P.Hash) (now : Nat) (r : SessionRefreshEntity P) : Prop :=
  r.refreshHash = oldHash ∧ now / 1000 * 1000 < r.endAt

/-- The session that `refresh` accepts. -/
def LiveSession (ip : Option String) (sessionId : String) (r : SessionEntity) : Prop :=
  r.sessionId = sessionId ∧ r.isDelete = 0 ∧ (truthy ip = true → r.ip = ip)

theorem matches_submitted {r : SessionRefreshEntity P} :
    SessionRefreshWhere.matches { refreshHash := some oldHash, endAtAfterNow := true } now r =
      true ↔ Submitted oldHash now r := by
  simp [SessionRefreshWhere.matches, Submitted]

theorem matches_rotated {r : SessionRefreshEntity P} :
    SessionRefreshWhere.matches { beforeRefreshHash := some oldHash } now r = true ↔
      r.beforeRefreshHash = some oldHash := by
  simp [SessionRefreshWhere.matches]

theorem matches_session {r : SessionEntity} :
    SessionWhere.matches ⟨sessionId, 0, if truthy ip then ip else none⟩ r = true ↔
      LiveSession ip sessionId r := by
  cases ip with
  | none => simp [SessionWhere.matches, LiveSession, truthy]
  | some v => by_cases h : v = "" <;> simp [SessionWhere.matches, LiveSession, truthy, h, and_assoc]

/-- The two queries `e₁` and `e₂` of a successful `validateAndLoadSession` that begins in the
transaction `t`. -/
structure Validated (π : Policy (schema P)) (t : Tx (schema P)) (oldHash : P.Hash)
    (ip : Option String) (sessionId : String) (e₁ e₂ : Event (schema P))
    (submitted : SessionRefreshEntity P) (session : SessionEntity) : Prop where
  op₁ : ∃ q, e₁.op = .query q
  op₂ : ∃ q, e₂.op = .query q
  tx₁ : e₁.tx = t
  tx₂ : e₂.tx = t.opened e₁.store.db
  submitted_mem : submitted ∈ (eventSeen π e₁).tSessionRefresh
  submitted_ok : Submitted oldHash e₁.store.clock submitted
  session_mem : session ∈ (eventSeen π e₂).tSession
  session_ok : LiveSession ip sessionId session

/-- The query `e` of a failed `validateAndLoadSession` found no acceptable row. -/
def Rejected (π : Policy (schema P)) (oldHash : P.Hash) (ip : Option String)
    (sessionId : String) (e : Event (schema P)) : Prop :=
  (∀ r ∈ (eventSeen π e).tSessionRefresh, ¬ Submitted oldHash e.store.clock r) ∨
    ∀ r ∈ (eventSeen π e).tSession, ¬ LiveSession ip sessionId r

theorem validateAndLoadSession_bind {f : SessionEntity → UserProg P α} {r : Except Exn α}
    (h : Runs A ((validateAndLoadSession oldHash ip sid).bind f) s t l (.ended r) s' t') :
    (∃ e₁ e₂ submitted session l', l = e₁ :: e₂ :: l' ∧
      A.grow s e₁.store ∧ A.inv e₁.store ∧ A.grow e₁.store e₂.store ∧ A.inv e₂.store ∧
      Validated π t oldHash ip sid e₁ e₂ submitted session ∧
      Runs A (f session) e₂.store (t.opened e₁.store.db) l' (.ended r) s' t') ∨
    (∃ e ∈ l, r = .error refreshInvalid ∧ A.grow s e.store ∧ A.inv e.store ∧
      (e.tx = t ∨ ∃ s₁, A.grow s s₁ ∧ A.inv s₁ ∧ A.grow s₁ e.store ∧ e.tx = t.opened s₁.db) ∧
      Rejected π oldHash ip sid e) ∨
    Faulted π r := by
  rw [validateAndLoadSession, Prog.bind_eq, Prog.bind_assoc] at h
  rcases queryOr_bind h with ⟨a, l₁, rfl, hga, hia, h₁⟩ | hf
  swap
  · exact .inr (.inr hf)
  cases hsub : (seen π a t).ask a.clock
    (.sessionRefresh { refreshHash := some oldHash, endAtAfterNow := true }) with
  | none =>
    rw [hsub] at h₁
    obtain ⟨rfl, rfl, _⟩ := Runs.ended_inv (.error _) h₁
    refine .inr (.inl ⟨_, List.mem_singleton_self _, rfl, hga, hia, .inl rfl, .inl fun r hr => ?_⟩)
    simpa only [matches_submitted] using List.find?_eq_none.mp hsub r hr
  | some submitted =>
    rw [hsub] at h₁
    simp only [Prog.bind_eq, Prog.bind_assoc] at h₁
    rcases queryOr_bind h₁ with ⟨b, l₂, rfl, hgb, hib, h₂⟩ | hf
    swap
    · exact .inr (.inr hf)
    cases hses : (seen π b (t.opened a.db)).ask b.clock
      (.session ⟨sid, 0, if truthy ip then ip else none⟩) with
    | none =>
      rw [hses] at h₂
      obtain ⟨rfl, rfl, _⟩ := Runs.ended_inv (.error _) h₂
      refine .inr (.inl ⟨_, List.mem_cons_of_mem _ (List.mem_singleton_self _), rfl,
        A.trans hga hgb, hib, .inr ⟨a, hga, hia, hgb, rfl⟩, .inr fun r hr => ?_⟩)
      simpa only [matches_session] using List.find?_eq_none.mp hses r hr
    | some session =>
      rw [hses] at h₂
      refine .inl ⟨_, _, submitted, session, l₂, rfl, hga, hia, hgb, hib, ?_, h₂⟩
      exact {
        op₁ := ⟨_, rfl⟩
        op₂ := ⟨_, rfl⟩
        tx₁ := rfl
        tx₂ := rfl
        submitted_mem := List.mem_of_find?_eq_some hsub
        submitted_ok := matches_submitted.mp (List.find?_some hsub)
        session_mem := List.mem_of_find?_eq_some hses
        session_ok := matches_session.mp (List.find?_some hses) }

/-! ## The paths of `refresh` -/

section
variable (hP : P.Lawful)
include hP

/-- A completed `replyRotated`: the reply of the rotated row, a rejection, or a fault. -/
theorem replyRotated_inv {r : Except Exn (UserRefreshResultDto P)}
    (h : Runs A (replyRotated oldHash ip rotated) s t l (.ended r) s' t') :
    (∃ e₁ e₂ s₁ submitted session, l = [e₁, e₂, ⟨.now, s₁.clock, s₁, t'⟩] ∧
      A.grow s e₁.store ∧ A.inv e₁.store ∧ A.grow e₁.store e₂.store ∧ A.inv e₂.store ∧
      A.grow e₂.store s' ∧ t' = t.opened e₁.store.db ∧
      Validated π t oldHash ip rotated.sessionId e₁ e₂ submitted session ∧
      r = ((P.decryptAesGcm rotated.refreshEncrypted).mapError Exn.error).map
        (replyAt session s₁.clock · rotated.endAt)) ∨
    (∃ e ∈ l, r = .error refreshInvalid ∧ A.grow s e.store ∧ A.inv e.store ∧
      (e.tx = t ∨ ∃ s₁, A.grow s s₁ ∧ A.inv s₁ ∧ A.grow s₁ e.store ∧ e.tx = t.opened s₁.db) ∧
      Rejected π oldHash ip rotated.sessionId e) ∨
    Faulted π r := by
  rw [replyRotated] at h
  rcases validateAndLoadSession_bind h with
    ⟨e₁, e₂, submitted, session, l₁, rfl, hg₁, hi₁, hg₂, hi₂, hv, h⟩ | hrej
  swap
  · exact .inr hrej
  obtain ⟨s₁, l₂, rfl, hg₃, hi₃, h⟩ := jwtSign_bind h
  simp only [hP.extract_sign _ _ (show 0 < accessExpiresIn by decide)] at h
  refine .inl ⟨e₁, e₂, s₁, submitted, session, ?_⟩
  cases hd : P.decryptAesGcm rotated.refreshEncrypted with
  | ok tok =>
    rw [hd] at h
    obtain ⟨rfl, rfl, rfl, hg⟩ := Runs.ended_inv (.ok _) h
    exact ⟨rfl, hg₁, hi₁, hg₂, hi₂, A.trans hg₃ hg, rfl, hv, rfl⟩
  | error m =>
    rw [hd] at h
    obtain ⟨rfl, rfl, rfl, hg⟩ := Runs.ended_inv (.error _) h
    exact ⟨rfl, hg₁, hi₁, hg₂, hi₂, A.trans hg₃ hg, rfl, hv, rfl⟩

end

theorem sessionRefreshError_rotated {e : DbError (UserKey P)} :
    (sessionRefreshError e).errorCode = some "REFRESH_ALREADY_ROTATED" ↔
      ∃ h, e = .duplicate (.beforeRefreshHash h) := by
  cases e with
  | duplicate k =>
    cases k <;> simp [sessionRefreshError, isDuplicate, errno, sqlMessageNames,
      UserKey.constraintName, Exn.errorCode, badRequestException, internalServerErrorException]
  | refused n =>
    simp [sessionRefreshError, isDuplicate, sqlMessageNames, Exn.errorCode,
      internalServerErrorException]
  | lost =>
    simp [sessionRefreshError, isDuplicate, sqlMessageNames, Exn.errorCode,
      internalServerErrorException]

/-- How `firstExchange` ends from the store `s` in which the next token's row is ready: the row goes
in; the insert fails otherwise than by the parent's key; it fails by the parent's key and the winner
is not seen; or the winner is seen and answered. -/
inductive ExchangeEnd (A : Rely π) (oldHash : P.Hash) (ip : Option String)
    (row : SessionRefreshEntity P) (reply : UserRefreshResultDto P) (s : Store (schema P))
    (t : Tx (schema P)) (s' : Store (schema P)) :
    List (Event (schema P)) → Except Exn (UserRefreshResultDto P) → Tx (schema P) → Prop
  | inserted : A.grow s s₁ → A.inv s₁ → Accepted s₁ t (.insertSessionRefresh row) →
    A.grow s₁ s' →
    ExchangeEnd A oldHash ip row reply s t s' [⟨.write (.insertSessionRefresh row), .ok (), s₁, t⟩]
      (.ok reply) { t with writes := t.writes ++ [.insertSessionRefresh row] }
  | refused : A.grow s s₁ → A.inv s₁ → Fails π s₁ t (.insertSessionRefresh row) e →
    (∀ h, e ≠ .duplicate (.beforeRefreshHash h)) →
    ExchangeEnd A oldHash ip row reply s t s'
      [⟨.write (.insertSessionRefresh row), .error e, s₁, t⟩] (.error (sessionRefreshError e)) t
  | unseen : A.grow s s₁ → A.inv s₁ →
    Fails π s₁ t (.insertSessionRefresh row) (.duplicate (.beforeRefreshHash h)) →
    A.grow s₁ s₂ → A.inv s₂ →
    (∀ r ∈ (seen π s₂ t).tSessionRefresh, r.beforeRefreshHash ≠ some oldHash) →
    ExchangeEnd A oldHash ip row reply s t s'
      [⟨.write (.insertSessionRefresh row), .error (.duplicate (.beforeRefreshHash h)), s₁, t⟩,
        ⟨.query (.sessionRefresh { beforeRefreshHash := some oldHash }), .ok none, s₂, t⟩]
      (.error (sessionRefreshError (.duplicate (.beforeRefreshHash h)))) (t.opened s₂.db)
  | rotated : A.grow s s₁ → A.inv s₁ →
    Fails π s₁ t (.insertSessionRefresh row) (.duplicate (.beforeRefreshHash h)) →
    A.grow s₁ s₂ → A.inv s₂ → winner ∈ (seen π s₂ t).tSessionRefresh →
    winner.beforeRefreshHash = some oldHash →
    Runs A (replyRotated oldHash ip winner) s₂ (t.opened s₂.db) l (.ended r) s' t' →
    ExchangeEnd A oldHash ip row reply s t s'
      (⟨.write (.insertSessionRefresh row), .error (.duplicate (.beforeRefreshHash h)), s₁, t⟩ ::
        ⟨.query (.sessionRefresh { beforeRefreshHash := some oldHash }), .ok (some winner), s₂,
          t⟩ :: l) r t'
  | faulted : Faulted π r → ExchangeEnd A oldHash ip row reply s t s' l r t'

theorem firstExchange_inv (hP : P.Lawful) {r : Except Exn (UserRefreshResultDto P)}
    (h : Runs A (firstExchange oldHash ip session) s t l (.ended r) s' t') :
    ∃ a b iv c l', l = ⟨.now, a.clock, a, t⟩ :: ⟨.now, b.clock, b, t⟩ :: ⟨.random, iv, c, t⟩ :: l' ∧
      A.grow s a ∧ A.inv a ∧ A.grow a b ∧ A.inv b ∧ A.grow b c ∧ A.inv c ∧
      ExchangeEnd A oldHash ip
        (tokenRow P session.userId session.sessionId (some oldHash) iv b.clock)
        (replyAt session a.clock (refreshTokenAt P session.userId session.sessionId b.clock)
          ((b.clock / 1000 + refreshExpiresIn) * 1000)) c t s' l' r t' := by
  obtain ⟨a, l₁, rfl, hga, hia, h₁⟩ := jwtSign_bind h
  obtain ⟨b, l₂, rfl, hgb, hib, h₂⟩ := jwtSign_bind h₁
  simp only [hP.extract_sign _ _ (show 0 < refreshExpiresIn by decide)] at h₂
  obtain ⟨iv, c, l₃, rfl, hgc, hic, h₃⟩ := encryptAesGcm_bind h₂
  refine ⟨a, b, iv, c, l₃, rfl, hga, hia, hgb, hib, hgc, hic, ?_⟩
  rcases writeOr_attempt_bind h₃ with
    ⟨s₁, l₄, rfl, hg₁, hi₁, hacc, h₄⟩ | ⟨e, s₁, l₄, rfl, hg₁, hi₁, hf, h₄⟩
  · simp only [hP.extract_sign _ _ (show 0 < accessExpiresIn by decide)] at h₄
    obtain ⟨rfl, rfl, rfl, hg⟩ := Runs.ended_inv (.ok _) h₄
    exact .inserted hg₁ hi₁ hacc hg
  · simp only at h₄
    split at h₄
    swap
    · rename_i he
      obtain ⟨rfl, rfl, rfl, hg⟩ := Runs.ended_inv (.error _) h₄
      exact .refused hg₁ hi₁ hf fun h heq => he (sessionRefreshError_rotated.mpr ⟨h, heq⟩)
    · rename_i he
      obtain ⟨h, rfl⟩ := sessionRefreshError_rotated.mp he
      rcases queryOr_bind h₄ with ⟨s₂, l₅, rfl, hg₂, hi₂, h₅⟩ | hflt
      swap
      · exact .faulted hflt
      cases hw : (seen π s₂ t).ask s₂.clock (.sessionRefresh { beforeRefreshHash := some oldHash })
        with
      | none =>
        rw [hw] at h₅
        obtain ⟨rfl, rfl, rfl, hg⟩ := Runs.ended_inv (.error _) h₅
        refine .unseen hg₁ hi₁ hf hg₂ hi₂ fun r hr => ?_
        simpa only [matches_rotated] using List.find?_eq_none.mp hw r hr
      | some winner =>
        rw [hw] at h₅
        exact .rotated hg₁ hi₁ hf hg₂ hi₂ (List.mem_of_find?_eq_some hw)
          (matches_rotated.mp (List.find?_some hw)) h₅

/-- The paths of `refresh`: the token is refused, an earlier exchange is replied, the session is
refused, or the token is exchanged. -/
inductive RefreshEnd (A : Rely π) (dto : UserRefreshDto P) (ip : Option String)
    (s : Store (schema P)) (t : Tx (schema P)) (s' : Store (schema P)) :
    List (Event (schema P)) → Except Exn (UserRefreshResultDto P) → Tx (schema P) → Prop
  | unverified : A.grow s s₁ → A.inv s₁ →
    (∀ p, P.verify dto.refreshToken s₁.clock = .ok p → ¬ RefreshPayload p) →
    RefreshEnd A dto ip s t s' [⟨.now, s₁.clock, s₁, t⟩]
      (.error (invalid "refresh_token" message)) t'
  | existing : A.grow s s₁ → A.inv s₁ → P.verify dto.refreshToken s₁.clock = .ok payload →
    RefreshPayload payload → A.grow s₁ s₂ → A.inv s₂ →
    rotated ∈ (seen π s₂ t).tSessionRefresh →
    rotated.beforeRefreshHash = some (P.sha256Hex dto.refreshToken) →
    Runs A (replyRotated (P.sha256Hex dto.refreshToken) ip rotated) s₂ (t.opened s₂.db) l
      (.ended r) s' t' →
    RefreshEnd A dto ip s t s' (⟨.now, s₁.clock, s₁, t⟩ :: ⟨.query (.sessionRefresh
      { beforeRefreshHash := some (P.sha256Hex dto.refreshToken) }), .ok (some rotated), s₂,
        t⟩ :: l) r t'
  | rejected : A.grow s s₁ → A.inv s₁ → P.verify dto.refreshToken s₁.clock = .ok payload →
    RefreshPayload payload → A.grow s₁ s₂ → A.inv s₂ →
    (∀ r ∈ (seen π s₂ t).tSessionRefresh,
      r.beforeRefreshHash ≠ some (P.sha256Hex dto.refreshToken)) → e ∈ l →
    A.grow s₂ e.store → A.inv e.store → e.tx = t.opened s₂.db →
    Rejected π (P.sha256Hex dto.refreshToken) ip (payload.sessionId.getD "") e →
    RefreshEnd A dto ip s t s' (⟨.now, s₁.clock, s₁, t⟩ :: ⟨.query (.sessionRefresh
      { beforeRefreshHash := some (P.sha256Hex dto.refreshToken) }), .ok none, s₂, t⟩ :: l)
      (.error refreshInvalid) t'
  | exchanged : A.grow s s₁ → A.inv s₁ → P.verify dto.refreshToken s₁.clock = .ok payload →
    RefreshPayload payload → A.grow s₁ s₂ → A.inv s₂ →
    (∀ r ∈ (seen π s₂ t).tSessionRefresh,
      r.beforeRefreshHash ≠ some (P.sha256Hex dto.refreshToken)) →
    A.grow s₂ e₁.store → A.inv e₁.store → A.grow e₁.store e₂.store → A.inv e₂.store →
    Validated π (t.opened s₂.db) (P.sha256Hex dto.refreshToken) ip (payload.sessionId.getD "") e₁ e₂
      submitted session →
    Runs A (firstExchange (P.sha256Hex dto.refreshToken) ip session) e₂.store (t.opened s₂.db) l
      (.ended r) s' t' →
    RefreshEnd A dto ip s t s' (⟨.now, s₁.clock, s₁, t⟩ :: ⟨.query (.sessionRefresh
      { beforeRefreshHash := some (P.sha256Hex dto.refreshToken) }), .ok none, s₂, t⟩ :: e₁ :: e₂ ::
      l) r t'
  | faulted : Faulted π r → RefreshEnd A dto ip s t s' l r t'

theorem refresh_inv {r : Except Exn (UserRefreshResultDto P)}
    (h : Runs A (UserService.refresh dto ip) s t l (.ended r) s' t') :
    RefreshEnd A dto ip s t s' l r t' := by
  rw [UserService.refresh, Prog.bind_eq] at h
  obtain ⟨s₁, l₁, rfl, hg₁, hi₁, ⟨payload, hv, hp, h₁⟩ | ⟨rfl, ⟨m, rfl⟩, hv⟩⟩ :=
    verifyRefresh_bind h
  swap
  · exact .unverified hg₁ hi₁ hv
  rcases queryOr_bind h₁ with ⟨s₂, l₂, rfl, hg₂, hi₂, h₂⟩ | hf
  swap
  · exact .faulted hf
  cases hr : (seen π s₂ t).ask s₂.clock
    (.sessionRefresh { beforeRefreshHash := some (P.sha256Hex dto.refreshToken) }) with
  | some rotated =>
    rw [hr] at h₂
    exact .existing hg₁ hi₁ hv hp hg₂ hi₂ (List.mem_of_find?_eq_some hr)
      (matches_rotated.mp (List.find?_some hr)) h₂
  | none =>
    rw [hr] at h₂
    have hnone : ∀ r ∈ (seen π s₂ t).tSessionRefresh,
        r.beforeRefreshHash ≠ some (P.sha256Hex dto.refreshToken) := fun r h => by
      simpa only [matches_rotated] using List.find?_eq_none.mp hr r h
    rcases validateAndLoadSession_bind h₂ with
      ⟨e₁, e₂, submitted, session, l₃, rfl, hg₃, hi₃, hg₄, hi₄, hval, h₃⟩ |
      ⟨e, he, rfl, hg₃, hi₃, htx, hrej⟩ | hf
    · exact .exchanged hg₁ hi₁ hv hp hg₂ hi₂ hnone hg₃ hi₃ hg₄ hi₄ hval h₃
    · refine .rejected hg₁ hi₁ hv hp hg₂ hi₂ hnone he hg₃ hi₃ ?_ hrej
      rcases htx with htx | ⟨_, _, _, _, htx⟩ <;> exact htx
    · exact .faulted hf

/-! ## Opening a session, creating a user -/

/-- The row of `t_session` that `signIn` inserts. -/
def sessionRow (userId sessionId : String) (patch : Option UserPatch) (ip : Option String) :
    SessionEntity where
  sessionId
  userId
  ip := if truthy ip then ip else none
  deviceOs := patch.map (·.deviceOs)
  deviceToken := patch.map (·.deviceToken)
  isDelete := 0

/-- The row is stored with the device as it is stored. -/
@[simp] theorem sessionRow_stored (userId sessionId : String) (patch : Option UserPatch)
    (ip : Option String) : (sessionRow userId sessionId patch ip).stored =
      sessionRow userId sessionId (patch.map UserPatch.stored) ip := by
  cases patch <;> rfl

/-- A successful `openSession` writes a session and the row of the token signed at some `b`. -/
theorem openSession_ok (hP : P.Lawful)
    (h : Runs A (openSession user patch ip) s t l (.ended (.ok reply)) s' t') :
    ∃ sid iv b, sid ≠ "" ∧ A.grow s b ∧ A.grow b s' ∧ t'.writes = t.writes ++
        [.insertSession (sessionRow user.userId sid patch ip),
          .insertSessionRefresh (tokenRow P user.userId sid none iv b.clock)] ∧
      reply.refreshToken = refreshTokenAt P user.userId sid b.clock ∧
      reply.refreshExpiresAt = (b.clock / 1000 + refreshExpiresIn) * 1000 := by
  rw [openSession, Prog.bind_eq] at h
  obtain ⟨sid, s₁, l₁, rfl, hne, hg₁, _, h₁⟩ := randomText_bind h
  obtain ⟨s₂, l₂, rfl, hg₂, _, _, h₂⟩ := writeOr_bind h₁
  obtain ⟨a, l₃, rfl, hga, _, h₃⟩ := jwtSign_bind h₂
  obtain ⟨b, l₄, rfl, hgb, _, h₄⟩ := jwtSign_bind h₃
  have hg := h₄.grows
  simp only [hP.extract_sign _ _ (show 0 < accessExpiresIn by decide),
    hP.extract_sign _ _ (show 0 < refreshExpiresIn by decide)] at h₄
  obtain ⟨iv, c, l₅, rfl, _, _, h₅⟩ := encryptAesGcm_bind h₄
  obtain ⟨s₃, l₆, rfl, _, _, _, h₆⟩ := writeOr_bind h₅
  obtain ⟨rfl, hr, rfl, _⟩ := Runs.ended_inv (.ok _) h₆
  cases hr
  refine ⟨sid, iv, b, hne, A.trans (A.trans hg₁ hg₂) (A.trans hga hgb), hg, ?_, rfl, rfl⟩
  simp [sessionRow, tokenRow, refreshTokenAt]

/-- A successful `signIn` of a user it has read writes at most a device patch besides. -/
theorem signIn_ok (hP : P.Lawful)
    (h : Runs A (UserService.signIn dto ip) s t l (.ended (.ok reply)) s' t') :
    ∃ (a b : Store (schema P)) (user : UserEntity) (patch : Option UserPatch) (sid iv : String),
      A.grow s a ∧ A.inv a ∧ user ∈ (seen π a t).tUser ∧ sid ≠ "" ∧ A.grow a b ∧ A.grow b s' ∧
      t'.writes = t.writes ++ (patch.map (UserWrite.updateUser user.userId)).toList ++
        [.insertSession (sessionRow user.userId sid patch ip),
          .insertSessionRefresh (tokenRow P user.userId sid none iv b.clock)] ∧
      reply.refreshToken = refreshTokenAt P user.userId sid b.clock ∧
      reply.refreshExpiresAt = (b.clock / 1000 + refreshExpiresIn) * 1000 := by
  rw [UserService.signIn, Prog.bind_eq] at h
  rcases queryOr_bind h with ⟨s₁, l₁, rfl, hg₁, hi₁, h₁⟩ | ⟨_, _, he⟩
  swap
  · cases he
  cases hu : (seen π s₁ t).ask s₁.clock (.user ⟨dto.loginId⟩) with
  | none =>
    rw [hu] at h₁
    obtain ⟨_, he, _⟩ := Runs.ended_inv (.error _) h₁
    cases he
  | some user =>
    have hmem : user ∈ (seen π s₁ t).tUser := List.mem_of_find?_eq_some hu
    rw [hu] at h₁
    simp only at h₁
    split at h₁
    · obtain ⟨_, he, _⟩ := Runs.ended_inv (.error _) h₁
      cases he
    simp only [Prog.bind_eq] at h₁
    rcases queryOr_bind h₁ with ⟨s₂, l₂, rfl, hg₂, _, h₂⟩ | ⟨_, _, he⟩
    swap
    · cases he
    split at h₂
    · obtain ⟨_, he, _⟩ := Runs.ended_inv (.error _) h₂
      cases he
    cases hm : mobilePatch dto with
    | none =>
      rw [hm] at h₂
      obtain ⟨sid, iv, b, hne, hg, hg', hw, hr⟩ := openSession_ok hP h₂
      exact ⟨s₁, b, user, none, sid, iv, hg₁, hi₁, hmem, hne, A.trans hg₂ hg, hg',
        by simpa using hw, hr⟩
    | some p =>
      rw [hm] at h₂
      obtain ⟨s₃, l₃, rfl, hg₃, _, _, h₃⟩ := writeOr_bind h₂
      obtain ⟨sid, iv, b, hne, hg, hg', hw, hr⟩ := openSession_ok hP h₃
      exact ⟨s₁, b, user, some p, sid, iv, hg₁, hi₁, hmem, hne, A.trans hg₂ (A.trans hg₃ hg), hg',
        by simpa using hw, hr⟩

/-- The row of `t_user` that `adminCreate` inserts. -/
def userRow (P : Crypto) (dto : AdminUserCreateDto) (userId salt : String) : UserEntity where
  userId
  loginId := dto.loginId
  loginPw := P.getBcrypt salt dto.loginPw
  name := dto.name
  nickname := dto.nickname
  authId := dto.authId
  stateId := "ACTIVE"
  positionId := dto.positionId
  deviceOs := none
  deviceToken := none

/-- The exception of a failed insert into `t_user`. -/
def insertError (e : DbError (UserKey P)) : Exn :=
  if isDuplicate e "UK_User_LoginId" then badRequestException { message := "중복된 로그인 ID가 존재합니다." }
  else internalServerErrorException "사용자 등록에 실패했습니다. 관리자에게 문의해주세요."

/-- A run of `adminCreate` that has found the login id free in `s₀` draws the user id `userId`, and
inserts the new row in the store `s₁` and the transaction `t₁`. -/
structure CreateTried (A : Rely π) (dto : AdminUserCreateDto) (s : Store (schema P))
    (t : Tx (schema P)) (l : List (Event (schema P))) (userId salt : String)
    (s₀ s₁ : Store (schema P)) (t₁ : Tx (schema P)) : Prop where
  pw : dto.loginPw = dto.loginPw2
  grow₀ : A.grow s s₀
  inv₀ : A.inv s₀
  free : ∀ u ∈ (seen π s₀ t).tUser, P.collate u.loginId ≠ P.collate dto.loginId
  drawn : ∃ s₂, ⟨.random, userId, s₂, t₁⟩ ∈ l
  userId_ne : userId ≠ ""
  salt_ne : salt ≠ ""
  grow₁ : A.grow s₀ s₁
  inv₁ : A.inv s₁
  writes : t₁.writes = t.writes

/-- How a run of `adminCreate` ends. -/
inductive CreateEnd (A : Rely π) (dto : AdminUserCreateDto) (s : Store (schema P))
    (t : Tx (schema P)) (l : List (Event (schema P))) (s' : Store (schema P)) (t' : Tx (schema P)) :
    Except Exn Unit → Prop
  | mismatch (h : dto.loginPw ≠ dto.loginPw2) :
    CreateEnd A dto s t l s' t' (.error (invalid "login_pw2" "비밀번호가 일치하지 않습니다."))
  | existing :
    CreateEnd A dto s t l s' t' (.error (invalid "login_id" "이미 사용 중인 로그인 ID입니다."))
  | faulted (h : Faulted π r) : CreateEnd A dto s t l s' t' r
  | inserted (h : CreateTried A dto s t l userId salt s₀ s₁ t₁)
    (hacc : Accepted s₁ t₁ (.insertUser (userRow P dto userId salt))) (hg : A.grow s₁ s')
    (hw : t'.writes = t.writes ++ [.insertUser (userRow P dto userId salt)]) :
    CreateEnd A dto s t l s' t' (.ok ())
  | refused (h : CreateTried A dto s t l userId salt s₀ s₁ t₁)
    (hwrite : ⟨.write (.insertUser (userRow P dto userId salt)), .error e, s₁, t₁⟩ ∈ l)
    (hf : Fails π s₁ t₁ (.insertUser (userRow P dto userId salt)) e) :
    CreateEnd A dto s t l s' t' (.error (insertError e))

theorem adminCreate_inv {r : Except Exn Unit}
    (h : Runs A (UserService.adminCreate dto) s t l (.ended r) s' t') :
    CreateEnd A dto s t l s' t' r := by
  rw [UserService.adminCreate] at h
  split at h
  · rename_i hpw
    obtain ⟨_, rfl, _⟩ := Runs.ended_inv (.error _) h
    exact .mismatch hpw
  rename_i hpw
  rcases queryOr_bind h with ⟨s₁, l₁, rfl, hg₁, hi₁, h₁⟩ | hf
  swap
  · exact .faulted hf
  cases hu : (seen π s₁ t).ask s₁.clock (.user ⟨dto.loginId⟩) with
  | some user =>
    rw [hu] at h₁
    obtain ⟨_, rfl, _⟩ := Runs.ended_inv (.error _) h₁
    exact .existing
  | none =>
    rw [hu] at h₁
    obtain ⟨userId, s₂, l₂, rfl, hne, hg₂, _, h₂⟩ := randomText_bind h₁
    obtain ⟨salt, s₃, l₃, rfl, hsalt, hg₃, _, h₃⟩ := randomText_bind h₂
    have tried {s₄ : Store (schema P)} (hg₄ : A.grow s₃ s₄) (hi₄ : A.inv s₄) (l₄) :
        CreateTried A dto s t (⟨.query (.user ⟨dto.loginId⟩), .ok none, s₁, t⟩ ::
          ⟨.random, userId, s₂, t.opened s₁.db⟩ :: l₄) userId salt s₁ s₄ (t.opened s₁.db) := {
      pw := not_not.mp hpw
      grow₀ := hg₁
      inv₀ := hi₁
      free := fun u h => by
        have hno := List.find?_eq_none.mp hu u h
        simpa [UserWhere.matches] using hno
      drawn := ⟨s₂, by simp⟩
      userId_ne := hne
      salt_ne := hsalt
      grow₁ := A.trans hg₂ (A.trans hg₃ hg₄)
      inv₁ := hi₄
      writes := rfl }
    rw [← Prog.bind_ret (UserRepository.insert _)] at h₃
    rcases writeOr_run h₃ with ⟨s₄, l₄, rfl, hg₄, hi, hacc, h₄⟩ | ⟨e, s₄, rfl, hg₄, hi, hf, rfl⟩
    · obtain ⟨_, rfl, rfl, hg'⟩ := Runs.ended_inv (.ok ()) h₄
      exact .inserted (tried hg₄ hi _) hacc hg' rfl
    · exact .refused (tried hg₄ hi _) (by simp [userRow]) hf

theorem adminCreate_ok
    (h : Runs A (UserService.adminCreate dto) s t l (.ended (.ok ())) s' t') :
    ∃ userId salt, userId ≠ "" ∧
      t'.writes = t.writes ++ [.insertUser (userRow P dto userId salt)] := by
  have h := adminCreate_inv h
  generalize hr : (Except.ok () : Except Exn Unit) = r at h
  cases h with
  | mismatch | existing | refused => cases hr
  | faulted hf =>
    subst hr
    obtain ⟨_, _, he⟩ := hf
    cases he
  | inserted h _ _ hw => exact ⟨_, _, h.userId_ne, hw⟩

end NestHarness
