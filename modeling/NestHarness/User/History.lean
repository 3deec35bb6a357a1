import NestHarness.Lib.TxnSerial
import NestHarness.User.Exchange
import NestHarness.User.Expiry
import NestHarness.User.Race

/-!
# Serial histories with one clock

When clocks do not go back, the tokens of a session are issued in the order of its chain. In a
serial history a refresh of an issued token can then only meet the token itself, and it fails
exactly when it signs the next token in the second in which the presented one was issued.
-/

namespace NestHarness

open Txn

variable {P : Crypto} {π : Policy (schema P)} {w : World (userService P)}

/-- Ids are not empty, and tokens were issued in the past and in the order of their chain. -/
structure Aged (s : Store (schema P)) : Prop where
  users : ∀ u ∈ s.db.tUser, u.userId ≠ ""
  sessions : ∀ x ∈ s.db.tSession, x.userId ≠ "" ∧ x.sessionId ≠ ""
  past : ∀ r ∈ s.db.tSessionRefresh, r.endAt ≤ (s.clock / 1000 + refreshExpiresIn) * 1000
  sorted : ∀ sid, (s.db.chain sid).Pairwise (·.endAt ≤ ·.endAt)

theorem Aged.initial {s : Store (schema P)} (hu : ∀ u ∈ s.db.tUser, u.userId ≠ "")
    (hs : s.db.tSession = []) (hr : s.db.tSessionRefresh = []) : Aged s where
  users := hu
  sessions := by simp [hs]
  past := by simp [hr]
  sorted sid := by simp [Tables.chain, hr]

theorem Aged.chronological {s : Store (schema P)} (h : Aged s) : Chronological s :=
  ⟨h.past, h.sorted⟩

theorem Aged.tick {s : Store (schema P)} (h : Aged s) {t : Nat} (ht : s.clock ≤ t) :
    Aged { s with clock := t } where
  users := h.users
  sessions := h.sessions
  past := (h.chronological.tick ht).past
  sorted := h.sorted

theorem Aged.edit {s : Store (schema P)} (h : Aged s) (e : UserEdit) :
    Aged { s with db := s.db.edit e } where
  users := h.users
  sessions x hx := by
    obtain ⟨id⟩ := e
    obtain ⟨y, hy, rfl⟩ := List.mem_map.mp hx
    have := h.sessions y hy
    split <;> exact this
  past := h.past
  sorted := h.sorted

/-- What a call relies on when clocks do not go back. -/
def agedRely (hmono : ∀ a b, π.tick a b = true → a ≤ b) : Rely π where
  inv s := TablesInv s.db ∧ Aged s
  grow := (userRely π).grow
  refl := userRely_refl
  trans := userRely_trans
  tick hi ht :=
    have h := (userRely π).tick hi.1 ht
    ⟨⟨h.1, hi.2.tick (hmono _ _ ht)⟩, h.2⟩
  edit hi he :=
    have h := (userRely π).edit hi.1 he
    ⟨⟨h.1, hi.2.edit _⟩, h.2⟩

theorem agedRely_implies (hmono : ∀ a b, π.tick a b = true → a ≤ b) :
    (agedRely hmono).Implies (userRely π) := ⟨And.left, id⟩

theorem agedRely_chronological (hmono : ∀ a b, π.tick a b = true → a ≤ b) :
    (agedRely hmono).Implies (chronologicalRely hmono) :=
  ⟨fun h => ⟨h.1, h.2.chronological⟩, id⟩

/-! ## What a commit keeps -/

section

variable (hmono : ∀ a b, π.tick a b = true → a ≤ b) {s₀ s : Store (schema P)}
  {l : List (Event (schema P))} {t : Tx (schema P)}

include hmono

theorem Aged.adminCreate {dto : AdminUserCreateDto} (hi : TablesInv s.db ∧ Aged s)
    (h : Runs (agedRely hmono) (UserService.adminCreate dto) s₀ .empty l (.ended (.ok ())) s t) :
    Aged { s with db := t.onto s.db } := by
  obtain ⟨past, sorted⟩ := Chronological.adminCreate (agedRely_chronological hmono) hi h
  obtain ⟨userId, salt, hne, hw⟩ := adminCreate_ok h
  refine ⟨?_, ?_, past, sorted⟩
  · intro u hu
    have hu : u ∈ s.db.tUser ++ [(userRow P dto userId salt).stored] := by
      simpa [Tx.onto, hw, Tables.apply] using hu
    rcases List.mem_append.mp hu with hu | hu
    · exact hi.2.users u hu
    · exact List.mem_singleton.mp hu ▸ hne
  · simpa [Tx.onto, hw, Tables.apply] using hi.2.sessions

theorem Aged.signIn (hP : P.Lawful) {dto : UserSignInDto} {result : UserSignInResultDto P}
    (hi : TablesInv s.db ∧ Aged s) (hfree : ∀ k ∈ t.keys, s.db.taken k = false)
    (h : Runs (agedRely hmono) (UserService.signIn dto ip) s₀ .empty l (.ended (.ok result)) s t) :
    Aged { s with db := t.onto s.db } := by
  obtain ⟨past, sorted⟩ := Chronological.signIn (agedRely_chronological hmono) hi hP hfree h
  obtain ⟨c, b, user, patch, sid, iv, _, hic, hu, hne, _, _, hw, _⟩ := signIn_ok hP h
  rw [seen_empty] at hu
  have hs : (t.onto s.db).tSession =
      s.db.tSession ++ [sessionRow user.userId sid (patch.map UserPatch.stored) ip] := by
    cases patch <;> simp [Tx.onto, hw, Tables.apply]
  refine ⟨?_, ?_, past, sorted⟩
  · intro u hu'
    cases patch with
    | none => exact hi.2.users u (by simpa [Tx.onto, hw, Tables.apply] using hu')
    | some p =>
      have hu' : u ∈ s.db.tUser.map fun r =>
          if r.userId = user.userId then p.stored.apply r else r := by
        simpa [Tx.onto, hw, Tables.apply] using hu'
      obtain ⟨v, hv, rfl⟩ := List.mem_map.mp hu'
      have := hi.2.users v hv
      split <;> exact this
  · intro x hx
    have hx : x ∈ (t.onto s.db).tSession := hx
    rw [hs] at hx
    rcases List.mem_append.mp hx with hx | hx
    · exact hi.2.sessions x hx
    · rw [List.mem_singleton.mp hx]
      exact ⟨hic.2.users user hu, hne⟩

theorem Aged.refresh (hP : P.Lawful) {dto : UserRefreshDto P} {result : UserRefreshResultDto P}
    (hi : TablesInv s.db ∧ Aged s) (hfree : ∀ k ∈ t.keys, s.db.taken k = false)
    (h : Runs (agedRely hmono) (UserService.refresh dto ip) s₀ .empty l (.ended (.ok result)) s t) :
    Aged { s with db := t.onto s.db } := by
  obtain ⟨past, sorted⟩ := Chronological.refresh (agedRely_chronological hmono) hi hP hfree h
  obtain ⟨_, _, _, _, _, _, ⟨hw, _⟩ | ⟨hw, _⟩, _⟩ :=
    refresh_ok (agedRely_implies hmono) hP h hi
  · refine ⟨?_, ?_, past, sorted⟩
    · simpa [Tx.onto, hw] using hi.2.users
    · simpa [Tx.onto, hw] using hi.2.sessions
  · refine ⟨?_, ?_, past, sorted⟩
    · simpa [Tx.onto, hw, Tables.apply] using hi.2.users
    · simpa [Tx.onto, hw, Tables.apply] using hi.2.sessions

end

/-- **Every commit keeps the tables aged** when clocks do not go back. -/
theorem agedRely_keeps (hP : P.Lawful) (hmono : ∀ a b, π.tick a b = true → a ≤ b) :
    (agedRely hmono).Keeps (userService P) := by
  intro req a s₀ s l t _ hi h hf
  have h' : Runs (agedRely hmono) (serveUser req) s₀ .empty l (.ended (.ok a)) s t := h
  obtain ⟨hinv, hg⟩ := serveUser_commit (agedRely_implies hmono) hP h' hi hf
  refine ⟨⟨hinv, ?_⟩, hg, .refl⟩
  cases req with
  | adminCreate dto =>
    obtain ⟨_ | _, he, h₁⟩ := h'.map_inv <;> cases he
    exact .adminCreate hmono hi h₁
  | signIn dto ip =>
    obtain ⟨_ | _, he, h₁⟩ := h'.map_inv <;> cases he
    exact .signIn hmono hP hi hf.2 h₁
  | refresh dto ip =>
    obtain ⟨_ | _, he, h₁⟩ := h'.map_inv <;> cases he
    exact .refresh hmono hP hi hf.2 h₁

/-! ## Serial histories -/

/-- A state that a serial history reaches from users with ids and no session. -/
def SerialReachable (π : Policy (schema P)) (w : World (userService P)) : Prop :=
  ∃ (s : Store (schema P)) (ls : List (Label (userService P))), s.db.tSession = [] ∧
    s.db.tSessionRefresh = [] ∧ (∀ u ∈ s.db.tUser, u.userId ≠ "") ∧
    Run.Along (World.step π) World.Serial (World.init s) ls ∧
    Run.exec (World.step π) (World.init s) ls = some w

theorem SerialReachable.reachable (h : SerialReachable π w) : Reachable π w :=
  let ⟨s, ls, hs, hr, _, _, h⟩ := h
  ⟨s, hs, hr, ls, h⟩

theorem SerialReachable.aged (hP : P.Lawful) (hmono : ∀ a b, π.tick a b = true → a ≤ b)
    (h : SerialReachable π w) : w.Sound (agedRely hmono) := by
  obtain ⟨s, ls, hs, hr, hu, _, h⟩ := h
  have hinit : (World.init s : World (userService P)).Sound (agedRely hmono) :=
    .init ⟨TablesInv.initial hs hr, .initial hu hs hr⟩
  exact (hinit.reaches (agedRely_keeps hP hmono) ⟨ls, h⟩).1

/-- The token a call has settled with, when it has one, is stored. -/
def TokenStored (r : Except Exn (UserReply P)) (d : Tables P) : Prop :=
  ∀ reply token, r = .ok reply → reply.refreshToken = some token →
    ∃ row ∈ d.tSessionRefresh, row.refreshHash = P.sha256Hex token

/-- The rows of `t_session_refresh` stand still while a call runs, and hold the tokens that earlier
calls have returned. -/
theorem SerialReachable.standsStill (hP : P.Lawful) (h : SerialReachable π w) :
    w.StandsStill Tables.tSessionRefresh TokenStored := by
  obtain ⟨s, ls, hs, hr, _, hser, h⟩ := h
  refine World.StandsStill.of_serial (userRely_keeps hP) (fun _ _ => rfl) ?_
    (TablesInv.initial hs hr) hser h
  intro w hw c hc r hset reply token hr ht
  exact stored_of_sound hP hw hc (hr ▸ hset) ht

/-- **Every call of a serial history settles**: it is never blocked, and its program ends. -/
theorem SerialReachable.settles (hP : P.Lawful) (h : SerialReachable π w) {i : Nat}
    {c : Call (userService P)} (hc : w.calls[i]? = some c) :
    ∃ ls w' c', (∀ l ∈ ls, l = .finish i ∨ ∃ x, l = .exec i x) ∧
      Run.exec (World.step π) w ls = some w' ∧ w'.calls[i]? = some c' ∧ c'.Settled := by
  by_cases hset : c.Settled
  · exact ⟨[], w, c, by simp, rfl, hc, hset⟩
  have hstill := h.standsStill hP
  have hlast := hstill.alone hc hset
  obtain ⟨req, tr, p | r⟩ := c
  · refine World.settles hc fun d hd => ?_
    obtain ⟨j, hji, hj⟩ := List.mem_eraseIdx_iff_getElem?.mp hd
    by_contra hno
    have := hstill.alone hj hno
    omega
  · exact absurd ⟨r, rfl⟩ hset

/-- The operations of a settled call met states that the invariant holds in. -/
theorem events_of_sound {A : Rely π} (h : w.Sound A) (hπ : π.faults = false)
    {c : Call (userService P)} (hc : c ∈ w.calls) (hset : c.phase = .settled r) :
    ∀ e ∈ c.trace, A.inv e.store := by
  obtain ⟨req, l, phase⟩ := c
  cases hset
  rcases h.calls _ hc with ⟨s₀, s₁, t, _, _, hrun, _, _⟩ | ⟨hf, _⟩
  · exact fun e he => (hrun.events e he).1
  · exact absurd (hπ.symm.trans hf) Bool.false_ne_true

/-- A signed token whose session is live and that is stored can be refreshed before it expires. -/
theorem Usable.of_issued (hP : P.Lawful) {s : Store (schema P)} (hi : TablesInv s.db ∧ Aged s)
    (hlive : ∃ x ∈ s.db.tSession, LiveSession ip sid x)
    (hrow : ∃ r ∈ s.db.tSessionRefresh,
      r.refreshHash = P.sha256Hex (refreshTokenAt P userId sid issued))
    (hexp : s.clock / 1000 < issued / 1000 + refreshExpiresIn) :
    Usable s.db s.clock (refreshTokenAt P userId sid issued) ip := by
  obtain ⟨r, hr, hh⟩ := hrow
  obtain ⟨x, hx, hsid, now, hst⟩ := hi.1.stored r hr
  obtain ⟨rfl, rfl, ht⟩ := hP.sign_refresh_inj (hP.sha256_injective (hst.hash.symm.trans hh))
  obtain ⟨hu, hs⟩ := hi.2.sessions x hx
  rw [hsid] at hs
  have hverify : P.verify (refreshTokenAt P x.userId r.sessionId issued) s.clock = .ok
      { refreshClaims x.userId r.sessionId with
        iat := some (issued / 1000), exp := some (issued / 1000 + refreshExpiresIn) } := by
    rw [refreshTokenAt, hP.verify_sign, if_neg (by omega)]
  refine ⟨⟨_, hverify, rfl, truthy_iff.mpr ⟨_, rfl, hu⟩, truthy_iff.mpr ⟨_, rfl, hs⟩⟩, r, hr,
    ⟨hh, ?_⟩, hlive⟩
  rw [hst.endAt, ht]
  omega

/-- The row of a token without a successor is the last issued of its session: a token is issued in
the second of `now`, not earlier, only if it is that one. -/
theorem Aged.issued_iff (hP : P.Lawful) {s s₁ : Store (schema P)} (hs : Aged s)
    (hi : TablesInv s₁.db ∧ Aged s₁) (hsame : s.db.tSessionRefresh = s₁.db.tSessionRefresh)
    (hle : s.clock ≤ now)
    (hrow : ∃ r ∈ s₁.db.tSessionRefresh,
      r.refreshHash = P.sha256Hex (refreshTokenAt P userId sid issued))
    (hno : ¬ Rotated s₁.db (refreshTokenAt P userId sid issued)) :
    Issued s₁.db sid now ↔ now / 1000 = issued / 1000 := by
  obtain ⟨r, hr, hh⟩ := hrow
  obtain ⟨_, _, _, now', hst⟩ := hi.1.stored r hr
  obtain ⟨rfl, rfl, ht⟩ := hP.sign_refresh_inj (hP.sha256_injective (hst.hash.symm.trans hh))
  have hend := hst.endAt
  constructor
  · rintro ⟨r', hr', hsid, he⟩
    have hlast := hi.1.chain_last hr (Bool.eq_false_iff.mpr fun htk => hno (by
      rw [rotated_iff_taken, ← hh]
      exact htk))
    have hle₁ := le_of_getLast? (hi.2.sorted _) hlast (Tables.mem_chain.mpr ⟨hr', hsid⟩)
    have hpast := hs.past r (by rw [hsame]; exact hr)
    have hexp := expiry_mono hle
    omega
  · intro hnow
    exact ⟨r, hr, rfl, by rw [hend, ht, hnow]⟩

/-- **An issued token is refreshed** in a serial history, before it expires and while its session is
live for the caller, exactly when it has been exchanged before or the next token is not signed in
the second in which it was issued. -/
theorem issued_refresh_iff (hP : P.Lawful) (hπ : π.faults = false)
    (hmono : ∀ a b, π.tick a b = true → a ≤ b) (h : SerialReachable π w)
    {i j : Nat} {c c' : Call (userService P)} (hc' : w.calls[j]? = some c')
    (hret : returnedToken c' = some token) (hji : j < i) (hc : w.calls[i]? = some c)
    (hreq : c.req = .refresh ⟨token⟩ ip)
    (hset : c.phase = .settled r) (htok : token = refreshTokenAt P userId sid issued)
    (hexp : ∀ e ∈ c.trace, e.store.clock / 1000 < issued / 1000 + refreshExpiresIn)
    (hlive : ∀ e ∈ c.trace, ∃ s ∈ e.store.db.tSession, LiveSession ip sid s) :
    (∃ reply, r = .ok (.refreshed reply) ∧ reply.refreshToken ≠ token) ↔
      (∃ e ∈ c.trace, Rotated e.store.db token) ∨
        ∀ now, (clocks c.trace)[2]? = some now → now / 1000 ≠ issued / 1000 := by
  have hmem := List.mem_of_getElem? hc
  have hstill := h.standsStill hP
  have hinv := events_of_sound (h.aged hP hmono) hπ hmem hset
  obtain ⟨reply, hset', hret⟩ := returnedToken_eq_some.mp hret
  have hrow : ∀ e ∈ c.trace, ∃ row ∈ e.store.db.tSessionRefresh,
      row.refreshHash = P.sha256Hex token :=
    fun e he => hstill.past hc hc' hji hset' e he reply token rfl hret
  have hu : ∀ e ∈ c.trace, Usable e.store.db e.store.clock token ip := by
    intro e he
    subst htok
    exact .of_issued hP (hinv e he) (hlive e he) (hrow e he) (hexp e he)
  obtain ⟨rows, hrows, _⟩ := hstill.still hmem
  have hsame {e : Event (schema P)} {s : Store (schema P)} (he : e ∈ c.trace)
      (hs : ∃ e ∈ c.trace, e.store = s) : e.store.db.tSessionRefresh = s.db.tSessionRefresh := by
    obtain ⟨e', he', rfl⟩ := hs
    exact (hrows e he).trans (hrows e' he').symm
  have hunrot {s s₁ : Store (schema P)} {now : Nat} {x : Except (DbError (UserKey P)) Unit}
      (hf : FirstExchange (userRely π) token userId sid c.trace s now x s₁) :
      ¬ Rotated s₁.db token := by
    obtain ⟨e, he, rfl⟩ := hf.lookup
    have hno := hf.unrotated
    rwa [Rotated, hsame he hf.insert_mem] at hno
  have hissued {s s₁ : Store (schema P)} {now : Nat} {x : Except (DbError (UserKey P)) Unit}
      (hf : FirstExchange (userRely π) token userId sid c.trace s now x s₁) :
      Issued s₁.db sid now ↔ now / 1000 = issued / 1000 := by
    have hno := hunrot hf
    obtain ⟨b, hg, rfl, _⟩ := hf.signed
    obtain ⟨e, he, rfl⟩ := hf.lookup
    have heq := hsame he hf.insert_mem
    obtain ⟨e₁, he₁, rfl⟩ := hf.insert_mem
    subst htok
    exact (hinv e he).2.issued_iff hP (hinv e₁ he₁) heq (clock_le hmono hg.2) (hrow e₁ he₁) hno
  have hne {reply : UserRefreshResultDto P} (hr : r = .ok (.refreshed reply)) :
      reply.refreshToken ≠ token :=
    h.reachable.answers_ne hP hmem (⟨hreq, hr ▸ hset⟩ : Answers c token ip reply)
  obtain ⟨r₀, rfl, hend⟩ := h.reachable.usableEnd hP hπ hmem hreq hset hu htok
  cases hend with
  | replayed hans hch =>
    obtain ⟨e, he, row, hrow, hb, _⟩ := hans
    exact ⟨fun _ => .inl ⟨e, he, row, hrow, hb⟩, fun _ => ⟨_, rfl, hne rfl⟩⟩
  | inserted hf _ hiss =>
    refine ⟨fun _ => .inr fun now hnow heq => hiss ?_, fun _ => ⟨_, rfl, hne rfl⟩⟩
    cases hf.clock.symm.trans hnow
    exact (hissued hf).mpr heq
  | clashed hf hiss =>
    have hrot := hunrot hf
    refine ⟨?_, ?_⟩
    · rintro ⟨_, hok, _⟩
      cases hok
    · rintro (⟨e, he, hr⟩ | hsec)
      · rw [Rotated, hsame he hf.insert_mem] at hr
        exact absurd hr hrot
      · exact absurd ((hissued hf).mp hiss) (hsec _ hf.clock)
  | unseen hf hrot => exact absurd hrot (hunrot hf)
  | lost hf hans =>
    obtain ⟨row, hrow, hb, _⟩ := hans
    exact absurd ⟨row, hrow, hb⟩ (hunrot hf)

/-! ## Sample histories -/

theorem SerialReachable.of_exec (s : Store (schema P)) (ls : List (Label (userService P)))
    (hs : s.db.tSession = []) (hr : s.db.tSessionRefresh = [])
    (hu : ∀ u ∈ s.db.tUser, u.userId ≠ "")
    (hser : Run.Along (World.step π) World.Serial (World.init s) ls)
    (h : (Run.exec (World.step π) (World.init s) ls).isSome = true) :
    SerialReachable π ((Run.exec (World.step π) (World.init s) ls).get h) :=
  ⟨s, ls, hs, hr, hu, hser, (Option.some_get h).symm⟩

/-- A sign-in, and a refresh of the returned token in the same second. -/
def hastyLabels : List (Label (userService symbolic)) :=
  signInLabels 0 ++ refreshLabels 1 (sampleToken 5000) [.proceed, .proceed, .proceed, .proceed,
    .proceed, .proceed, .pick "iv", .name (.refreshHash (sampleToken 5000))]

def hastyWorld : World (userService symbolic) :=
  (Run.exec (World.step (calm symbolic .repeatableRead)) (World.init (sampleStore 5000))
    hastyLabels).get rfl

/-- The refresh of a token in the second in which it was returned ends in an error. -/
theorem issued_refresh_clashed : SerialReachable (calm symbolic .repeatableRead) hastyWorld ∧
    (∃ c ∈ hastyWorld.calls[0]?, returnedToken c = some (sampleToken 5000)) ∧
    ∃ c ∈ hastyWorld.calls[1]?, c.req = .refresh ⟨sampleToken 5000⟩ none ∧
      (∀ e ∈ c.trace, e.store.clock = 5000) ∧
      (∀ e ∈ c.trace, ∃ s ∈ e.store.db.tSession, LiveSession none "s" s) ∧
      c.phase = .settled
        (.error (badRequestException { message := "중복된 refresh token 이 존재합니다." })) :=
  ⟨.of_exec _ _ rfl rfl (by decide) (by decide +kernel) rfl, ⟨_, rfl, rfl⟩, _, rfl, rfl,
    by decide +kernel, by decide +kernel, rfl⟩

def sampleWorld : World (userService symbolic) :=
  (Run.exec (World.step (calm symbolic .repeatableRead)) (World.init (sampleStore 5000))
    sampleLabels).get rfl

/-- The exchange of `sampleWorld`, two seconds after the sign-in. -/
def sampleCall : Call (userService symbolic) := sampleWorld.calls[1]?.get rfl

theorem issued_refresh_iff_sample :
    SerialReachable (calm symbolic .repeatableRead) sampleWorld ∧
    sampleCall.req = .refresh ⟨sampleToken 5000⟩ none ∧
    ∃ reply, sampleCall.phase = .settled (.ok (.refreshed reply)) ∧
      reply.refreshToken ≠ sampleToken 5000 := by
  have hw : SerialReachable (calm symbolic .repeatableRead) sampleWorld :=
    .of_exec _ _ rfl rfl (by decide) (by decide +kernel) rfl
  have hret : ∃ c ∈ sampleWorld.calls[0]?, returnedToken c = some (sampleToken 5000) :=
    ⟨_, rfl, rfl⟩
  have hexp : ∀ e ∈ sampleCall.trace, e.store.clock / 1000 < 5000 / 1000 + refreshExpiresIn := by
    decide +kernel
  have hlive : ∀ e ∈ sampleCall.trace, ∃ s ∈ e.store.db.tSession, LiveSession none "s" s := by
    decide +kernel
  have hsec : ∀ now, (clocks sampleCall.trace)[2]? = some now → now / 1000 ≠ 5000 / 1000 := by
    intro now h
    cases h
    decide
  have hset : ∃ r, sampleCall.phase = .settled r := ⟨_, rfl⟩
  obtain ⟨c', hc', hret⟩ := hret
  obtain ⟨r, hset⟩ := hset
  obtain ⟨reply, rfl, hne⟩ := (issued_refresh_iff symbolic_lawful rfl (fun _ _ => of_decide_eq_true)
    hw hc' hret Nat.zero_lt_one (Option.some_get _).symm rfl hset rfl hexp hlive).mpr (.inr hsec)
  exact ⟨hw, rfl, reply, hset, hne⟩

end NestHarness
