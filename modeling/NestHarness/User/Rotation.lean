import NestHarness.User.Invariant

/-!
# Rotation of refresh tokens

What holds in every state that sign-ins and refreshes of any number of callers can reach, at either
isolation level, with any clocks, faults and deleted sessions: each session's rows are one path, a
token is exchanged for one successor only, and a successful exchange is bound to the session that
was checked.
-/

namespace NestHarness

open Txn

variable {P : Crypto} {π : Policy (schema P)} {w : World (userService P)}

/-- A state reached from a database without sessions. -/
def Reachable (π : Policy (schema P)) (w : World (userService P)) : Prop :=
  ∃ s : Store (schema P), s.db.tSession = [] ∧ s.db.tSessionRefresh = [] ∧
    (World.init s).Reaches π w

theorem Reachable.sound (hP : P.Lawful) (h : Reachable π w) : w.Sound (userRely π) := by
  obtain ⟨s, hs, hr, h⟩ := h
  have hinit : (World.init s : World (userService P)).Sound (userRely π) :=
    .init (TablesInv.initial hs hr)
  exact (hinit.reaches (userRely_keeps hP) h).1

theorem Reachable.tables (hP : P.Lawful) (h : Reachable π w) : TablesInv w.db := (h.sound hP).inv

/-- A run that can be computed reaches its last state. -/
theorem Reachable.of_exec (s : Store (schema P)) (ls : List (Label (userService P)))
    {f : World (userService P) → α} (hs : s.db.tSession = []) (hr : s.db.tSessionRefresh = [])
    (h : (Run.exec (World.step π) (World.init s) ls).map f = some x) :
    ∃ w, Reachable π w ∧ f w = x := by
  obtain ⟨w, hw, hx⟩ := Option.map_eq_some_iff.mp h
  exact ⟨w, ⟨s, hs, hr, ls, hw⟩, hx⟩

theorem Reachable.of_call (s : Store (schema P)) (ls : List (Label (userService P))) (i : Nat)
    {c : Call (userService P)} (hs : s.db.tSession = []) (hr : s.db.tSessionRefresh = [])
    (h : (Run.exec (World.step π) (World.init s) ls).bind (·.calls[i]?) = some c) :
    ∃ w, Reachable π w ∧ c ∈ w.calls := by
  obtain ⟨w, hw, hc⟩ := Option.bind_eq_some_iff.mp h
  exact ⟨w, ⟨s, hs, hr, ls, hw⟩, List.mem_of_getElem? hc⟩

/-- The call answered a refresh of `token` with `reply`. -/
structure Answers (c : Call (userService P)) (token : P.Token) (ip : Option String)
    (reply : UserRefreshResultDto P) : Prop where
  req : c.req = .refresh ⟨token⟩ ip
  phase : c.phase = .settled (.ok (.refreshed reply))

/-- What a call has checked and answered, in the state `w` that it is settled in. -/
theorem answers_of_sound (hP : P.Lawful) (h : w.Sound (userRely π)) {c : Call (userService P)}
    (hc : c ∈ w.calls) (ha : Answers c token ip reply) :
    ∃ session, w.db.holds session ∧ ∃ row ∈ w.db.tSessionRefresh,
      ∃ submitted ∈ w.db.tSessionRefresh,
      Replied π (P.sha256Hex token) ip c.trace reply session submitted row ∧
      ∃ s₁ payload, ⟨.now, s₁.clock, s₁, .empty⟩ ∈ c.trace ∧
        P.verify token s₁.clock = .ok payload ∧ RefreshPayload payload ∧
        payload.sessionId = some session.sessionId ∧ payload.userId = some session.userId := by
  obtain ⟨req, l, phase⟩ := c
  obtain ⟨rfl, rfl⟩ := ha
  rcases h.calls _ hc with ⟨s₀, s₁, t, _, hi, hrun, _, hg⟩ | ⟨_, he⟩
  swap
  · cases he
  obtain ⟨_ | _, he, hrun⟩ := hrun.map_inv <;> cases he
  obtain ⟨session, hses, row, submitted, hsub, hrep, hset, hpay⟩ := refresh_ok .rfl hP hrun hi
  have hg : Grows π (t.onto s₁.db) w.db := hg.1
  rcases hset with ⟨hw, hrow⟩ | ⟨hw, _⟩
  · rw [Tx.onto_nil hw] at hg
    exact ⟨session, hg.holds hses, row, hg.row hrow, submitted, hg.row hsub, hrep, hpay⟩
  · have hover : Grows π s₁.db (t.onto s₁.db) :=
      .append (a := []) (b := [row]) (by simp [Tx.onto, hw, Tables.apply])
        (by simp [Tx.onto, hw, Tables.apply])
    have hg' := hover.trans hg
    refine ⟨session, hg'.holds hses, row, hg.row ?_, submitted, hg'.row hsub, hrep, hpay⟩
    simp [Tx.onto, hw, Tables.apply]

def UserReply.refreshToken : UserReply P → Option P.Token
  | .created => none
  | .signedIn result => some result.refreshToken
  | .refreshed result => some result.refreshToken

/-- The refresh token a call has returned. -/
def returnedToken (c : Call (userService P)) : Option P.Token :=
  match c.phase with
  | .settled (.ok reply) => reply.refreshToken
  | _ => none

theorem returnedToken_eq_some {c : Call (userService P)} : returnedToken c = some token ↔
    ∃ reply, c.phase = .settled (.ok reply) ∧ reply.refreshToken = some token := by
  rw [returnedToken]
  split
  · rename_i h
    simp [h]
  · rename_i hno
    refine ⟨nofun, ?_⟩
    rintro ⟨reply, h, _⟩
    exact absurd h (hno reply)

/-- A token that a call has returned is stored. -/
theorem stored_of_sound (hP : P.Lawful) (h : w.Sound (userRely π)) {c : Call (userService P)}
    (hc : c ∈ w.calls) (hset : c.phase = .settled (.ok reply))
    (ht : reply.refreshToken = some token) :
    ∃ r ∈ w.db.tSessionRefresh, r.refreshHash = P.sha256Hex token := by
  obtain ⟨req, l, phase⟩ := c
  cases hset
  rcases h.calls _ hc with ⟨s₀, s₁, t, _, _, hrun, _, hg⟩ | ⟨_, he⟩
  swap
  · cases he
  cases req with
  | adminCreate dto =>
    obtain ⟨_ | _, he, _⟩ := hrun.map_inv <;> cases he
    cases ht
  | signIn dto ip =>
    obtain ⟨_ | _, he, hrun⟩ := hrun.map_inv <;> cases he
    cases ht
    obtain ⟨_, b, user, patch, sid, iv, _, _, _, _, _, _, hw, hr, _⟩ := signIn_ok hP hrun
    have hg : Grows π (t.onto s₁.db) w.db := hg.1
    refine ⟨_, hg.row (r := tokenRow P user.userId sid none iv b.clock) ?_, ?_⟩
    · cases patch <;> simp [Tx.onto, hw, Tables.apply]
    · rw [hr]
      rfl
  | refresh dto ip =>
    obtain ⟨_ | _, he, _⟩ := hrun.map_inv <;> cases he
    cases ht
    obtain ⟨session, _, row, hrow, _, _, hrep, _⟩ :=
      answers_of_sound hP h hc (⟨rfl, rfl⟩ : Answers _ dto.refreshToken ip _)
    obtain ⟨_, hst, ht⟩ := hrep.stores
    exact ⟨row, hrow, by rw [hst.hash, ht, hrep.row_sid]⟩

/-! ## A sample run -/

/-- One user who can sign in. -/
def sampleStore (clock : Nat) : Store (schema symbolic) where
  db := {
    tAuth := ["USER"], tPosition := [], tState := [⟨"ACTIVE", 1⟩]
    tUser := [⟨"u", "USER", "ACTIVE", none, "id", "salt$codepw", "name", "nick", none, none⟩]
    tSession := [], tSessionRefresh := [] }
  clock

/-- Clocks do not go back, and no fault or edit happens. -/
abbrev calm (P : Crypto) (isolation : Isolation) : Policy (schema P) :=
  ⟨isolation, false, fun a b => a ≤ b, fun _ => false⟩

/-- The `i`-th call signs the user in under the session id `s`. -/
def signInLabels (i : Nat) : List (Label (userService symbolic)) :=
  .call (UserRequest.signIn ⟨"id", "pw", none, none⟩ none) ::
    [.proceed, .proceed, .pick "s", .proceed, .proceed, .proceed, .pick "iv", .proceed].map
      (.exec i) ++ [.finish i]

/-- The `i`-th call refreshes `token`, with the given choices. -/
def refreshLabels (i : Nat) (token : symbolic.Token) (cs : List (Choice (schema symbolic))) :
    List (Label (userService symbolic)) :=
  .call (UserRequest.refresh ⟨token⟩ none) :: cs.map (.exec i) ++ [.finish i]

abbrev sampleToken (now : Nat) : symbolic.Token := refreshTokenAt symbolic "u" "s" now

/-- A sign-in, an exchange two seconds later, and a replay. -/
def sampleLabels : List (Label (userService symbolic)) :=
  signInLabels 0 ++ [.tick 7000] ++
    refreshLabels 1 (sampleToken 5000) [.proceed, .proceed, .proceed, .proceed, .proceed, .proceed,
      .pick "iv", .proceed] ++
    refreshLabels 2 (sampleToken 5000) [.proceed, .proceed, .proceed, .proceed, .proceed]

theorem sample_reachable : ∃ w, Reachable (calm symbolic .repeatableRead) w ∧
    w.calls.map returnedToken =
      [some (sampleToken 5000), some (sampleToken 7000), some (sampleToken 7000)] :=
  Reachable.of_exec (sampleStore 5000) sampleLabels rfl rfl rfl

/-! ## Agreement -/

theorem Stores.token_unique (hP : P.Lawful) {r : SessionRefreshEntity P} (h : Stores r u now)
    (h' : Stores r u' now') :
    refreshTokenAt P u r.sessionId now = refreshTokenAt P u' r.sessionId now' :=
  hP.sha256_injective (h.hash.symm.trans h'.hash)

/-- Two exchanges of one token answer with one row. -/
theorem Reachable.agree (hP : P.Lawful) (h : Reachable π w) {c c' : Call (userService P)}
    (hc : c ∈ w.calls) (hc' : c' ∈ w.calls) (ha : Answers c token ip reply)
    (ha' : Answers c' token ip' reply') :
    reply.refreshToken = reply'.refreshToken ∧
      reply.refreshExpiresAt = reply'.refreshExpiresAt := by
  obtain ⟨s, _, r, hr, _, _, hrep, _⟩ := answers_of_sound hP (h.sound hP) hc ha
  obtain ⟨s', _, r', hr', _, _, hrep', _⟩ := answers_of_sound hP (h.sound hP) hc' ha'
  obtain rfl := (h.tables hP).rotated_unique hr hr' hrep.row_parent hrep'.row_parent
  obtain ⟨_, hst, ht⟩ := hrep.stores
  obtain ⟨_, hst', ht'⟩ := hrep'.stores
  obtain ⟨_, he⟩ := hrep.reply_eq
  obtain ⟨_, he'⟩ := hrep'.reply_eq
  refine ⟨?_, ?_⟩
  · rw [ht, ht', ← hrep.row_sid, ← hrep'.row_sid]
    exact hst.token_unique hP hst'
  · rw [he, he']
    rfl

theorem countP_le_one {l : List α} {p : α → Bool} (hn : l.Nodup)
    (h : ∀ a ∈ l, ∀ b ∈ l, p a = true → p b = true → a = b) : l.countP p ≤ 1 := by
  induction l with
  | nil => simp
  | cons a l ih =>
    obtain ⟨ha, hn⟩ := List.nodup_cons.mp hn
    rw [List.countP_cons]
    split
    · rename_i hp
      have : l.countP p = 0 := List.countP_eq_zero.mpr fun b hb hpb =>
        ha (h a (by simp) b (by simp [hb]) hp hpb ▸ hb)
      omega
    · exact ih hn fun a ha b hb => h a (by simp [ha]) b (by simp [hb])

/-- **Rotation agreement**: a token has at most one successor row, and all replies ever given for it
carry one refresh token and one expiry. -/
theorem rotation_agreement (hP : P.Lawful) (h : Reachable π w) (token : P.Token) :
    w.db.tSessionRefresh.countP (·.beforeRefreshHash = some (P.sha256Hex token)) ≤ 1 ∧
    ∀ c ∈ w.calls, ∀ c' ∈ w.calls, ∀ ip ip' reply reply', Answers c token ip reply →
      Answers c' token ip' reply' → reply.refreshToken = reply'.refreshToken ∧
        reply.refreshExpiresAt = reply'.refreshExpiresAt := by
  refine ⟨?_, fun c hc c' hc' _ _ _ _ ha ha' => h.agree hP hc hc' ha ha'⟩
  have hinv := h.tables hP
  refine countP_le_one hinv.refreshUk.of_map fun r hr r' hr' hb hb' => ?_
  exact hinv.rotated_unique hr hr' (of_decide_eq_true hb) (of_decide_eq_true hb')

theorem rotation_agreement_sample : ∃ w, Reachable (calm symbolic .repeatableRead) w ∧
    w.calls.map returnedToken =
      [some (sampleToken 5000), some (sampleToken 7000), some (sampleToken 7000)] ∧
    w.db.tSessionRefresh.countP
      (·.beforeRefreshHash = some (symbolic.sha256Hex (sampleToken 5000))) ≤ 1 :=
  let ⟨w, hw, hc⟩ := sample_reachable
  ⟨w, hw, hc, (rotation_agreement symbolic_lawful hw _).1⟩

/-! ## Paths -/

/-- `b` was issued in exchange for the token of `a`. -/
def Tables.Next (d : Tables P) (a b : SessionRefreshEntity P) : Prop :=
  b ∈ d.tSessionRefresh ∧ b.beforeRefreshHash = some a.refreshHash

structure SinglePath (d : Tables P) (sid : String) : Prop where
  path : IsPath (·.refreshHash) (·.beforeRefreshHash) (d.chain sid)
  root : ∃! r, r ∈ d.chain sid ∧ r.beforeRefreshHash = none
  parent : ∀ r ∈ d.chain sid, ∀ k, r.beforeRefreshHash = some k →
    ∃ p ∈ d.chain sid, p.refreshHash = k ∧
      ∀ p' ∈ d.tSessionRefresh, p'.refreshHash = k → p' = p
  child : ∀ a b b', d.Next a b → d.Next a b' → b = b'
  acyclic : ∀ a, ¬ Relation.TransGen d.Next a a

/-- Following the exchanges from a row stays in its chain. -/
theorem TablesInv.transGen_chain {d : Tables P} (h : TablesInv d)
    (hab : Relation.TransGen d.Next a b) (ha : a ∈ d.tSessionRefresh) :
    b ∈ d.chain a.sessionId ∧ Relation.TransGen
      (fun x y => y ∈ d.chain a.sessionId ∧ y.beforeRefreshHash = some x.refreshHash) a b := by
  have hstep {x y : SessionRefreshEntity P} (hx : x ∈ d.chain a.sessionId) (hxy : d.Next x y) :
      y ∈ d.chain a.sessionId := by
    obtain ⟨hx, hsid⟩ := Tables.mem_chain.mp hx
    obtain ⟨p, hp, hk, he⟩ := h.parent hxy.1 hxy.2
    obtain rfl := h.row_unique hp hx hk
    exact Tables.mem_chain.mpr ⟨hxy.1, he.symm.trans hsid⟩
  induction hab with
  | single hn =>
    have hb := hstep (Tables.mem_chain.mpr ⟨ha, rfl⟩) hn
    exact ⟨hb, .single ⟨hb, hn.2⟩⟩
  | tail _ hn ih =>
    have hb := hstep ih.1 hn
    exact ⟨hb, ih.2.tail ⟨hb, hn.2⟩⟩

theorem TablesInv.singlePath {d : Tables P} (h : TablesInv d) {s : SessionEntity}
    (hs : s ∈ d.tSession) : SinglePath d s.sessionId where
  path := h.path s hs
  root := by
    have hp := h.path s hs
    obtain ⟨r, hr⟩ : ∃ r, (d.chain s.sessionId)[0]? = some r :=
      ⟨_, List.getElem?_eq_getElem (List.length_pos_iff.mpr hp.nonempty)⟩
    refine ⟨r, ⟨List.mem_of_getElem? hr, hp.root hr⟩, fun r' ⟨hr', hb⟩ => ?_⟩
    exact Option.some.inj ((hp.root_eq hr' hb).symm.trans hr)
  parent r hr k hb := by
    obtain ⟨hr, he⟩ := Tables.mem_chain.mp hr
    obtain ⟨p, hp, hk, hps⟩ := h.parent hr hb
    refine ⟨p, Tables.mem_chain.mpr ⟨hp, hps.trans he⟩, hk, fun p' hp' hk' => ?_⟩
    exact h.row_unique hp' hp (hk'.trans hk.symm)
  child a b b' hb hb' := h.rotated_unique hb.1 hb'.1 hb.2 hb'.2
  acyclic a haa := by
    have ha : a ∈ d.tSessionRefresh := by
      cases haa with
      | single h => exact h.1
      | tail _ h => exact h.1
    exact (h.row_path ha).acyclic (h.chain_nodup _) (h.transGen_chain haa ha).2

/-- Each of the tokens was returned for a refresh of the one before it. -/
def Walk (w : World (userService P)) (tokens : List P.Token) : Prop :=
  tokens.IsChain fun a b =>
    ∃ c ∈ w.calls, ∃ ip reply, Answers c a ip reply ∧ reply.refreshToken = b

/-- The token returned for the token of a row is that of the next row of the chain. -/
theorem Reachable.answer_succ (hP : P.Lawful) (h : Reachable π w) {c : Call (userService P)}
    (hc : c ∈ w.calls) (ha : Answers c token ip reply) (hi : (w.db.chain sid)[i]? = some r)
    (hr : r.refreshHash = P.sha256Hex token) :
    ∃ r', (w.db.chain sid)[i + 1]? = some r' ∧
      r'.refreshHash = P.sha256Hex reply.refreshToken := by
  have hinv := h.tables hP
  obtain ⟨session, hses, row, hrow, submitted, hsub, hrep, _⟩ :=
    answers_of_sound hP (h.sound hP) hc ha
  obtain ⟨hmem, hsid⟩ := Tables.mem_chain.mp (List.mem_of_getElem? hi)
  obtain ⟨now, hst, ht⟩ := hrep.stores
  obtain ⟨p, hp, hk, hps⟩ := hinv.parent hrow hrep.row_parent
  obtain rfl := hinv.row_unique hp hmem (hk.trans hr.symm)
  have hb : row.beforeRefreshHash = some p.refreshHash := by rw [hrep.row_parent, hk]
  refine ⟨row, ?_, ?_⟩
  · exact (hsid ▸ hinv.row_path hmem).succ_eq (hinv.chain_nodup sid) hi
      (Tables.mem_chain.mpr ⟨hrow, hps.symm.trans hsid⟩) hb
  · rw [ht, hst.hash, hrep.row_sid]

/-- The answered token is not the presented one: its row would be its own parent. -/
theorem Reachable.answers_ne (hP : P.Lawful) (h : Reachable π w) {c : Call (userService P)}
    (hc : c ∈ w.calls) (ha : Answers c token ip reply) : reply.refreshToken ≠ token := by
  intro he
  obtain ⟨session, _, row, hrow, _, _, hrep, _⟩ := answers_of_sound hP (h.sound hP) hc ha
  obtain ⟨_, hst, ht⟩ := hrep.stores
  have hself : w.db.Next row row := by
    refine ⟨hrow, ?_⟩
    rw [hrep.row_parent, hst.hash, hrep.row_sid, ← ht, he]
  obtain ⟨s, hs, _⟩ := (h.tables hP).stored row hrow
  exact ((h.tables hP).singlePath hs).acyclic row (.single hself)

/-- **Rotation chains are single paths**, and repeated refreshes walk along one towards its tip. -/
theorem rotation_chains (hP : P.Lawful) (h : Reachable π w) :
    (∀ r ∈ w.db.tSessionRefresh, ∃ s ∈ w.db.tSession, r ∈ w.db.chain s.sessionId) ∧
    (∀ s ∈ w.db.tSession, SinglePath w.db s.sessionId) ∧
    ∀ sid i r token tokens, (w.db.chain sid)[i]? = some r → r.refreshHash = P.sha256Hex token →
      Walk w (token :: tokens) → ∀ k b, tokens[k]? = some b →
        ∃ r', (w.db.chain sid)[i + k + 1]? = some r' ∧ r'.refreshHash = P.sha256Hex b := by
  have hinv := h.tables hP
  refine ⟨fun r hr => ?_, fun s hs => hinv.singlePath hs, fun sid i r token tokens hi hr hw => ?_⟩
  · obtain ⟨s, hs, he, _⟩ := hinv.stored r hr
    exact ⟨s, hs, Tables.mem_chain.mpr ⟨hr, he.symm⟩⟩
  · induction tokens generalizing token i r with
    | nil => simp
    | cons t ts ih =>
      intro k b hk
      obtain ⟨⟨c, hc, ip, reply, ha, rfl⟩, hw⟩ := List.isChain_cons_cons.mp hw
      obtain ⟨r', hi', hr'⟩ := h.answer_succ hP hc ha hi hr
      cases k with
      | zero =>
        cases hk
        exact ⟨r', hi', hr'⟩
      | succ k =>
        have := ih (i + 1) r' _ hi' hr' hw k b hk
        rwa [show i + 1 + k + 1 = i + (k + 1) + 1 by omega] at this

theorem rotation_chains_sample : ∃ w, Reachable (calm symbolic .repeatableRead) w ∧
    w.calls.map returnedToken =
      [some (sampleToken 5000), some (sampleToken 7000), some (sampleToken 7000)] ∧
    ∀ s ∈ w.db.tSession, SinglePath w.db s.sessionId :=
  let ⟨w, hw, hc⟩ := sample_reachable
  ⟨w, hw, hc, (rotation_chains symbolic_lawful hw).2.1⟩

/-! ## Soundness -/

/-- The reply to a refresh of `token` is bound to one session: the one of the presented token's
claims and row, whose `is_delete` and ip were checked, and that both returned tokens name. -/
structure Bound (π : Policy (schema P)) (token : P.Token) (ip : Option String)
    (l : List (Event (schema P))) (reply : UserRefreshResultDto P) (session : SessionEntity) :
    Prop where
  payload : ∃ s t payload, ⟨.now, s.clock, s, t⟩ ∈ l ∧ P.verify token s.clock = .ok payload ∧
    payload.type = some "refresh" ∧ payload.sessionId = some session.sessionId
  submitted : ∃ e ∈ l, ∃ r ∈ (eventSeen π e).tSessionRefresh, r.refreshHash = P.sha256Hex token ∧
    e.store.clock / 1000 * 1000 < r.endAt ∧ r.sessionId = session.sessionId
  live : ∃ e ∈ l, session ∈ (eventSeen π e).tSession ∧ session.isDelete = 0 ∧
    (truthy ip = true → session.ip = ip)
  access : ∃ claims, P.decodeJwt reply.accessToken = some claims ∧ claims.type = some "access" ∧
    claims.sessionId = some session.sessionId ∧ claims.userId = some session.userId
  refresh : ∃ claims, P.decodeJwt reply.refreshToken = some claims ∧
    claims.type = some "refresh" ∧ claims.sessionId = some session.sessionId ∧
    claims.userId = some session.userId

theorem Reachable.bound (hP : P.Lawful) (h : Reachable π w) {c : Call (userService P)}
    (hc : c ∈ w.calls) (ha : Answers c token ip reply) :
    ∃ session, Bound π token ip c.trace reply session := by
  obtain ⟨session, _, row, _, submitted, _, hrep, s₁, payload, hnow, hv, hp, hsid, _⟩ :=
    answers_of_sound hP (h.sound hP) hc ha
  obtain ⟨e₁, h₁, e₂, h₂, t, sid, hval⟩ := hrep.validated
  obtain ⟨now, _, ht⟩ := hrep.stores
  obtain ⟨at_, he⟩ := hrep.reply_eq
  refine ⟨session, ?_⟩
  exact {
    payload := ⟨s₁, _, payload, hnow, hv, hp.type, hsid⟩
    submitted := ⟨e₁, h₁, submitted, hval.submitted_mem, hval.submitted_ok.1,
      hval.submitted_ok.2, hrep.submitted_sid⟩
    live := ⟨e₂, h₂, hval.session_mem, hval.session_ok.2.1, hval.session_ok.2.2⟩
    access := ⟨_, by rw [he]; exact hP.decode_sign .., rfl, rfl, rfl⟩
    refresh := ⟨_, by rw [ht]; exact hP.decode_sign .., rfl, rfl, rfl⟩ }

/-- A step of the `i`-th call. -/
def StepOf (i : Nat) (l : Label (userService P)) : Prop :=
  l = .finish i ∨ l = .crash i ∨ ∃ c, l = .exec i c

/-- **Refresh soundness and session binding.** A successful refresh is bound to one session; no step
of a call changes the database, unless the call succeeds in it. -/
theorem refresh_sound (hP : P.Lawful) (h : Reachable π w) :
    (∀ c ∈ w.calls, ∀ token ip reply, Answers c token ip reply →
      ∃ session, Bound π token ip c.trace reply session) ∧
    ∀ i l w', StepOf i l → w.step π l = some w' →
      (∀ c a, w'.calls[i]? = some c → c.phase ≠ .settled (.ok a)) → w'.db = w.db := by
  refine ⟨fun c hc token ip reply ha => h.bound hP hc ha, fun i l w' hl hs hno => ?_⟩
  rcases World.step_db hl hs with hdb | ⟨q, tr, a, hq⟩
  · exact hdb
  · exact absurd rfl (hno _ a hq)

theorem refresh_sound_sample : ∃ w, Reachable (calm symbolic .repeatableRead) w ∧
    w.calls.map returnedToken =
      [some (sampleToken 5000), some (sampleToken 7000), some (sampleToken 7000)] ∧
    ∀ c ∈ w.calls, ∀ token ip reply, Answers c token ip reply →
      ∃ session, Bound (calm symbolic .repeatableRead) token ip c.trace reply session :=
  let ⟨w, hw, hc⟩ := sample_reachable
  ⟨w, hw, hc, (refresh_sound symbolic_lawful hw).1⟩

end NestHarness
