import NestHarness.Lib.ParentPath
import NestHarness.User.ServiceRuns

/-!
# The invariant of the session tables

Every row of `t_session_refresh` stores a token signed for a session in `t_session` and that
session's user, and the rows of each session form a path from the row inserted by `signIn` along
`before_refresh_hash`. The tables only grow, except that an outside edit may set `is_delete`.
`userRely_keeps` says that every commit of the service keeps all of this; with
`World.Sound.reaches` it holds in every state that calls and edits can reach.
-/

namespace NestHarness

open Txn

variable {P : Crypto} {π : Policy (schema P)}

/-- The row `r` stores the refresh token signed for its session and the user at `now`. -/
structure Stores (r : SessionRefreshEntity P) (userId : String) (now : Nat) : Prop where
  hash : r.refreshHash = P.sha256Hex (refreshTokenAt P userId r.sessionId now)
  cipher : P.decryptAesGcm r.refreshEncrypted = .ok (refreshTokenAt P userId r.sessionId now)
  endAt : r.endAt = (now / 1000 + refreshExpiresIn) * 1000

/-- The rows of a session in the order of their commit. -/
def Tables.chain (d : Tables P) (sessionId : String) : List (SessionRefreshEntity P) :=
  d.tSessionRefresh.filter (·.sessionId = sessionId)

theorem Tables.mem_chain {d : Tables P} {r : SessionRefreshEntity P} :
    r ∈ d.chain sid ↔ r ∈ d.tSessionRefresh ∧ r.sessionId = sid := by
  simp [chain]

structure TablesInv (d : Tables P) : Prop where
  sessionPk : (d.tSession.map (·.sessionId)).Nodup
  refreshUk : (d.tSessionRefresh.map (·.refreshHash)).Nodup
  stored : ∀ r ∈ d.tSessionRefresh, ∃ s ∈ d.tSession, s.sessionId = r.sessionId ∧
    ∃ now, Stores r s.userId now
  path : ∀ s ∈ d.tSession, IsPath (·.refreshHash) (·.beforeRefreshHash) (d.chain s.sessionId)

structure Grows (π : Policy (schema P)) (d d' : Tables P) : Prop where
  sessions : ∀ s ∈ d.tSession, s ∈ d'.tSession ∨
    (∃ e, π.edits e = true) ∧ { s with isDelete := 1 } ∈ d'.tSession
  rows : d.tSessionRefresh <+: d'.tSessionRefresh

theorem Grows.refl (d : Tables P) : Grows π d d := ⟨fun _ h => .inl h, List.prefix_refl _⟩

theorem Grows.trans {a b c : Tables P} (h : Grows π a b) (h' : Grows π b c) : Grows π a c where
  sessions s hs := by
    rcases h.sessions s hs with hs | ⟨he, hs⟩
    · exact h'.sessions s hs
    · rcases h'.sessions _ hs with hs | ⟨_, hs⟩ <;> exact .inr ⟨he, hs⟩
  rows := h.rows.trans h'.rows

/-- The session is in `d`, unless for its `is_delete`. -/
def Tables.holds (d : Tables P) (s : SessionEntity) : Prop :=
  ∃ s' ∈ d.tSession, s'.sessionId = s.sessionId ∧ s'.userId = s.userId

theorem Grows.session {d d' : Tables P} (h : Grows π d d') {s : SessionEntity}
    (hs : s ∈ d.tSession) : d'.holds s := by
  rcases h.sessions s hs with hs | ⟨_, hs⟩
  · exact ⟨s, hs, rfl, rfl⟩
  · exact ⟨_, hs, rfl, rfl⟩

theorem Grows.holds {d d' : Tables P} (h : Grows π d d') {s : SessionEntity}
    (hs : d.holds s) : d'.holds s := by
  obtain ⟨s₁, hs₁, he, hu⟩ := hs
  obtain ⟨s₂, hs₂, he', hu'⟩ := h.session hs₁
  exact ⟨s₂, hs₂, he'.trans he, hu'.trans hu⟩

theorem Grows.row {d d' : Tables P} (h : Grows π d d') {r : SessionRefreshEntity P}
    (hr : r ∈ d.tSessionRefresh) : r ∈ d'.tSessionRefresh := h.rows.subset hr

namespace TablesInv

variable {d : Tables P} (h : TablesInv d)
include h

theorem session_unique {s s' : SessionEntity} (hs : s ∈ d.tSession) (hs' : s' ∈ d.tSession)
    (he : s.sessionId = s'.sessionId) : s = s' :=
  List.inj_on_of_nodup_map h.sessionPk hs hs' he

theorem row_unique {r r' : SessionRefreshEntity P} (hr : r ∈ d.tSessionRefresh)
    (hr' : r' ∈ d.tSessionRefresh) (he : r.refreshHash = r'.refreshHash) : r = r' :=
  List.inj_on_of_nodup_map h.refreshUk hr hr' he

theorem chain_nodup (sid : String) : ((d.chain sid).map (·.refreshHash)).Nodup :=
  h.refreshUk.sublist (List.filter_sublist.map _)

/-- A stored row carries the token of its session's user. -/
theorem stores {r : SessionRefreshEntity P} (hr : r ∈ d.tSessionRefresh) {session : SessionEntity}
    (hs : d.holds session) (he : r.sessionId = session.sessionId) :
    ∃ now, Stores r session.userId now := by
  obtain ⟨s', hs', hid, hu⟩ := hs
  obtain ⟨s, hs, he', now, hst⟩ := h.stored r hr
  obtain rfl := h.session_unique hs hs' (he'.trans (he.trans hid.symm))
  exact ⟨now, hu ▸ hst⟩

theorem row_path {r : SessionRefreshEntity P} (hr : r ∈ d.tSessionRefresh) :
    IsPath (·.refreshHash) (·.beforeRefreshHash) (d.chain r.sessionId) := by
  obtain ⟨s, hs, he, _⟩ := h.stored r hr
  exact he ▸ h.path s hs

/-- The parent of a row is a row of the same session. -/
theorem parent {r : SessionRefreshEntity P} (hr : r ∈ d.tSessionRefresh)
    (hb : r.beforeRefreshHash = some k) :
    ∃ p ∈ d.tSessionRefresh, p.refreshHash = k ∧ p.sessionId = r.sessionId := by
  obtain ⟨i, p, hp, _, hk⟩ := (h.row_path hr).exists_parent (Tables.mem_chain.mpr ⟨hr, rfl⟩) hb
  obtain ⟨hp, he⟩ := Tables.mem_chain.mp (List.mem_of_getElem? hp)
  exact ⟨p, hp, hk, he⟩

/-- No row has two children. -/
theorem rotated_unique {r r' : SessionRefreshEntity P} (hr : r ∈ d.tSessionRefresh)
    (hr' : r' ∈ d.tSessionRefresh) (hb : r.beforeRefreshHash = some k)
    (hb' : r'.beforeRefreshHash = some k) : r = r' := by
  obtain ⟨p, hp, rfl, hs⟩ := h.parent hr hb
  obtain ⟨p', hp', hk, hs'⟩ := h.parent hr' hb'
  obtain rfl := h.row_unique hp' hp hk
  obtain ⟨i, hi⟩ := List.mem_iff_getElem?.mp (Tables.mem_chain.mpr ⟨hp, rfl⟩)
  have hpath := h.row_path hp
  have hn := h.chain_nodup p'.sessionId
  have e := hpath.succ_eq hn hi (Tables.mem_chain.mpr ⟨hr, hs.symm⟩) hb
  have e' := hpath.succ_eq hn hi (Tables.mem_chain.mpr ⟨hr', hs'.symm⟩) hb'
  exact Option.some.inj (e.symm.trans e')

end TablesInv

theorem TablesInv.initial {d : Tables P} (hs : d.tSession = []) (hr : d.tSessionRefresh = []) :
    TablesInv d where
  sessionPk := by simp [hs]
  refreshUk := by simp [hr]
  stored := by simp [hr]
  path := by simp [hs]

/-! ## Edits and commits -/

theorem taken_refreshHash {d : Tables P} :
    d.taken (.refreshHash h) = false ↔ ∀ r ∈ d.tSessionRefresh, r.refreshHash ≠ h := by
  simp [Tables.taken]

theorem taken_beforeRefreshHash {d : Tables P} :
    d.taken (.beforeRefreshHash h) = false ↔
      ∀ r ∈ d.tSessionRefresh, r.beforeRefreshHash ≠ some h := by
  simp [Tables.taken]

theorem taken_pkSession {d : Tables P} :
    d.taken (.pkSession sid) = false ↔ ∀ s ∈ d.tSession, s.sessionId ≠ sid := by
  simp [Tables.taken]

theorem Grows.edit {d : Tables P} {e : UserEdit} (he : π.edits e = true) :
    Grows π d (d.edit e) := by
  obtain ⟨id⟩ := e
  refine ⟨fun s hs => ?_, List.prefix_refl _⟩
  have hmem := List.mem_map_of_mem
    (f := fun r : SessionEntity => if r.sessionId = id then { r with isDelete := 1 } else r) hs
  by_cases hid : s.sessionId = id
  · rw [if_pos hid] at hmem
    exact .inr ⟨⟨_, he⟩, hmem⟩
  · rw [if_neg hid] at hmem
    exact .inl hmem

theorem TablesInv.edit {d : Tables P} (h : TablesInv d) (e : UserEdit) : TablesInv (d.edit e) := by
  obtain ⟨id⟩ := e
  have hf (s : SessionEntity) :
      (if s.sessionId = id then { s with isDelete := 1 } else s).sessionId = s.sessionId ∧
      (if s.sessionId = id then { s with isDelete := 1 } else s).userId = s.userId := by
    split <;> exact ⟨rfl, rfl⟩
  refine ⟨?_, h.refreshUk, fun r hr => ?_, fun s hs => ?_⟩
  · simpa [Tables.edit, Function.comp_def, hf] using h.sessionPk
  · obtain ⟨s, hs, he, now, hst⟩ := h.stored r hr
    exact ⟨_, List.mem_map_of_mem hs, (hf s).1.trans he, now, (hf s).2.symm ▸ hst⟩
  · obtain ⟨s₀, hs₀, rfl⟩ := List.mem_map.mp hs
    rw [(hf s₀).1]
    exact h.path s₀ hs₀

theorem Tables.chain_append {d d' : Tables P} (hd : d'.tSessionRefresh = d.tSessionRefresh ++ [r])
    (sid : String) :
    d'.chain sid = if r.sessionId = sid then d.chain sid ++ [r] else d.chain sid := by
  by_cases hs : r.sessionId = sid <;> simp [Tables.chain, hd, hs]

/-- A session that is not in the tables has no rows. -/
theorem TablesInv.chain_eq_nil {d : Tables P} (h : TablesInv d)
    (hs : d.taken (.pkSession sid) = false) : d.chain sid = [] := by
  rw [taken_pkSession] at hs
  refine List.filter_eq_nil_iff.mpr fun r hr he => ?_
  obtain ⟨s, hs', he', _⟩ := h.stored r hr
  exact hs s hs' (he'.trans (by simpa using he))

/-- A row without a child is the last of its chain. -/
theorem TablesInv.chain_last {d : Tables P} (h : TablesInv d) {p : SessionRefreshEntity P}
    (hp : p ∈ d.tSessionRefresh) (hfree : d.taken (.beforeRefreshHash p.refreshHash) = false) :
    (d.chain p.sessionId).getLast? = some p := by
  rw [taken_beforeRefreshHash] at hfree
  refine (h.row_path hp).last_eq (Tables.mem_chain.mpr ⟨hp, rfl⟩) fun b hb => ?_
  exact hfree b (Tables.mem_chain.mp hb).1

/-- A new session with its first row keeps the invariant. -/
theorem TablesInv.openSession {d d' : Tables P} {s : SessionEntity} {r : SessionRefreshEntity P}
    (h : TablesInv d) (hs : d.taken (.pkSession s.sessionId) = false)
    (hr : d.taken (.refreshHash r.refreshHash) = false) (hsid : r.sessionId = s.sessionId)
    (hst : Stores r s.userId now) (hb : r.beforeRefreshHash = none)
    (hd : d'.tSession = d.tSession ++ [s])
    (hd' : d'.tSessionRefresh = d.tSessionRefresh ++ [r]) : TablesInv d' := by
  have hempty := h.chain_eq_nil hs
  rw [taken_pkSession] at hs
  rw [taken_refreshHash] at hr
  refine ⟨?_, ?_, fun r' hr' => ?_, fun s' hs' => ?_⟩
  · rw [hd, List.map_append]
    refine List.nodup_append'.mpr ⟨h.sessionPk, List.nodup_singleton _, ?_⟩
    simpa [List.disjoint_singleton] using hs
  · rw [hd', List.map_append]
    refine List.nodup_append'.mpr ⟨h.refreshUk, List.nodup_singleton _, ?_⟩
    simpa [List.disjoint_singleton] using hr
  · rw [hd'] at hr'
    rcases List.mem_append.mp hr' with hr' | hr'
    · obtain ⟨s', hs', rest⟩ := h.stored r' hr'
      exact ⟨s', by rw [hd]; exact List.mem_append_left _ hs', rest⟩
    · obtain rfl := List.mem_singleton.mp hr'
      exact ⟨s, by simp [hd], hsid.symm, now, hst⟩
  · rw [hd] at hs'
    rw [Tables.chain_append hd', hsid]
    rcases List.mem_append.mp hs' with hs' | hs'
    · rw [if_neg (hs s' hs').symm]
      exact h.path s' hs'
    · obtain rfl := List.mem_singleton.mp hs'
      rw [if_pos rfl, hempty]
      exact .singleton hb

/-- A row whose parent had no child yet keeps the invariant. -/
theorem TablesInv.rotate {d d' : Tables P} {p r : SessionRefreshEntity P} (h : TablesInv d)
    (hp : p ∈ d.tSessionRefresh) (hsid : r.sessionId = p.sessionId)
    (hb : r.beforeRefreshHash = some p.refreshHash)
    (hr : d.taken (.refreshHash r.refreshHash) = false)
    (hfree : d.taken (.beforeRefreshHash p.refreshHash) = false)
    (hst : ∃ s ∈ d.tSession, s.sessionId = r.sessionId ∧ ∃ now, Stores r s.userId now)
    (hd : d'.tSession = d.tSession)
    (hd' : d'.tSessionRefresh = d.tSessionRefresh ++ [r]) : TablesInv d' := by
  rw [taken_refreshHash] at hr
  refine ⟨hd ▸ h.sessionPk, ?_, fun r' hr' => ?_, fun s' hs' => ?_⟩
  · rw [hd', List.map_append]
    refine List.nodup_append'.mpr ⟨h.refreshUk, List.nodup_singleton _, ?_⟩
    simpa [List.disjoint_singleton] using hr
  · rw [hd]
    rw [hd'] at hr'
    rcases List.mem_append.mp hr' with hr' | hr'
    · exact h.stored r' hr'
    · exact List.mem_singleton.mp hr' ▸ hst
  · rw [hd] at hs'
    rw [Tables.chain_append hd']
    split
    · rename_i he
      have hlast := h.chain_last hp hfree
      rw [← hsid, he] at hlast
      exact (h.path s' hs').snoc hlast hb
    · exact h.path s' hs'

theorem TablesInv.congr {d d' : Tables P} (h : TablesInv d) (hs : d'.tSession = d.tSession)
    (hr : d'.tSessionRefresh = d.tSessionRefresh) : TablesInv d' := by
  obtain ⟨h₁, h₂, h₃, h₄⟩ := h
  constructor <;> simp only [Tables.chain, hs, hr] <;> assumption

theorem Grows.append {d d' : Tables P} (hs : d'.tSession = d.tSession ++ a)
    (hr : d'.tSessionRefresh = d.tSessionRefresh ++ b) : Grows π d d' where
  sessions _ h := .inl (hs ▸ List.mem_append_left _ h)
  rows := hr ▸ List.prefix_append _ _

/-- What a call of the user service relies on. -/
def userRely (π : Policy (schema P)) : Rely π where
  inv s := TablesInv s.db
  grow s s' := Grows π s.db s'.db ∧
    Relation.ReflTransGen (fun a b => π.tick a b = true) s.clock s'.clock
  refl s := ⟨.refl s.db, .refl⟩
  trans h h' := ⟨h.1.trans h'.1, h.2.trans h'.2⟩
  tick hi ht := ⟨hi, .refl _, .single ht⟩
  edit hi he := ⟨hi.edit _, .edit he, .refl⟩

/-! ## Successful calls -/

section
variable (hP : P.Lawful)
include hP

theorem tokenRow_stores (userId sessionId : String) (before : Option P.Hash) (iv : String)
    (now : Nat) : Stores (tokenRow P userId sessionId before iv now) userId now :=
  ⟨rfl, hP.decrypt_encrypt _ _, rfl⟩

/-- A verified token whose hash is stored carries the claims of the row. -/
theorem Stores.payload {r : SessionRefreshEntity P} {payload : JwtPayload} (h : Stores r userId now)
    (hv : P.verify token clock = .ok payload) (hh : r.refreshHash = P.sha256Hex token) :
    payload.sessionId = some r.sessionId ∧ payload.userId = some userId := by
  obtain rfl := hP.sha256_injective (h.hash.symm.trans hh)
  rw [refreshTokenAt, hP.verify_sign] at hv
  split at hv <;> cases hv
  exact ⟨rfl, rfl⟩

end

/-- A successful exchange of the token with hash `oldHash`: the validation that the trace `l`
shows, and the row whose token the reply carries. -/
structure Replied (π : Policy (schema P)) (oldHash : P.Hash) (ip : Option String)
    (l : List (Event (schema P))) (reply : UserRefreshResultDto P) (session : SessionEntity)
    (submitted row : SessionRefreshEntity P) : Prop where
  validated : ∃ e₁ ∈ l, ∃ e₂ ∈ l, ∃ t sid,
    Validated π t oldHash ip sid e₁ e₂ submitted session
  submitted_sid : submitted.sessionId = session.sessionId
  row_sid : row.sessionId = session.sessionId
  row_parent : row.beforeRefreshHash = some oldHash
  stores : ∃ now, Stores row session.userId now ∧
    reply.refreshToken = refreshTokenAt P session.userId session.sessionId now
  reply_eq : ∃ now, reply = replyAt session now reply.refreshToken row.endAt

theorem Replied.mono {l l' : List (Event (schema P))}
    (h : Replied π oldHash ip l reply session submitted row) (hl : l ⊆ l') :
    Replied π oldHash ip l' reply session submitted row :=
  let ⟨e₁, h₁, e₂, h₂, hv⟩ := h.validated
  { h with validated := ⟨e₁, hl h₁, e₂, hl h₂, hv⟩ }

/-- The claims of the exchanged token are those of the session. -/
theorem Replied.payload (hP : P.Lawful) {l : List (Event (schema P))} {token : P.Token}
    (h : Replied π (P.sha256Hex token) ip l reply session submitted row) {d : Tables P}
    (hinv : TablesInv d) (hses : d.holds session) (hsub : submitted ∈ d.tSessionRefresh)
    {payload : JwtPayload} (hv : P.verify token clock = .ok payload) :
    payload.sessionId = some session.sessionId ∧ payload.userId = some session.userId := by
  obtain ⟨now, hst⟩ := hinv.stores hsub hses h.submitted_sid
  obtain ⟨_, _, _, _, _, _, hval⟩ := h.validated
  rw [← h.submitted_sid]
  exact hst.payload hP hv hval.submitted_ok.1

variable {A : Rely π} (hA : A.Implies (userRely π))
include hA

/-- What a transaction without row changes reads is in the tables now. -/
theorem seen_grows {t : Tx (schema P)} (ht : t.Past A s) (hi : A.inv s) (hw : t.writes = []) :
    Grows π (seen π s t) s.db := by
  obtain ⟨s₀, hi₀, hg, he⟩ := ht.view hi hw
  rw [seen, he]
  exact (hA.grow hg).1

/-- What two successful queries of `validateAndLoadSession` say about the tables at the end. -/
theorem Validated.now {t : Tx (schema P)} {s' : Store (schema P)}
    (hv : Validated π t oldHash ip sid e₁ e₂ submitted session)
    (ht : t.Past A s) (hw : t.writes = []) (hg₁ : A.grow s e₁.store) (hi₁ : A.inv e₁.store)
    (hg₂ : A.grow e₁.store e₂.store) (hi₂ : A.inv e₂.store) (hg₃ : A.grow e₂.store s') :
    submitted ∈ s'.db.tSessionRefresh ∧ s'.db.holds session := by
  have htx := hv.tx₁
  have htx' := hv.tx₂
  have h₁ := seen_grows hA (t := e₁.tx) (htx ▸ ht.grow hg₁) hi₁ (htx ▸ hw)
  have h₂ := seen_grows hA (t := e₂.tx) (htx' ▸ ((ht.grow hg₁).opened hi₁).grow hg₂) hi₂
    (htx' ▸ hw)
  refine ⟨?_, (h₂.trans (hA.grow hg₃).1).session hv.session_mem⟩
  exact (h₁.trans (hA.grow (A.trans hg₂ hg₃)).1).row hv.submitted_mem

theorem replyRotated_ok (hP : P.Lawful) {t : Tx (schema P)} {s s' : Store (schema P)}
    (h : Runs A (UserService.replyRotated oldHash ip rotated) s t l (.ended (.ok reply)) s' t')
    (ht : t.Past A s) (hw : t.writes = []) (hi : A.inv s')
    (hr : rotated ∈ s.db.tSessionRefresh) (hb : rotated.beforeRefreshHash = some oldHash) :
    t'.writes = [] ∧ ∃ session, s'.db.holds session ∧ ∃ submitted ∈ s'.db.tSessionRefresh,
      Replied π oldHash ip l reply session submitted rotated := by
  rcases replyRotated_inv hP h with
    ⟨e₁, e₂, s₁, submitted, session, rfl, hg₁, hi₁, hg₂, hi₂, hg₃, rfl, hv, he⟩ |
    ⟨_, _, he, _⟩ | ⟨_, _, he⟩
  rotate_left
  · cases he
  · cases he
  have hinv : TablesInv s'.db := hA.inv hi
  have hr' : rotated ∈ s'.db.tSessionRefresh := (hA.grow h.grows).1.row hr
  have hsid : session.sessionId = rotated.sessionId := hv.session_ok.1
  obtain ⟨hsub, hses⟩ := hv.now hA ht hw hg₁ hi₁ hg₂ hi₂ hg₃
  obtain ⟨now, hst⟩ := hinv.stores hr' hses hsid.symm
  obtain ⟨p, hp, hpk, hps⟩ := hinv.parent hr' hb
  obtain rfl := hinv.row_unique hsub hp (hv.submitted_ok.1.trans hpk.symm)
  rw [hst.cipher] at he
  cases he
  refine ⟨hw, session, hses, submitted, hsub, ?_⟩
  exact {
    validated := ⟨e₁, by simp, e₂, by simp, t, rotated.sessionId, hv⟩
    submitted_sid := hps.trans hsid.symm
    row_sid := hsid.symm
    row_parent := hb
    stores := ⟨now, hst, by rw [hsid]; rfl⟩
    reply_eq := ⟨_, rfl⟩ }

/-- What a successful exchange writes: nothing, when the answered row is there, or that row, whose
token was signed at a time `b` when the presented token had its row. -/
def Settled (A : Rely π) (submitted row : SessionRefreshEntity P) (s : Store (schema P))
    (writes : List (UserWrite P)) : Prop :=
  (writes = [] ∧ row ∈ s.db.tSessionRefresh) ∨
    writes = [.insertSessionRefresh row] ∧ ∃ a b : Store (schema P), A.inv a ∧
      submitted ∈ a.db.tSessionRefresh ∧ A.grow a b ∧ A.grow b s ∧
      row.endAt = (b.clock / 1000 + refreshExpiresIn) * 1000

theorem firstExchange_ok (hP : P.Lawful) (l₀ : List (Event (schema P))) {t : Tx (schema P)}
    {s s' : Store (schema P)}
    (h : Runs A (UserService.firstExchange oldHash ip session) s t l (.ended (.ok reply)) s' t')
    (ht : t.Past A s) (hw : t.writes = []) (hi₀ : A.inv s) (hi : A.inv s')
    (hses : s.db.holds session) (hsub : submitted ∈ s.db.tSessionRefresh)
    (hsid : submitted.sessionId = session.sessionId)
    (hv : ∃ e₁ ∈ l₀, ∃ e₂ ∈ l₀, ∃ t sid, Validated π t oldHash ip sid e₁ e₂ submitted session) :
    ∃ session, s'.db.holds session ∧ ∃ row, ∃ submitted ∈ s'.db.tSessionRefresh,
      Replied π oldHash ip (l₀ ++ l) reply session submitted row ∧
      Settled A submitted row s' t'.writes := by
  have hgrow : Grows π s.db s'.db := (hA.grow h.grows).1
  obtain ⟨a, b, iv, c, l', rfl, hga, hia, hgb, hib, hgc, hic, h⟩ := firstExchange_inv hP h
  generalize hr : (Except.ok reply : Except Exn _) = r at h
  cases h with
  | inserted hg₁ hi₁ hacc hg =>
    cases hr
    refine ⟨session, hgrow.holds hses, _, submitted, hgrow.row hsub, ?_, .inr ⟨by rw [hw]; rfl, s,
      b, hi₀, hsub, A.trans hga hgb, A.trans (A.trans hgc hg₁) hg, rfl⟩⟩
    obtain ⟨e₁, h₁, e₂, h₂, hv⟩ := hv
    exact {
      validated := ⟨e₁, List.mem_append_left _ h₁, e₂, List.mem_append_left _ h₂, hv⟩
      submitted_sid := hsid
      row_sid := rfl
      row_parent := rfl
      stores := ⟨b.clock, tokenRow_stores hP .., rfl⟩
      reply_eq := ⟨a.clock, rfl⟩ }
  | refused | unseen => cases hr
  | rotated hg₁ hi₁ hf hg₂ hi₂ hmem hb h =>
    subst hr
    have ht₂ := ((((ht.grow hga).grow hgb).grow hgc).grow hg₁).grow hg₂
    have hmem := (seen_grows hA ht₂ hi₂ hw).row hmem
    obtain ⟨hw', session', hses', submitted', hsub', hrep⟩ :=
      replyRotated_ok hA hP h (ht₂.opened hi₂) hw hi hmem hb
    refine ⟨session', hses', _, submitted', hsub', hrep.mono ?_,
      .inl ⟨hw', (hA.grow h.grows).1.row hmem⟩⟩
    intro e he
    simp [he]
  | faulted hf =>
    subst hr
    obtain ⟨_, _, hf⟩ := hf
    cases hf

/-- What a successful `refresh` has checked, answered and written. -/
theorem refresh_ok (hP : P.Lawful) {s s' : Store (schema P)}
    (h : Runs A (UserService.refresh dto ip) s .empty l (.ended (.ok reply)) s' t')
    (hi : A.inv s') :
    ∃ session, s'.db.holds session ∧ ∃ row, ∃ submitted ∈ s'.db.tSessionRefresh,
      Replied π (P.sha256Hex dto.refreshToken) ip l reply session submitted row ∧
      Settled A submitted row s' t'.writes ∧
      ∃ s₁ payload, ⟨.now, s₁.clock, s₁, .empty⟩ ∈ l ∧
        P.verify dto.refreshToken s₁.clock = .ok payload ∧ RefreshPayload payload ∧
        payload.sessionId = some session.sessionId ∧ payload.userId = some session.userId := by
  have hinv : TablesInv s'.db := hA.inv hi
  have h := refresh_inv h
  have ht : Tx.empty.Past A s := .empty A s
  generalize hr : (Except.ok reply : Except Exn _) = r at h
  cases h with
  | unverified | rejected => cases hr
  | faulted hf =>
    subst hr
    obtain ⟨_, _, hf⟩ := hf
    cases hf
  | existing hg₁ hi₁ hv hp hg₂ hi₂ hmem hb h =>
    subst hr
    have ht₂ := (ht.grow hg₁).grow hg₂
    have hmem := (seen_grows hA ht₂ hi₂ rfl).row hmem
    obtain ⟨hw', session, hses, submitted, hsub, hrep⟩ :=
      replyRotated_ok hA hP h (ht₂.opened hi₂) rfl hi hmem hb
    refine ⟨session, hses, _, submitted, hsub, hrep.mono ?_,
      .inl ⟨hw', (hA.grow h.grows).1.row hmem⟩, _, _, List.mem_cons_self, hv, hp,
      hrep.payload hP hinv hses hsub hv⟩
    intro e he
    simp [he]
  | exchanged hg₁ hi₁ hv hp hg₂ hi₂ hnone hg₃ hi₃ hg₄ hi₄ hval h =>
    subst hr
    have ht₂ := ((ht.grow hg₁).grow hg₂).opened hi₂
    obtain ⟨hsub, hses⟩ := hval.now hA ht₂ rfl hg₃ hi₃ hg₄ hi₄ (A.refl _)
    obtain ⟨_, _, _, now, hst⟩ := (hA.inv hi₄).stored _ hsub
    have hsid := (hst.payload hP hv hval.submitted_ok.1).1
    have hsid : _ = _ := hsid ▸ hval.session_ok.1
    obtain ⟨session, hses, row, submitted, hsub, hrep, hset⟩ := firstExchange_ok hA hP [_, _] h
      ((ht₂.grow hg₃).grow hg₄) rfl hi₄ hi hses hsub hsid.symm
      ⟨_, List.mem_cons_self, _, List.mem_cons_of_mem _ List.mem_cons_self, _, _, hval⟩
    refine ⟨session, hses, row, submitted, hsub, hrep.mono ?_, hset, _, _, List.mem_cons_self, hv,
      hp, hrep.payload hP hinv hses hsub hv⟩
    intro e he
    simpa using .inr (.inr (by simpa using he))

/-! ## Commits -/

/-- The commit of a call keeps the invariant, and the tables grow. -/
theorem serveUser_commit (hP : P.Lawful) {s₀ s : Store (schema P)} {t : Tx (schema P)}
    (h : Runs A (serveUser req) s₀ .empty l (.ended (.ok a)) s t) (hi : A.inv s)
    (hf : t.Fresh s.db) : TablesInv (t.onto s.db) ∧ Grows π s.db (t.onto s.db) := by
  have hinv : TablesInv s.db := hA.inv hi
  have hfree : ∀ k ∈ t.keys, s.db.taken k = false := hf.2
  have hnil {α : Type} (l : List α) : l = l ++ [] := (List.append_nil l).symm
  cases req with
  | adminCreate dto =>
    obtain ⟨_ | _, he, h₁⟩ := h.map_inv <;> cases he
    obtain ⟨_, _, _, hw⟩ := adminCreate_ok h₁
    simp only [Tx.onto, hw]
    exact ⟨hinv.congr rfl rfl, .append (hnil _) (hnil _)⟩
  | signIn dto ip =>
    obtain ⟨_ | _, he, h₁⟩ := h.map_inv <;> cases he
    obtain ⟨_, b, user, patch, sid, iv, _, _, _, _, _, _, hw, _⟩ := signIn_ok hP h₁
    have hd : (t.onto s.db).tSession =
        s.db.tSession ++ [sessionRow user.userId sid (patch.map UserPatch.stored) ip] := by
      cases patch <;> simp [Tx.onto, hw, Tables.apply]
    have hd' : (t.onto s.db).tSessionRefresh =
        s.db.tSessionRefresh ++ [tokenRow P user.userId sid none iv b.clock] := by
      cases patch <;> simp [Tx.onto, hw, Tables.apply]
    refine ⟨hinv.openSession (hfree _ ?_) (hfree _ ?_) rfl (tokenRow_stores hP ..) rfl hd hd',
      .append hd hd'⟩ <;> simp [Tx.keys, hw, UserWrite.keys, sessionRow]
  | refresh dto ip =>
    obtain ⟨_ | _, he, h₁⟩ := h.map_inv <;> cases he
    obtain ⟨session, hses, row, submitted, hsub, hrep, ⟨hw, _⟩ | hw, _⟩ :=
      refresh_ok hA hP h₁ hi
    · rw [Tx.onto_nil hw]
      exact ⟨hinv, .refl _⟩
    have hd : (t.onto s.db).tSession = s.db.tSession := by simp [Tx.onto, hw, Tables.apply]
    have hd' : (t.onto s.db).tSessionRefresh = s.db.tSessionRefresh ++ [row] := by
      simp [Tx.onto, hw, Tables.apply]
    obtain ⟨session', hses', hid, hu⟩ := hses
    obtain ⟨now, hst, _⟩ := hrep.stores
    obtain ⟨_, _, _, _, _, _, hval⟩ := hrep.validated
    have hb : row.beforeRefreshHash = some submitted.refreshHash := by
      rw [hval.submitted_ok.1]
      exact hrep.row_parent
    refine ⟨hinv.rotate hsub (hrep.row_sid.trans hrep.submitted_sid.symm) hb (hfree _ ?_)
      (hfree _ ?_) ⟨session', hses', hid.trans hrep.row_sid.symm, now, hu ▸ hst⟩ hd hd',
      .append (hd.trans (hnil _)) hd'⟩ <;> simp [Tx.keys, hw, UserWrite.keys, hb]

omit hA in
/-- **Every commit of the service keeps what its calls rely on.** -/
theorem userRely_keeps (hP : P.Lawful) : (userRely π).Keeps (userService P) := by
  intro r a s₀ s l t _ hi h hf
  obtain ⟨hinv, hg⟩ := serveUser_commit .rfl hP (a := a) h hi hf
  exact ⟨hinv, hg, .refl⟩

end NestHarness
