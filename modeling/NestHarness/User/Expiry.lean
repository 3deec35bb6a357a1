import NestHarness.User.Rotation

/-!
# Expiry along a chain

When clocks do not go back, the tokens of a session are issued in the order of its chain, whatever
the calls that issue them are interleaved with. The reply to a refresh then carries a token that
expires no earlier than the presented one, which is the only one whose expiry is checked.
-/

namespace NestHarness

open Txn

variable {P : Crypto} {π : Policy (schema P)} {w : World (userService P)}

/-- Tokens were issued in the past and in the order of their chain. -/
structure Chronological (s : Store (schema P)) : Prop where
  past : ∀ r ∈ s.db.tSessionRefresh, r.endAt ≤ (s.clock / 1000 + refreshExpiresIn) * 1000
  sorted : ∀ sid, (s.db.chain sid).Pairwise (·.endAt ≤ ·.endAt)

theorem Chronological.initial {s : Store (schema P)} (hr : s.db.tSessionRefresh = []) :
    Chronological s where
  past := by simp [hr]
  sorted sid := by simp [Tables.chain, hr]

theorem expiry_mono {a b : Nat} (h : a ≤ b) :
    (a / 1000 + refreshExpiresIn) * 1000 ≤ (b / 1000 + refreshExpiresIn) * 1000 := by
  have := Nat.div_le_div_right (c := 1000) h
  omega

theorem clock_le (hmono : ∀ a b, π.tick a b = true → a ≤ b) {a b : Nat}
    (h : Relation.ReflTransGen (fun a b => π.tick a b = true) a b) : a ≤ b := by
  induction h with
  | refl => exact Nat.le_refl a
  | tail _ hab ih => exact Nat.le_trans ih (hmono _ _ hab)

theorem Chronological.tick {s : Store (schema P)} (h : Chronological s) {t : Nat}
    (ht : s.clock ≤ t) : Chronological { s with clock := t } where
  past r hr := Nat.le_trans (h.past r hr) (expiry_mono ht)
  sorted := h.sorted

theorem userRely_refl (s : Store (schema P)) : (userRely π).grow s s := (userRely π).refl s

theorem userRely_trans {a b c : Store (schema P)} (h : (userRely π).grow a b)
    (h' : (userRely π).grow b c) : (userRely π).grow a c := (userRely π).trans h h'

/-- What a call relies on when clocks do not go back. -/
def chronologicalRely (hmono : ∀ a b, π.tick a b = true → a ≤ b) : Rely π where
  inv s := TablesInv s.db ∧ Chronological s
  grow := (userRely π).grow
  refl := userRely_refl
  trans := userRely_trans
  tick hi ht :=
    have h := (userRely π).tick hi.1 ht
    ⟨⟨h.1, hi.2.tick (hmono _ _ ht)⟩, h.2⟩
  edit hi he :=
    have h := (userRely π).edit hi.1 he
    ⟨⟨h.1, ⟨hi.2.past, hi.2.sorted⟩⟩, h.2⟩

theorem chronologicalRely_implies (hmono : ∀ a b, π.tick a b = true → a ≤ b) :
    (chronologicalRely hmono).Implies (userRely π) := ⟨And.left, id⟩

/-- In a chain sorted by expiry the last row expires last. -/
theorem le_of_getLast? {l : List (SessionRefreshEntity P)} (h : l.Pairwise (·.endAt ≤ ·.endAt))
    (hp : l.getLast? = some p) (hr : r ∈ l) : r.endAt ≤ p.endAt := by
  obtain ⟨l', rfl⟩ := List.getLast?_eq_some_iff.mp hp
  rcases List.mem_append.mp hr with hr | hr
  · exact (List.pairwise_append.mp h).2.2 r hr p (List.mem_singleton_self p)
  · exact List.mem_singleton.mp hr ▸ Nat.le_refl _

/-- A row that is appended to its chain keeps the order, when it expires last in the chain. -/
theorem Chronological.append {s s' : Store (schema P)} (h : Chronological s)
    {r : SessionRefreshEntity P} (hd : s'.db.tSessionRefresh = s.db.tSessionRefresh ++ [r])
    (hc : s'.clock = s.clock) (hr : r.endAt ≤ (s.clock / 1000 + refreshExpiresIn) * 1000)
    (hlast : ∀ x ∈ s.db.chain r.sessionId, x.endAt ≤ r.endAt) : Chronological s' where
  past x hx := by
    rw [hc]
    rw [hd] at hx
    rcases List.mem_append.mp hx with hx | hx
    · exact h.past x hx
    · exact List.mem_singleton.mp hx ▸ hr
  sorted sid := by
    rw [Tables.chain_append hd]
    split
    · rename_i he
      refine List.pairwise_append.mpr ⟨h.sorted sid, List.pairwise_singleton .., ?_⟩
      intro x hx y hy
      exact List.mem_singleton.mp hy ▸ hlast x (he ▸ hx)
    · exact h.sorted sid

/-! ## What a commit keeps -/

section

variable {hmono : ∀ a b, π.tick a b = true → a ≤ b} {A : Rely π} {s₀ s : Store (schema P)}
  {l : List (Event (schema P))} {t : Tx (schema P)}
  (hA : A.Implies (chronologicalRely hmono)) (hi : A.inv s)
include hA

theorem grow_clock_le {a b : Store (schema P)} (h : A.grow a b) : a.clock ≤ b.clock :=
  clock_le hmono (hA.grow h).2

theorem implies_userRely : A.Implies (userRely π) :=
  ⟨fun h => (hA.inv h).1, fun h => hA.grow h⟩

include hi

theorem Chronological.adminCreate {dto : AdminUserCreateDto}
    (h : Runs A (UserService.adminCreate dto) s₀ .empty l (.ended (.ok ())) s t) :
    Chronological { s with db := t.onto s.db } := by
  obtain ⟨userId, salt, _, hw⟩ := adminCreate_ok h
  have hover : t.onto s.db =
      { s.db with tUser := s.db.tUser ++ [(userRow P dto userId salt).stored] } := by
    simp [Tx.onto, hw, Tables.apply]
  rw [hover]
  exact ⟨(hA.inv hi).2.past, (hA.inv hi).2.sorted⟩

/-- The first row of a session has no row before it. -/
theorem Chronological.signIn (hP : P.Lawful) {dto : UserSignInDto}
    {result : UserSignInResultDto P} (hfree : ∀ k ∈ t.keys, s.db.taken k = false)
    (h : Runs A (UserService.signIn dto ip) s₀ .empty l (.ended (.ok result)) s t) :
    Chronological { s with db := t.onto s.db } := by
  obtain ⟨c, b, user, patch, sid, iv, _, _, _, _, _, hgb, hw, _⟩ := signIn_ok hP h
  have hempty : s.db.chain sid = [] := (hA.inv hi).1.chain_eq_nil
    (hfree _ (by simp [Tx.keys, hw, UserWrite.keys, sessionRow]))
  refine (hA.inv hi).2.append (r := tokenRow P user.userId sid none iv b.clock) ?_ rfl
    (expiry_mono (grow_clock_le hA hgb)) ?_
  · cases patch <;> simp [Tx.onto, hw, Tables.apply]
  · intro x hx
    have hx : x ∈ s.db.chain sid := hx
    rw [hempty] at hx
    cases hx

/-- A new row is signed after its parent, which was the last of the chain. -/
theorem Chronological.refresh (hP : P.Lawful) {dto : UserRefreshDto P}
    {result : UserRefreshResultDto P} (hfree : ∀ k ∈ t.keys, s.db.taken k = false)
    (h : Runs A (UserService.refresh dto ip) s₀ .empty l (.ended (.ok result)) s t) :
    Chronological { s with db := t.onto s.db } := by
  obtain ⟨session, _, row, submitted, hsub, hrep, hset, _⟩ :=
    refresh_ok (implies_userRely hA) hP h hi
  obtain ⟨hinv, hchron⟩ := hA.inv hi
  rcases hset with ⟨hw, _⟩ | ⟨hw, c, b, hic, hsub', hcb, hbs, hend⟩
  · rw [Tx.onto_nil hw]
    exact hchron
  have hsid : row.sessionId = submitted.sessionId := hrep.row_sid.trans hrep.submitted_sid.symm
  obtain ⟨_, _, _, _, _, _, hval⟩ := hrep.validated
  have hb : row.beforeRefreshHash = some submitted.refreshHash := by
    rw [hval.submitted_ok.1]
    exact hrep.row_parent
  have hlast := hinv.chain_last hsub (hfree _ (by simp [Tx.keys, hw, UserWrite.keys, hb]))
  refine hchron.append (r := row) ?_ rfl
    (Nat.le_trans (Nat.le_of_eq hend) (expiry_mono (grow_clock_le hA hbs))) ?_
  · simp [Tx.onto, hw, Tables.apply]
  · intro x hx
    rw [hsid] at hx
    calc x.endAt ≤ submitted.endAt := le_of_getLast? (hchron.sorted _) hlast hx
      _ ≤ (c.clock / 1000 + refreshExpiresIn) * 1000 := (hA.inv hic).2.past _ hsub'
      _ ≤ (b.clock / 1000 + refreshExpiresIn) * 1000 := expiry_mono (grow_clock_le hA hcb)
      _ = row.endAt := hend.symm

/-- A commit of any call keeps the order. -/
theorem Chronological.commit (hP : P.Lawful) {req : UserRequest P} {a : UserReply P}
    (hfree : ∀ k ∈ t.keys, s.db.taken k = false)
    (h : Runs A (serveUser req) s₀ .empty l (.ended (.ok a)) s t) :
    Chronological { s with db := t.onto s.db } := by
  cases req with
  | adminCreate dto =>
    obtain ⟨_ | _, he, h₁⟩ := h.map_inv <;> cases he
    exact .adminCreate hA hi h₁
  | signIn dto ip =>
    obtain ⟨_ | _, he, h₁⟩ := h.map_inv <;> cases he
    exact .signIn hA hi hP hfree h₁
  | refresh dto ip =>
    obtain ⟨_ | _, he, h₁⟩ := h.map_inv <;> cases he
    exact .refresh hA hi hP hfree h₁

end

theorem chronologicalRely_keeps (hP : P.Lawful) (hmono : ∀ a b, π.tick a b = true → a ≤ b) :
    (chronologicalRely hmono).Keeps (userService P) := by
  intro req a s₀ s l t _ hi h hf
  have h' : Runs (chronologicalRely hmono) (serveUser req) s₀ .empty l (.ended (.ok a)) s t := h
  obtain ⟨hinv, hg⟩ := serveUser_commit (chronologicalRely_implies hmono) hP h' hi hf
  exact ⟨⟨hinv, .commit .rfl hi hP hf.2 h'⟩, hg, .refl⟩

theorem Reachable.chronological (hP : P.Lawful) (hmono : ∀ a b, π.tick a b = true → a ≤ b)
    (h : Reachable π w) : TablesInv w.db ∧ Chronological ⟨w.db, w.clock⟩ := by
  obtain ⟨s, hs, hr, h⟩ := h
  have hinit : (World.init s : World (userService P)).Sound (chronologicalRely hmono) :=
    .init ⟨TablesInv.initial hs hr, .initial hr⟩
  exact (hinit.reaches (chronologicalRely_keeps hP hmono) h).1.inv

/-! ## Replies -/

/-- A child row expires no earlier than its parent. -/
theorem TablesInv.parent_le {d : Tables P} (h : TablesInv d)
    (hsorted : ∀ sid, (d.chain sid).Pairwise (·.endAt ≤ ·.endAt)) {p r : SessionRefreshEntity P}
    (hp : p ∈ d.tSessionRefresh) (hr : r ∈ d.tSessionRefresh)
    (hb : r.beforeRefreshHash = some p.refreshHash) : p.endAt ≤ r.endAt := by
  obtain ⟨p', hp', hk, hsid⟩ := h.parent hr hb
  obtain rfl := h.row_unique hp' hp hk
  obtain ⟨i, hi⟩ := List.mem_iff_getElem?.mp (Tables.mem_chain.mpr ⟨hp, rfl⟩)
  have hsucc := (h.row_path hp).succ_eq (h.chain_nodup _) hi
    (Tables.mem_chain.mpr ⟨hr, hsid.symm⟩) hb
  obtain ⟨hlt, hpi⟩ := List.getElem?_eq_some_iff.mp hi
  obtain ⟨hlt', hri⟩ := List.getElem?_eq_some_iff.mp hsucc
  have hle := List.pairwise_iff_getElem.mp (hsorted _) i (i + 1) hlt hlt' (Nat.lt_succ_self i)
  rwa [hpi, hri] at hle

/-- The `exp` claim of a token, in seconds. -/
def Crypto.expClaim (P : Crypto) (token : P.Token) : Option Nat :=
  (P.decodeJwt token).bind (·.exp)

/-- The reply to a refresh names the expiry of its refresh token, which lies after the time `NOW()`
of the query that found the row of the presented token. -/
def LiveReply (π : Policy (schema P)) (c : Call (userService P)) (token : P.Token)
    (reply : UserRefreshResultDto P) : Prop :=
  ∃ exp, P.expClaim reply.refreshToken = some exp ∧ reply.refreshExpiresAt = exp * 1000 ∧
    ∃ e ∈ c.trace, ∃ submitted ∈ (eventSeen π e).tSessionRefresh,
      Submitted (P.sha256Hex token) e.store.clock submitted ∧ e.store.clock < exp * 1000

/-- **Replies never carry an expired refresh token.** In every reachable state a row expires no
earlier than its parent, and every successful refresh has returned a token that expires after the
moment at which the presented one was checked. -/
theorem refreshed_live (hP : P.Lawful) (hmono : ∀ a b, π.tick a b = true → a ≤ b)
    (h : Reachable π w) :
    (∀ p ∈ w.db.tSessionRefresh, ∀ r ∈ w.db.tSessionRefresh,
      r.beforeRefreshHash = some p.refreshHash → p.endAt ≤ r.endAt) ∧
    ∀ c ∈ w.calls, ∀ token ip reply, Answers c token ip reply → LiveReply π c token reply := by
  obtain ⟨hinv, hchron⟩ := h.chronological hP hmono
  have hparent : ∀ p ∈ w.db.tSessionRefresh, ∀ r ∈ w.db.tSessionRefresh,
      r.beforeRefreshHash = some p.refreshHash → p.endAt ≤ r.endAt :=
    fun p hp r hr hb => hinv.parent_le hchron.sorted hp hr hb
  refine ⟨hparent, ?_⟩
  intro c hc token ip reply ha
  obtain ⟨session, _, row, hrow, submitted, hsub, hrep, _⟩ :=
    answers_of_sound hP (h.sound hP) hc ha
  obtain ⟨e, he, _, _, _, _, hval⟩ := hrep.validated
  obtain ⟨now, hst, ht⟩ := hrep.stores
  obtain ⟨_, heq⟩ := hrep.reply_eq
  have hexpires : reply.refreshExpiresAt = row.endAt := by
    rw [heq]
    rfl
  have hclaim : P.expClaim reply.refreshToken = some (now / 1000 + refreshExpiresIn) := by
    rw [Crypto.expClaim, ht, refreshTokenAt, hP.decode_sign]
    rfl
  have hle : submitted.endAt ≤ row.endAt := by
    refine hparent submitted hsub row hrow ?_
    rw [hrep.row_parent, hval.submitted_ok.1]
  have hnow : e.store.clock / 1000 * 1000 < submitted.endAt := hval.submitted_ok.2
  refine ⟨_, hclaim, hexpires.trans hst.endAt, e, he, submitted, hval.submitted_mem,
    hval.submitted_ok, ?_⟩
  rw [hst.endAt] at hle
  omega

theorem refreshed_live_sample : ∃ w, Reachable (calm symbolic .repeatableRead) w ∧
    w.calls.map returnedToken =
      [some (sampleToken 5000), some (sampleToken 7000), some (sampleToken 7000)] ∧
    ∀ c ∈ w.calls, ∀ token ip reply, Answers c token ip reply →
      LiveReply (calm symbolic .repeatableRead) c token reply :=
  let ⟨w, hw, hc⟩ := sample_reachable
  ⟨w, hw, hc, (refreshed_live symbolic_lawful (fun _ _ => of_decide_eq_true) hw).2⟩

end NestHarness
