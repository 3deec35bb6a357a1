import NestHarness.User.Invariant

/-!
# Refreshing a usable token

A token is usable in a state when its row is stored and not expired and its session is live for the
caller's ip. `refresh_usable` says how a `refresh` ends when its token stays usable throughout the
call and no operation fails for reasons of its own: which states the call met at its lookup and at
its insert decides the outcome.
-/

namespace NestHarness

open Txn

variable {P : Crypto} {π : Policy (schema P)}

/-- The token can be refreshed in the tables `d` at the time `now`. -/
structure Usable (d : Tables P) (now : Nat) (token : P.Token) (ip : Option String) : Prop where
  verified : ∃ payload, P.verify token now = .ok payload ∧ RefreshPayload payload
  stored : ∃ r ∈ d.tSessionRefresh, Submitted (P.sha256Hex token) now r ∧
    ∃ s ∈ d.tSession, LiveSession ip r.sessionId s

instance (h : P.Hash) (now : Nat) (r : SessionRefreshEntity P) : Decidable (Submitted h now r) :=
  inferInstanceAs (Decidable (_ ∧ _))

instance (ip : Option String) (sid : String) (r : SessionEntity) :
    Decidable (LiveSession ip sid r) :=
  inferInstanceAs (Decidable (_ ∧ _ ∧ (_ → _)))

instance (p : JwtPayload) : Decidable (RefreshPayload p) :=
  decidable_of_iff (p.type = some "refresh" ∧ truthy p.userId = true ∧ truthy p.sessionId = true)
    ⟨fun ⟨h₁, h₂, h₃⟩ => ⟨h₁, h₂, h₃⟩, fun ⟨h₁, h₂, h₃⟩ => ⟨h₁, h₂, h₃⟩⟩

instance (d : Tables P) (now : Nat) (token : P.Token) (ip : Option String) :
    Decidable (Usable d now token ip) :=
  decidable_of_iff
    ((∃ p ∈ (P.verify token now).toOption, RefreshPayload p) ∧
      ∃ r ∈ d.tSessionRefresh, Submitted (P.sha256Hex token) now r ∧
        ∃ s ∈ d.tSession, LiveSession ip r.sessionId s)
    ⟨fun ⟨⟨p, hp, h⟩, hr⟩ => ⟨⟨p, by
        cases hv : P.verify token now <;> simp_all [Except.toOption], h⟩, hr⟩,
      fun ⟨⟨p, hp, h⟩, hr⟩ => ⟨⟨p, by simp [hp, Except.toOption], h⟩, hr⟩⟩

/-- Between two usable states the token is usable in the tables of the first at the later time. -/
theorem Usable.earlier {d d' : Tables P} (h : Usable d now token ip) (h' : Usable d' now' token ip)
    (hinv : TablesInv d') (hg : Grows π d d') : Usable d now' token ip := by
  obtain ⟨r, hr, hs, hses⟩ := h.stored
  obtain ⟨r', hr', hs', _⟩ := h'.stored
  obtain rfl := hinv.row_unique (hg.row hr) hr' (hs.1.trans hs'.1.symm)
  exact ⟨h'.verified, r, hr, hs', hses⟩

/-- A query does not reject a token that is usable in what it reads. -/
theorem Usable.not_rejected {e : Event (schema P)}
    (h : Usable (eventSeen π e) e.store.clock token ip)
    (hsid : ∀ r ∈ (eventSeen π e).tSessionRefresh, r.refreshHash = P.sha256Hex token →
      r.sessionId = sid) : ¬ Rejected π (P.sha256Hex token) ip sid e := by
  obtain ⟨r, hr, hs, s, hs', hl⟩ := h.stored
  rintro (hno | hno)
  · exact hno r hr hs
  · exact hno s hs' (hsid r hr hs.1 ▸ hl)

/-- What a transaction without row changes reads after its first read, which met the tables `d`. -/
theorem seen_opened (s : Store (schema P)) (d : Tables P) :
    seen π s (Tx.empty.opened d) = match π.isolation with
      | .readCommitted => s.db
      | .repeatableRead => d := by
  rw [seen, Tx.opened_opened, Tx.view_nil rfl]
  rfl

/-- What the first read of a transaction reads. -/
theorem seen_empty (s : Store (schema P)) : seen π s Tx.empty = s.db := by
  rw [seen, Tx.view_nil rfl]
  cases π.isolation <;> rfl

/-- A token of the session was issued in the second of `now`. -/
def Issued (d : Tables P) (sid : String) (now : Nat) : Prop :=
  ∃ r ∈ d.tSessionRefresh, r.sessionId = sid ∧ r.endAt = (now / 1000 + refreshExpiresIn) * 1000

/-- The token has been exchanged. -/
def Rotated (d : Tables P) (token : P.Token) : Prop :=
  ∃ r ∈ d.tSessionRefresh, r.beforeRefreshHash = some (P.sha256Hex token)

instance (d : Tables P) (token : P.Token) : Decidable (Rotated d token) :=
  inferInstanceAs (Decidable (∃ r ∈ d.tSessionRefresh, _))

theorem rotated_iff_taken {d : Tables P} :
    Rotated d token ↔ d.taken (.beforeRefreshHash (P.sha256Hex token)) = true := by
  simp [Rotated, Tables.taken]

/-- An insert that fails by the parent's key has met another child of the parent. -/
theorem Fails.child {s : Store (schema P)} {t : Tx (schema P)} {r : SessionRefreshEntity P}
    (h : Fails π s t (.insertSessionRefresh r) (.duplicate (.beforeRefreshHash k)))
    (ht : t.writes = []) (hb : r.beforeRefreshHash = some h₀) :
    s.db.taken (.beforeRefreshHash h₀) = true := by
  cases h with
  | duplicate hk htk =>
    have hk : k = h₀ := by simpa [UserWrite.keys, hb] using hk
    rw [Tx.onto_nil ht] at htk
    exact hk ▸ htk

/-- The session of a new row is in the tables, so that its foreign key holds. -/
theorem Tables.holds.refuse_insert {d : Tables P} {s : SessionEntity} (h : d.holds s)
    {r : SessionRefreshEntity P} (hr : r.sessionId = s.sessionId) :
    d.refuse (.insertSessionRefresh r) = none := by
  obtain ⟨s', hs', hid, _⟩ := h
  rw [refuse, if_pos]
  exact List.any_eq_true.mpr ⟨s', hs', by simpa [hr] using hid⟩

/-- The answered token is the one issued in exchange for `token`. -/
def Answered (d : Tables P) (token : P.Token) (reply : UserRefreshResultDto P) : Prop :=
  ∃ r ∈ d.tSessionRefresh, r.beforeRefreshHash = some (P.sha256Hex token) ∧
    r.refreshHash = P.sha256Hex reply.refreshToken

/-- Tokens of a session are equal when they are issued in the same second. -/
theorem refreshTokenAt_congr (userId sid : String) {a b : Nat} (h : a / 1000 = b / 1000) :
    refreshTokenAt P userId sid a = refreshTokenAt P userId sid b := by
  rw [refreshTokenAt, refreshTokenAt, Crypto.sign, Crypto.sign, h]

/-- The hash of a new token is taken exactly in a second in which a token was issued. -/
theorem TablesInv.taken_iff_issued (hP : P.Lawful) {d : Tables P} (h : TablesInv d)
    {session : SessionEntity} (hses : d.holds session) (now : Nat) :
    d.taken (.refreshHash (P.sha256Hex (refreshTokenAt P session.userId session.sessionId now))) =
      true ↔ Issued d session.sessionId now := by
  rw [← Bool.not_eq_false, taken_refreshHash]
  push Not
  constructor
  · rintro ⟨r, hr, he⟩
    obtain ⟨_, _, _, now', hst⟩ := h.stored r hr
    obtain ⟨-, hs, ht⟩ := hP.sign_refresh_inj (hP.sha256_injective (hst.hash.symm.trans he))
    exact ⟨r, hr, hs, by rw [hst.endAt, ht]⟩
  · rintro ⟨r, hr, hs, he⟩
    obtain ⟨now', hst⟩ := h.stores hr hses hs
    refine ⟨r, hr, ?_⟩
    rw [hst.hash, hs]
    have := hst.endAt
    exact congrArg _ (refreshTokenAt_congr _ _ (by omega))

variable {A : Rely π} (hA : A.Implies (userRely π))
include hA

theorem Usable.seen {s s' : Store (schema P)} (h : Usable s.db s.clock token ip)
    (h' : Usable s'.db s'.clock token ip) (hi : A.inv s') (hg : A.grow s s') :
    Usable (seen π s' (Tx.empty.opened s.db)) s'.clock token ip := by
  rw [seen_opened]
  cases π.isolation with
  | readCommitted => exact h'
  | repeatableRead => exact h.earlier h' (hA.inv hi) (hA.grow hg).1

theorem replyRotated_usable (hP : P.Lawful) (hπ : π.faults = false) {s₀ s s' : Store (schema P)}
    {r : Except Exn (UserRefreshResultDto P)}
    (h : Runs A (UserService.replyRotated (P.sha256Hex token) ip rotated) s
      (Tx.empty.opened s₀.db) l (.ended r) s' t')
    (hi₀ : A.inv s₀) (hg₀ : A.grow s₀ s) (hu₀ : Usable s₀.db s₀.clock token ip)
    (hu : ∀ e ∈ l, Usable e.store.db e.store.clock token ip) (hi : A.inv s')
    (hr : rotated ∈ s.db.tSessionRefresh)
    (hb : rotated.beforeRefreshHash = some (P.sha256Hex token)) :
    changes l = [] ∧ ∃ reply, r = .ok reply ∧
      rotated.refreshHash = P.sha256Hex reply.refreshToken := by
  have hpast : (Tx.empty.opened s₀.db).Past A s := (Tx.Past.opened (.empty A s₀) hi₀).grow hg₀
  rcases replyRotated_inv hP h with
    ⟨e₁, e₂, s₁, submitted, session, rfl, hg₁, hi₁, hg₂, hi₂, hg₃, rfl, hv, he⟩ |
    ⟨e, he, _, hge, hie, htx, hrej⟩ | ⟨hf, _⟩
  · obtain ⟨_, hq₁⟩ := hv.op₁
    obtain ⟨_, hq₂⟩ := hv.op₂
    refine ⟨by rw [changes_query hq₁, changes_query hq₂]; rfl, ?_⟩
    have hr' : rotated ∈ s'.db.tSessionRefresh := (hA.grow h.grows).1.row hr
    obtain ⟨_, _, _, now, hst⟩ := (hA.inv hi).stored _ hr'
    rw [hst.cipher] at he
    exact ⟨_, he, hst.hash⟩
  · have htx : e.tx = Tx.empty.opened s₀.db := by
      rcases htx with htx | ⟨_, _, _, _, htx⟩ <;> exact htx
    have hinv : TablesInv e.store.db := hA.inv hie
    have huse := hu₀.seen hA (hu e he) hie (A.trans hg₀ hge)
    rw [← htx] at huse
    refine absurd hrej (huse.not_rejected fun r hr₁ hh => ?_)
    have hr₁ := (seen_grows hA (htx ▸ hpast.grow hge) hie (by rw [htx]; rfl)).row hr₁
    obtain ⟨p, hp, hk, hps⟩ := hinv.parent ((hA.grow hge).1.row hr) hb
    rw [hinv.row_unique hr₁ hp (hh.trans hk.symm), hps]
  · exact absurd (hπ.symm.trans hf) Bool.false_ne_true

/-- A first exchange that began with a lookup in the store `s`, signed the next token at `now`, and
whose insert was answered `x` in the store `s₁`. -/
structure FirstExchange (A : Rely π) (token : P.Token) (userId sid : String)
    (l : List (Event (schema P))) (s : Store (schema P)) (now : Nat)
    (x : Except (DbError (UserKey P)) Unit) (s₁ : Store (schema P)) : Prop where
  lookup : ∃ e ∈ l, e.store = s
  unrotated : ¬ Rotated s.db token
  clock : (clocks l)[2]? = some now
  inv : A.inv s ∧ A.inv s₁
  signed : ∃ b, A.grow s b ∧ b.clock = now ∧ A.grow b s₁
  change : ∃ iv, changes l =
    [⟨.insertSessionRefresh (tokenRow P userId sid (some (P.sha256Hex token)) iv now), x, s₁⟩]

omit hA in
/-- The store an insert met is that of one of the operations. -/
theorem FirstExchange.insert_mem (h : FirstExchange A token userId sid l s now x s₁) :
    ∃ e ∈ l, e.store = s₁ := by
  obtain ⟨iv, hch⟩ := h.change
  exact mem_changes (hch ▸ List.mem_singleton_self _)

/-- How a `refresh` of a token ends that stays usable throughout the call: the token's successor is
found by the lookup; or the exchange goes through; or it fails in a second in which a token was
issued; or it is lost to another exchange, which the call then sees or not. -/
inductive UsableEnd (A : Rely π) (token : P.Token) (userId sid : String)
    (l : List (Event (schema P))) : Except Exn (UserRefreshResultDto P) → Prop
  | replayed : (∃ e ∈ l, Answered e.store.db token reply) → changes l = [] →
    UsableEnd A token userId sid l (.ok reply)
  | inserted : FirstExchange A token userId sid l s now (.ok ()) s₁ → ¬ Rotated s₁.db token →
    ¬ Issued s₁.db sid now → reply.refreshToken = refreshTokenAt P userId sid now →
    UsableEnd A token userId sid l (.ok reply)
  | clashed : FirstExchange A token userId sid l s now (.error (.duplicate (.refreshHash h))) s₁ →
    Issued s₁.db sid now →
    UsableEnd A token userId sid l
      (.error (UserRepository.sessionRefreshError (.duplicate (.refreshHash h))))
  | unseen : FirstExchange A token userId sid l s now
      (.error (.duplicate (.beforeRefreshHash h))) s₁ → Rotated s₁.db token →
    π.isolation = .repeatableRead →
    UsableEnd A token userId sid l
      (.error (UserRepository.sessionRefreshError (.duplicate (.beforeRefreshHash h))))
  | lost : FirstExchange A token userId sid l s now
      (.error (.duplicate (.beforeRefreshHash h))) s₁ → Answered s₁.db token reply →
    π.isolation = .readCommitted → UsableEnd A token userId sid l (.ok reply)

theorem firstExchange_usable (hP : P.Lawful) (hπ : π.faults = false) {s₀ s s' : Store (schema P)}
    {r : Except Exn (UserRefreshResultDto P)} (l₀ : List (Event (schema P)))
    (h : Runs A (UserService.firstExchange (P.sha256Hex token) ip session) s
      (Tx.empty.opened s₀.db) l (.ended r) s' t')
    (hi₀ : A.inv s₀) (hg₀ : A.grow s₀ s) (hu₀ : Usable s₀.db s₀.clock token ip)
    (hu : ∀ e ∈ l, Usable e.store.db e.store.clock token ip) (hi : A.inv s')
    (hnone : ¬ Rotated s₀.db token) (hses : s.db.holds session) (hlook : ∃ e ∈ l₀, e.store = s₀)
    (hch : changes l₀ = []) (hcl : (clocks l₀).length = 1) :
    UsableEnd A token session.userId session.sessionId (l₀ ++ l) r := by
  obtain ⟨a, b, iv, c, l', rfl, hga, hia, hgb, hib, hgc, hic, hend⟩ := firstExchange_inv hP h
  have hfirst {x : Except (DbError (UserKey P)) Unit} {s₁ : Store (schema P)}
      (hg₁ : A.grow c s₁) (hi₁ : A.inv s₁)
      (hl' : changes l' = [⟨.insertSessionRefresh (tokenRow P session.userId session.sessionId
        (some (P.sha256Hex token)) iv b.clock), x, s₁⟩]) :
      FirstExchange A token session.userId session.sessionId
        (l₀ ++ ⟨.now, a.clock, a, Tx.empty.opened s₀.db⟩ ::
          ⟨.now, b.clock, b, Tx.empty.opened s₀.db⟩ ::
          ⟨.random, iv, c, Tx.empty.opened s₀.db⟩ :: l') s₀ b.clock x s₁ := by
    obtain ⟨e, he, hes⟩ := hlook
    refine ⟨⟨e, List.mem_append_left _ he, hes⟩, hnone, ?_, ⟨hi₀, hi₁⟩, ?_, iv, ?_⟩
    · rw [clocks_append, List.getElem?_append_right (by omega), hcl]
      rfl
    · exact ⟨b, A.trans hg₀ (A.trans hga hgb), rfl, A.trans hgc hg₁⟩
    · rw [changes_append, hch]
      exact hl'
  have hgs {s₁ : Store (schema P)} (hg₁ : A.grow c s₁) : s₁.db.holds session :=
    (hA.grow (A.trans (A.trans hga hgb) (A.trans hgc hg₁))).1.holds hses
  have hclash {s₁ : Store (schema P)} (hg₁ : A.grow c s₁) (hi₁ : A.inv s₁) :=
    (hA.inv hi₁).taken_iff_issued hP (hgs hg₁) b.clock
  cases hend with
  | inserted hg₁ hi₁ hacc hg =>
    refine .inserted (hfirst hg₁ hi₁ rfl) (fun hr => ?_) (fun hc => ?_) rfl
    · exact Bool.false_ne_true ((hacc.free _ (by simp [UserWrite.keys, tokenRow])).symm.trans
        (rotated_iff_taken.mp hr))
    · exact Bool.false_ne_true ((hacc.free _ (by simp [UserWrite.keys, tokenRow])).symm.trans
        ((hclash hg₁ hi₁).mpr hc))
  | refused hg₁ hi₁ hf hne =>
    cases hf with
    | duplicate hk ht =>
      simp only [UserWrite.keys, tokenRow, Option.map_some, Option.toList_some, List.mem_cons,
        List.not_mem_nil, or_false] at hk
      rcases hk with rfl | rfl
      · exact .clashed (hfirst hg₁ hi₁ rfl) ((hclash hg₁ hi₁).mp ht)
      · exact absurd rfl (hne _)
    | refused hn =>
      have := (hgs hg₁).refuse_insert (r := tokenRow P session.userId session.sessionId
        (some (P.sha256Hex token)) iv b.clock) rfl
      cases hn.symm.trans this
    | lost hf => exact absurd (hπ.symm.trans hf) Bool.false_ne_true
  | unseen hg₁ hi₁ hf hg₂ hi₂ hno =>
    have hrot := rotated_iff_taken.mpr (hf.child rfl rfl)
    refine .unseen (hfirst hg₁ hi₁ rfl) hrot ?_
    obtain ⟨r, hr, hb⟩ := hrot
    rw [seen_opened] at hno
    cases hiso : π.isolation with
    | readCommitted =>
      rw [hiso] at hno
      exact absurd hb (hno r ((hA.grow hg₂).1.row hr))
    | repeatableRead => rfl
  | rotated hg₁ hi₁ hf hg₂ hi₂ hmem hb h =>
    have hg₃ := A.trans hg₀ (A.trans (A.trans hga hgb) (A.trans (A.trans hgc hg₁) hg₂))
    obtain ⟨r, hr, hb'⟩ := rotated_iff_taken.mpr (hf.child rfl rfl)
    rw [seen_opened] at hmem
    cases hiso : π.isolation with
    | repeatableRead =>
      rw [hiso] at hmem
      exact absurd ⟨_, hmem, hb⟩ hnone
    | readCommitted =>
      rw [hiso] at hmem
      obtain rfl := (hA.inv hi₂).rotated_unique ((hA.grow hg₂).1.row hr) hmem hb' hb
      simp only [List.mem_cons, forall_eq_or_imp] at hu
      obtain ⟨hch', reply, rfl, hh⟩ := replyRotated_usable hA hP hπ h hi₀ hg₃ hu₀
        hu.2.2.2.2.2 hi hmem hb
      exact .lost (hfirst hg₁ hi₁ (congrArg _ hch')) ⟨_, hr, hb, hh⟩ hiso
  | faulted hf => exact absurd (hπ.symm.trans hf.1) Bool.false_ne_true

/-- **A refresh of a usable token** ends in one of these ways, for the user and the session that the
token was signed for. -/
theorem refresh_usable (hP : P.Lawful) (hπ : π.faults = false) {s s' : Store (schema P)}
    {r : Except Exn (UserRefreshResultDto P)}
    (h : Runs A (UserService.refresh ⟨token⟩ ip) s .empty l (.ended r) s' t') (hi : A.inv s')
    (hu : ∀ e ∈ l, Usable e.store.db e.store.clock token ip) :
    ∃ userId sid, (∃ issued, token = refreshTokenAt P userId sid issued) ∧
      UsableEnd A token userId sid l r := by
  have hr := refresh_inv h
  have ht : Tx.empty.Past A s := .empty A s
  have hissued {s₁ : Store (schema P)} (hi₁ : A.inv s₁) (h₁ : Usable s₁.db s₁.clock token ip) :
      ∃ userId sid issued, token = refreshTokenAt P userId sid issued := by
    obtain ⟨r, hr, hs, _⟩ := h₁.stored
    obtain ⟨_, _, _, now, hst⟩ := (hA.inv hi₁).stored r hr
    exact ⟨_, _, now, hP.sha256_injective (hs.1.symm.trans hst.hash)⟩
  cases hr with
  | unverified hg₁ hi₁ hno =>
    obtain ⟨payload, hv, hp⟩ := (hu _ List.mem_cons_self).verified
    exact absurd hp (hno payload hv)
  | faulted hf => exact absurd (hπ.symm.trans hf.1) Bool.false_ne_true
  | existing hg₁ hi₁ hv hp hg₂ hi₂ hmem hb h =>
    rw [seen_empty] at hmem
    simp only [List.mem_cons, forall_eq_or_imp] at hu
    obtain ⟨_, hu₂, hu⟩ := hu
    obtain ⟨hch, reply, rfl, hh⟩ :=
      replyRotated_usable hA hP hπ h hi₂ (A.refl _) hu₂ hu hi hmem hb
    obtain ⟨userId, sid, hiss⟩ := hissued hi₂ hu₂
    refine ⟨userId, sid, hiss, .replayed ⟨_, List.mem_cons_of_mem _ List.mem_cons_self, _, hmem,
      hb, hh⟩ ?_⟩
    exact hch
  | rejected hg₁ hi₁ hv hp hg₂ hi₂ hnone he hge hie htx hrej =>
    simp only [List.mem_cons, forall_eq_or_imp] at hu
    obtain ⟨_, hu₂, hu⟩ := hu
    have huse := hu₂.seen hA (hu _ he) hie hge
    rw [← htx] at huse
    refine absurd hrej (huse.not_rejected fun r hr hh => ?_)
    have hr := (seen_grows hA (htx ▸ ((ht.grow hg₁).grow hg₂ |>.opened hi₂).grow hge) hie
      (by rw [htx]; rfl)).row hr
    obtain ⟨_, _, _, now, hst⟩ := (hA.inv hie).stored r hr
    rw [(hst.payload hP hv hh).1]
    rfl
  | exchanged hg₁ hi₁ hv hp hg₂ hi₂ hnone hg₃ hi₃ hg₄ hi₄ hval h =>
    simp only [List.mem_cons, forall_eq_or_imp] at hu
    obtain ⟨_, hu₂, _, _, hu⟩ := hu
    rw [seen_empty] at hnone
    have ht₂ : (Tx.empty.opened _).Past A _ := ((ht.grow hg₁).grow hg₂).opened hi₂
    obtain ⟨hsub, hses⟩ := hval.now hA ht₂ rfl hg₃ hi₃ hg₄ hi₄ (A.refl _)
    have hinv₄ : TablesInv _ := hA.inv hi₄
    obtain ⟨_, _, _, now, hst⟩ := hinv₄.stored _ hsub
    have hpay := (hst.payload hP hv hval.submitted_ok.1).1
    have hsid := hval.session_ok.1
    rw [hpay, Option.getD_some] at hsid
    obtain ⟨now, hst⟩ := hinv₄.stores hsub hses hsid.symm
    refine ⟨_, _, ⟨now, hP.sha256_injective (hval.submitted_ok.1.symm.trans hst.hash)⟩, ?_⟩
    obtain ⟨_, hq₁⟩ := hval.op₁
    obtain ⟨_, hq₂⟩ := hval.op₂
    rw [← hsid]
    refine firstExchange_usable hA hP hπ [_, _, _, _] h hi₂ (A.trans hg₃ hg₄) hu₂ hu hi
      (fun ⟨r, hr, hb⟩ => hnone r hr hb) hses ⟨_, List.mem_cons_of_mem _ List.mem_cons_self, rfl⟩
      ?_ ?_
    · rw [changes_now, changes_query rfl, changes_query hq₁, changes_query hq₂]
      rfl
    · rw [clocks_now, clocks_query rfl, clocks_query hq₁, clocks_query hq₂]
      rfl

end NestHarness
