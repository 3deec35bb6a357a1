import NestHarness.Http.Controller
import NestHarness.User.Expiry

/-!
# Logging out

How long the tokens of a session stay usable once the session has been deleted. No later call hands
out a token of it, but the guards never consult the session: an access token that was handed out
before opens its route until it expires.
-/

namespace NestHarness

open Txn UserRepository UserService
open PassportJwtAuthStrategy (credentials ignoreExpiration)

variable {P : Crypto} {π : Policy (schema P)} {w w₁ w₂ : World (userService P)} {n : Nat}

/-! ## When an access token expires -/

/-- What ends well meets `C`. -/
def OnOk (C : α → Prop) (_ : PUnit) (r : Except Exn α) : Prop := ∀ a, r = .ok a → C a

/-- The expiry of an access token that has been signed at the instant `n`. -/
def accessExpiry (n : Nat) : Nat := (n / 1000 + accessExpiresIn) * 1000

theorem accessExpiry_mono {a b : Nat} (h : a ≤ b) : accessExpiry a ≤ accessExpiry b := by
  have := Nat.div_le_div_right (c := 1000) h
  rw [accessExpiry, accessExpiry]
  omega

abbrev clockTo (P : Crypto) (n : Nat) : Env (effect (schema P)) PUnit := clockAtMost (schema P) n

theorem wp_bind_of {p : UserProg P α} {f : α → UserProg P β} {C : β → Prop}
    (hf : ∀ a, (f a).wp (clockTo P n) (OnOk C) ⟨⟩) : (p.bind f).wp (clockTo P n) (OnOk C) ⟨⟩ := by
  refine Prog.wp_bind (Prog.wp_of_forall (fun _ _ => trivial) ?_)
  intro _ r
  cases r with
  | ok a => exact hf a
  | error e => intro a he; cases he

theorem raise_wp {C : α → Prop} {e : Exn} :
    (.raise e : UserProg P α).wp (clockTo P n) (OnOk C) ⟨⟩ := by
  intro a he
  cases he

theorem jwtSign_wp {claims : JwtPayload} {k : Nat} {f : P.Token → UserProg P α} {C : α → Prop}
    (hf : ∀ now ≤ n, (f (P.sign claims k now)).wp (clockTo P n) (OnOk C) ⟨⟩) :
    ((jwtSign claims k).bind f).wp (clockTo P n) (OnOk C) ⟨⟩ :=
  ⟨trivial, fun now _ hnow => hf now hnow⟩

theorem ofExcept_wp {r : Except String α} {f : α → UserProg P β} {C : β → Prop}
    (hf : ∀ a, r = .ok a → (f a).wp (clockTo P n) (OnOk C) ⟨⟩) :
    ((ofExcept r).bind f).wp (clockTo P n) (OnOk C) ⟨⟩ := by
  cases r with
  | ok a => exact hf a rfl
  | error => exact raise_wp

theorem extract_access_le (hP : P.Lawful) {claims : JwtPayload} {now e : Nat} (hnow : now ≤ n)
    (he : P.extractJwtExpiresAt (P.sign claims accessExpiresIn now) = .ok e) :
    e ≤ accessExpiry n := by
  rw [hP.extract_sign _ _ (by decide)] at he
  cases he
  exact accessExpiry_mono hnow

theorem openSession_wp (hP : P.Lawful) {user : UserEntity} {patch : Option UserPatch}
    {ip : Option String} :
    (openSession user patch ip : UserProg P _).wp (clockTo P n)
      (OnOk fun result => result.accessExpiresAt ≤ accessExpiry n) ⟨⟩ := by
  refine wp_bind_of fun sessionId => wp_bind_of fun _ => ?_
  refine jwtSign_wp fun now hnow => jwtSign_wp fun now' _ => ofExcept_wp fun expiresAt he => ?_
  refine wp_bind_of fun _ => wp_bind_of fun _ => wp_bind_of fun _ => ?_
  intro a ha
  cases ha
  exact extract_access_le hP hnow he

theorem signIn_wp (hP : P.Lawful) {dto : UserSignInDto} {ip : Option String} :
    (UserService.signIn dto ip : UserProg P _).wp (clockTo P n)
      (OnOk fun result => result.accessExpiresAt ≤ accessExpiry n) ⟨⟩ := by
  refine wp_bind_of fun user => ?_
  cases user with
  | none => exact raise_wp
  | some user =>
    dsimp only
    split
    · exact raise_wp
    refine wp_bind_of fun state => ?_
    split
    · exact raise_wp
    · exact wp_bind_of fun _ => openSession_wp hP

theorem replyRotated_wp (hP : P.Lawful) {oldHash : P.Hash} {ip : Option String}
    {rotated : SessionRefreshEntity P} :
    (replyRotated oldHash ip rotated).wp (clockTo P n)
      (OnOk fun result => result.accessExpiresAt ≤ accessExpiry n) ⟨⟩ := by
  refine wp_bind_of fun session => jwtSign_wp fun now hnow => ofExcept_wp fun expiresAt he => ?_
  refine ofExcept_wp fun token _ => ?_
  intro a ha
  cases ha
  exact extract_access_le hP hnow he

theorem firstExchange_wp (hP : P.Lawful) {oldHash : P.Hash} {ip : Option String}
    {session : SessionEntity} :
    (firstExchange oldHash ip session).wp (clockTo P n)
      (OnOk fun result => result.accessExpiresAt ≤ accessExpiry n) ⟨⟩ := by
  refine jwtSign_wp fun now hnow => jwtSign_wp fun now' _ => ?_
  refine ofExcept_wp fun refreshExpiresAt _ => ?_
  refine wp_bind_of fun cipher => wp_bind_of fun inserted => ?_
  cases inserted with
  | ok =>
    refine ofExcept_wp fun expiresAt he => ?_
    intro a ha
    cases ha
    exact extract_access_le hP hnow he
  | error e =>
    dsimp only
    split
    swap
    · exact raise_wp
    refine wp_bind_of fun winner => ?_
    cases winner with
    | none => exact raise_wp
    | some => exact replyRotated_wp hP

theorem refresh_wp (hP : P.Lawful) {dto : UserRefreshDto P} {ip : Option String} :
    (UserService.refresh dto ip).wp (clockTo P n)
      (OnOk fun result => result.accessExpiresAt ≤ accessExpiry n) ⟨⟩ := by
  refine wp_bind_of fun payload => wp_bind_of fun existing => ?_
  cases existing with
  | some => exact replyRotated_wp hP
  | none => exact wp_bind_of fun session => firstExchange_wp hP

/-- When clocks do not go back, an access token has been signed in the past. -/
theorem accessExpiresAt_le (hP : P.Lawful) (hmono : ∀ a b, π.tick a b = true → a ≤ b)
    (hw : w.Sound (userRely π)) (hsucc : w.Succeeded i q a)
    (he : a.accessExpiresAt = some expiresAt) : expiresAt ≤ accessExpiry w.clock := by
  obtain ⟨l, hcall⟩ := hsucc
  rcases hw.calls _ (List.mem_of_getElem? hcall) with ⟨s₀, s₁, t, _, _, hrun, _, hg⟩ | ⟨_, hr⟩
  swap
  · cases hr
  have hclock : s₁.clock ≤ w.clock := clock_le hmono hg.2
  have hread : ∀ e ∈ l, e.store.clock ≤ w.clock := by
    intro e hmem
    exact Nat.le_trans (clock_le hmono (hrun.events e hmem).2.2) hclock
  cases q with
  | adminCreate dto =>
    obtain ⟨_ | _, hr, _⟩ := hrun.map_inv <;> cases hr
    cases he
  | signIn dto ip =>
    obtain ⟨_ | result, hr, hsign⟩ := hrun.map_inv <;> cases hr
    cases he
    exact hsign.wp (signIn_wp hP) hread result rfl
  | refresh dto ip =>
    obtain ⟨_ | result, hr, href⟩ := hrun.map_inv <;> cases hr
    cases he
    exact href.wp (refresh_wp hP) hread result rfl

/-! ## The tokens of a deleted session -/

/-- Outside of development a bearer token verifies as the service verifies tokens. -/
theorem verify_of_verifyBearer {token : P.Token} {payload : JwtPayload} {now : Nat}
    (h : P.verifyBearer false token now = some payload) : P.verify token now = .ok payload := by
  rw [Crypto.verifyBearer] at h
  split at h
  swap
  · cases h
  rename_i hsig
  obtain ⟨hdecode, hlive⟩ := Option.filter_eq_some_iff.mp h
  rw [Crypto.verify, if_pos hsig, hdecode]
  cases hexp : payload.exp with
  | none => simp only [hexp]
  | some exp =>
    have hlt : now / 1000 < exp := by simpa [hexp] using hlive
    simp only [hexp, if_neg (Nat.not_le.mpr hlt)]

/-- A token that the guards let pass outside of development has been signed, and verifies. -/
theorem verified_of_admits {token : P.Token} {nodeEnv : Option String}
    {db : Option (Tables P)} (henv : nodeEnv ≠ some "development")
    (h : Admits nodeEnv token now db r) :
    P.signatureOk token = true ∧ ∃ payload, P.verify token now = .ok payload := by
  rw [Admits, adminCreate_activate_iff] at h
  obtain ⟨payload, u, _, had⟩ := h
  have hverified : P.verifyBearer (ignoreExpiration nodeEnv) token now = some payload :=
    had.verified
  rw [ignoreExpiration, decide_eq_false henv] at hverified
  refine ⟨?_, payload, verify_of_verifyBearer hverified⟩
  rw [Crypto.verifyBearer] at hverified
  split at hverified
  · assumption
  · cases hverified

/-- The tokens of a call that had settled in `w` have expired the life of an access token later. -/
theorem not_admits_settled (hP : P.Lawful) (hmono : ∀ a b, π.tick a b = true → a ≤ b)
    (hw : w.Sound (userRely π)) (hsucc : w.Succeeded i q a) {token : P.Token}
    (ht : token ∈ a.tokens) {nodeEnv : Option String} (henv : nodeEnv ≠ some "development")
    (hnow : w.clock + accessExpiresIn * 1000 ≤ now) {db : Option (Tables P)} :
    ¬ Admits nodeEnv token now db r := by
  obtain ⟨session, _, signed, _, htokens, hexpires⟩ :=
    carried_of_sound hP hw hsucc (List.ne_nil_of_mem ht)
  have hle : accessExpiry signed ≤ accessExpiry w.clock :=
    accessExpiresAt_le hP hmono hw hsucc hexpires
  rw [htokens] at ht
  rcases List.mem_pair.mp ht with rfl | rfl
  · intro hadmits
    obtain ⟨hdev | hlive, _⟩ := (admits_access_iff hP).mp hadmits
    · exact henv hdev
    · rw [accessExpiry, accessExpiry] at hle
      omega
  · exact not_admits_refresh hP

/-- **A deleted session is locked out within the life of an access token**: once the calls that were
under way at its deletion have settled and twenty minutes have passed, the guards let no token of it
pass, whatever calls have been made since and whatever the database says. -/
theorem locked_out (hP : P.Lawful) (hmono : ∀ a b, π.tick a b = true → a ≤ b)
    {s : Store (schema P)} (hs : TablesInv s.db) (h : (World.init s).Reaches π w)
    (hrev : w.db.Revoked sessionId) (h₁ : w.Reaches π w₁)
    (hdone : ∀ i c, i < w.calls.length → w₁.calls[i]? = some c → c.Settled)
    (h₂ : w₁.Reaches π w₂) {token : P.Token} {payload : JwtPayload}
    (hgenuine : P.signatureOk token = true → token ∈ handedOut w₂)
    (hpayload : P.decodeJwt token = some payload) (hid : payload.sessionId = some sessionId)
    {nodeEnv : Option String} (henv : nodeEnv ≠ some "development")
    (hnow : w₁.clock + accessExpiresIn * 1000 ≤ now) (db : Option (Tables P))
    (r : Option PassportUserResultDto) : ¬ Admits nodeEnv token now db r := by
  have hw : w.Sound (userRely π) := ((World.Sound.init hs).reaches (userRely_keeps hP) h).1
  have hw₁ : w₁.Sound (userRely π) := (hw.reaches (userRely_keeps hP) h₁).1
  intro hadmits
  obtain ⟨hsig, payload', hverify⟩ := verified_of_admits henv hadmits
  obtain ⟨i, q, a, hsucc, ht⟩ := mem_handedOut.mp (hgenuine hsig)
  rcases Nat.lt_or_ge i w.calls.length with hlt | hle
  · -- the call had been made before the session was deleted
    have hi : i < w₁.calls.length := Nat.lt_of_lt_of_le hlt h₁.calls.1
    have hcall : w₁.calls[i]? = some w₁.calls[i] := List.getElem?_eq_getElem hi
    obtain ⟨res, hphase⟩ := hdone i _ hlt hcall
    obtain ⟨l, hcall₂⟩ := hsucc
    have hsame := (h₂.settled hcall hphase).symm.trans hcall₂
    exact not_admits_settled hP hmono hw₁ ⟨l, hcall.trans hsame⟩ ht henv hnow hadmits
  · have hother := forOther_of_later hP
      (soundFrom_revoked hP hw hrev (h₁.trans h₂)) hle hsucc
    cases hpayload.symm.trans (decode_of_verify hverify)
    exact hother.1 token ht now payload hverify hid

/-- The session is deleted in the second of its sign-in. -/
theorem locked_out_sample : deletedWorld.db.Revoked "s" ∧
    (∃ u, Admits none (accessTokenAt symbolic "u" "s" 5000) 1204999 (some promoted) (some u)) ∧
    ∀ db r, ¬ Admits none (accessTokenAt symbolic "u" "s" 5000) 1205000 db r := by
  have hrev : deletedWorld.db.Revoked "s" := ⟨_, List.mem_singleton_self _, rfl, rfl⟩
  refine ⟨hrev, ⟨_, (admits_access_iff symbolic_lawful).mpr
    ⟨.inr (by decide), _, rfl, rfl, .inl rfl⟩⟩, ?_⟩
  refine locked_out symbolic_lawful (fun _ _ => of_decide_eq_true) (s := sampleStore 5000)
    (w := deletedWorld) (.initial rfl rfl) ⟨_, (Option.some_get _).symm⟩ hrev ⟨[], rfl⟩ ?_ ⟨[], rfl⟩
    (fun _ => List.mem_of_getElem? (i := 0) rfl) rfl rfl (by simp) (by decide +kernel)
  intro i c hi hc
  have hall : ∀ c ∈ deletedWorld.calls, c.Settled := by decide +kernel
  exact hall c (List.mem_of_getElem? hc)

end NestHarness
