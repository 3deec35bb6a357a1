import NestHarness.Http.Exchange
import NestHarness.Lib.TxnSerial
import NestHarness.User.Provenance
import NestHarness.User.SignInBody

/-!
# Admitted requests

What becomes of the request bodies that the validators admit: `adminCreate` and `signIn` as the only
requests, any number of them at a time, on a database without faults. Validation bounds neither the
parents of a new user nor the device columns, it asks a sign-in for no texts, and neither the
repository nor the service translates the errors that come of it.
-/

namespace NestHarness

open Txn UserRepository UserService
open Js (Value)

variable {P : Crypto} {D : Driver} {π : Policy (schema P)} {A : Rely π}

/-- A request of one of the two methods. -/
inductive SentRequest
  | adminCreate (dto : AdminUserCreateDto)
  | signIn (body : SignInBody) (ip : Option String)

/-- A request that the controller passes on. The text of an address has at most 45 characters. -/
inductive SentRequest.Admitted : SentRequest → Prop
  | adminCreate (h : dto.validate = []) : Admitted (.adminCreate dto)
  | signIn (h : body.validate = []) (hip : ∀ a ∈ ip, a.length ≤ 45) : Admitted (.signIn body ip)

def serveSent (D : Driver) : SentRequest → UserProg P (UserReply P)
  | .adminCreate dto => do adminCreate dto; return .created
  | .signIn body ip => return .signedIn (← signInBody D body ip)

variable (P D) in
/-- The service for admitted requests. -/
abbrev admittedService : Service (schema P) where
  Req := {q : SentRequest // q.Admitted}
  Exn := Exn
  Reply := UserReply P
  serve q := serveSent D q.1
  crashed := (userService P).crashed

/-- A success or a 4xx response. -/
def Served (r : Except Exn α) : Prop :=
  ∀ e, r = .error e → (customErrorFilter e).statusCode / 100 = 4

/-- Drawn texts have at most 32 characters, as uuids, salts and IVs have, and no uuid is drawn
twice. -/
structure Orderly (l : List (Event (schema P))) : Prop where
  short : ∀ {x s t}, ⟨.random, x, s, t⟩ ∈ l → x.length ≤ 32
  noClash : ∀ {w k s t}, UserKey.constraintName k = "PRIMARY" →
    ⟨.write w, .error (.duplicate k), s, t⟩ ∉ l

theorem Orderly.tail {e : Event (schema P)} {l : List (Event (schema P))} (h : Orderly (e :: l)) :
    Orderly l :=
  ⟨fun he => h.short (List.mem_cons_of_mem _ he),
    fun hk he => h.noClash hk (List.mem_cons_of_mem _ he)⟩

theorem Orderly.nil : Orderly ([] : List (Event (schema P))) :=
  ⟨fun he => absurd he List.not_mem_nil, fun _ => List.not_mem_nil⟩

/-- A hash is not longer than its column; it has 60 characters. -/
def Crypto.HashFits (P : Crypto) : Prop := ∀ salt s, (P.bcryptHash salt s).length ≤ 100

/-! ## The condition -/

/-- A column of the length takes the text: what is longer than the column are spaces. -/
def TextFits (length : Nat) (s : String) : Prop := ∀ c ∈ s.toList.drop length, c = ' '

/-- The rows that a new user refers to exist, and its columns that validation leaves open fit. -/
structure Storable (d : Tables P) (dto : AdminUserCreateDto) : Prop where
  auth : ∃ a ∈ d.tAuth, P.collate a = P.collate (stored 20 dto.authId)
  authFits : TextFits 20 dto.authId
  state : ∃ state ∈ d.tState, P.collate state.stateId = P.collate "ACTIVE"
  position : ∀ p ∈ dto.positionId, ∃ q ∈ d.tPosition, P.collate q = P.collate (stored 32 p)
  positionFits : ∀ p ∈ dto.positionId, TextFits 32 p

/-- The state is one that may log in. -/
def Tables.LoginAble (d : Tables P) (stateId : String) : Prop :=
  (d.tState.find? (StateWhere.matches P ⟨stateId⟩)).any (·.isLoginAble = 1) = true

def UserPatch.Fits (p : UserPatch) : Prop := TextFits 20 p.deviceOs ∧ TextFits 255 p.deviceToken

/-- The device columns, when they are written, can be written and fit. -/
def Driver.DeviceFits (D : Driver) (body : SignInBody) : Prop :=
  ∀ m ∈ body.mobile, (∃ p ∈ D.updatePatch m.1 m.2, p.Fits) ∧ ∃ p ∈ D.insertPatch m.1 m.2, p.Fits

/-- A sign-in that has found the user does not fail: its password is a text, and when that matches
and the user may log in the device fits. -/
def Driver.Bears (D : Driver) (d : Tables P) (body : SignInBody) (user : UserEntity) : Prop :=
  ∃ pw, body.loginPw.textOf = some pw ∧ (P.matchBcrypt pw user.loginPw = true →
    d.LoginAble user.stateId → D.DeviceFits body)

/-- A sign-in that looks its user up in the tables `d` does not fail. -/
def Driver.Safe (D : Driver) (d : Tables P) (body : SignInBody) : Prop :=
  ∃ found, D.lookup d body.loginId = some found ∧ ∀ user ∈ found, D.Bears d body user

/-- The request violates no constraint that validation leaves open: a new user can be stored, and a
sign-in does not fail, whichever tables the run has come to when it looks its user up. -/
def Harmless (π : Policy (schema P)) (D : Driver) (s : Store (schema P)) : SentRequest → Prop
  | .adminCreate dto =>
    dto.loginPw ≠ dto.loginPw2 ∨ s.db.taken (.loginId (P.collate dto.loginId)) = true ∨
      Storable s.db dto
  | .signIn body _ =>
    ∀ w : World (admittedService P D), (World.init s).Reaches π w → D.Safe w.db body

/-- An account that an admitted `adminCreate` can add to the tables `d`. -/
inductive Creatable (d : Tables P) : UserEntity → Prop
  | intro (hvalid : dto.validate = []) (hpw : dto.loginPw = dto.loginPw2)
    (hstorable : Storable d dto) (hlogin : d.taken (.loginId (P.collate dto.loginId)) = false)
    (hid : d.taken (.pkUser userId) = false) (hfits : TextFits 32 userId) (hne : userId ≠ "")
    (hsalt : salt ≠ "") : Creatable d (userRow P dto userId salt).stored

/-- The account of a login id, now or once it has been created. -/
def MayHold (d : Tables P) (loginId : String) (u : UserEntity) : Prop :=
  d.accounts.find? (P.collate ·.loginId = P.collate loginId) = some u ∨
    Creatable d u ∧ P.collate u.loginId = P.collate loginId

/-- A sign-in of texts that can come to write: its account exists or can be created, the password
matches and the state is one that may log in. -/
def MayLogIn (d : Tables P) (dto : UserSignInDto) : Prop :=
  ∃ u, MayHold d dto.loginId u ∧ P.matchBcrypt dto.loginPw u.loginPw = true ∧
    d.LoginAble u.stateId

/-- The device columns of a sign-in of texts, when they are written, fit. -/
def UserSignInDto.DeviceFits (dto : UserSignInDto) : Prop := ∀ p ∈ mobilePatch dto, p.Fits

/-! ## Constraints of the rows -/

theorem textFits_iff {n : Nat} {s : String} : TextFits n s ↔ MySql.cutVarchar n s ≠ none := by
  rw [Ne, MySql.cutVarchar_eq_none_iff, TextFits]
  push Not
  rfl

theorem TextFits.of_length_le {n : Nat} {s : String} (h : s.length ≤ n) : TextFits n s := by
  intro c hc
  rw [List.drop_eq_nil_of_le (String.length_toList ▸ h)] at hc
  cases hc

theorem tooLong_eq_false {columns : List (Option String × Nat)} :
    tooLong columns = false ↔ ∀ c ∈ columns, ∀ s ∈ c.1, TextFits c.2 s := by
  rw [tooLong, List.any_eq_false]
  refine forall₂_congr fun ⟨value, length⟩ _ => ?_
  cases value <;> simp [textFits_iff]

variable {dto : AdminUserCreateDto} {userId salt : String}

theorem tooLong_user (hH : P.HashFits) (hdto : dto.validate = []) :
    tooLong (userRow P dto userId salt).columns = false ↔
      TextFits 32 userId ∧ TextFits 20 dto.authId ∧ ∀ p ∈ dto.positionId, TextFits 32 p := by
  obtain ⟨hlogin, hname, hnick⟩ := AdminUserCreateDto.fits hdto
  have hhash : TextFits 100 (P.getBcrypt salt dto.loginPw) := .of_length_le (hH _ _)
  have hstate : TextFits 20 "ACTIVE" := .of_length_le (by decide)
  rw [tooLong_eq_false]
  simp [userRow, UserEntity.columns, TextFits.of_length_le hlogin, TextFits.of_length_le hname,
    TextFits.of_length_le hnick, hhash, hstate]

/-- A user row is stored just when the columns and parents that validation leaves open are right. -/
theorem refuse_user_iff (hH : P.HashFits) (hdto : dto.validate = []) {d : Tables P} :
    d.refuse (.insertUser (userRow P dto userId salt)) = none ↔
      Storable d dto ∧ TextFits 32 userId := by
  have hcolumns : tooLong (userRow P dto userId salt).columns = false ↔
      TextFits 32 userId ∧ TextFits 20 dto.authId ∧ ∀ p ∈ dto.positionId, TextFits 32 p :=
    tooLong_user hH hdto
  have hauth : d.tAuth.any (P.collate · = P.collate (userRow P dto userId salt).stored.authId) =
      true ↔ ∃ a ∈ d.tAuth, P.collate a = P.collate (stored 20 dto.authId) := by
    simp only [List.any_eq_true, decide_eq_true_iff]
    rfl
  have hstate : d.tState.any (P.collate ·.stateId = P.collate (userRow P dto userId salt).stateId) =
      true ↔ ∃ state ∈ d.tState, P.collate state.stateId = P.collate "ACTIVE" := by
    simp only [List.any_eq_true, decide_eq_true_iff]
    rfl
  have hposition : (userRow P dto userId salt).stored.positionId.all
      (fun p => d.tPosition.any (P.collate · = P.collate p)) = true ↔
      ∀ p ∈ dto.positionId, ∃ q ∈ d.tPosition, P.collate q = P.collate (stored 32 p) := by
    change (dto.positionId.map (stored 32)).all _ = true ↔ _
    cases dto.positionId <;> simp
  simp only [Tables.refuse, hauth, hstate, hposition]
  split
  · rename_i htoo
    refine iff_of_false (Option.some_ne_none _) fun hs => ?_
    rw [hcolumns.mpr ⟨hs.2, hs.1.authFits, hs.1.positionFits⟩] at htoo
    cases htoo
  rename_i hfits
  obtain ⟨hid, hauthFits, hpositionFits⟩ := hcolumns.mp (by simpa using hfits)
  split
  · rename_i h
    exact iff_of_true rfl ⟨⟨h.1, hauthFits, h.2.1, h.2.2, hpositionFits⟩, hid⟩
  · rename_i h
    exact iff_of_false (Option.some_ne_none _) fun hs => h ⟨hs.1.auth, hs.1.state, hs.1.position⟩

/-! ## What admitted requests change -/

/-- The tables `d` have grown from `d₀` by accounts that admitted requests create. -/
structure Extends (d₀ d : Tables P) : Prop where
  accounts : ∃ new, d.accounts = d₀.accounts ++ new ∧ ∀ u ∈ new, Creatable d₀ u
  parents : SameParents d₀ d

variable {d₀ d : Tables P}

theorem Extends.refl (d : Tables P) : Extends d d := ⟨⟨[], by simp⟩, .refl d⟩

theorem Extends.subset (h : Extends d₀ d) : d₀.accounts ⊆ d.accounts := by
  obtain ⟨new, haccounts, _⟩ := h.accounts
  rw [haccounts]
  exact List.subset_append_left ..

theorem taken_pkUser {id : String} :
    d.taken (.pkUser id) = false ↔ id ∉ d.accounts.map (·.userId) := by
  simp [Tables.taken, Tables.accounts, UserEntity.account]

theorem Extends.free_login (h : Extends d₀ d) {weight : String}
    (hd : d.taken (.loginId weight) = false) : d₀.taken (.loginId weight) = false :=
  taken_loginId.mpr fun hid => taken_loginId.mp hd (List.map_subset _ h.subset hid)

theorem Extends.free_id (h : Extends d₀ d) {id : String} (hd : d.taken (.pkUser id) = false) :
    d₀.taken (.pkUser id) = false :=
  taken_pkUser.mpr fun hid => taken_pkUser.mp hd (List.map_subset _ h.subset hid)

theorem SameParents.storable (h : SameParents d₀ d) : Storable d dto ↔ Storable d₀ dto := by
  constructor
  · rintro ⟨ha, ha', hs, hp, hp'⟩
    exact ⟨h.auth ▸ ha, ha', h.state ▸ hs, h.position ▸ hp, hp'⟩
  · rintro ⟨ha, ha', hs, hp, hp'⟩
    exact ⟨h.auth ▸ ha, ha', h.state ▸ hs, h.position ▸ hp, hp'⟩

theorem SameParents.loginAble (h : SameParents d₀ d) {stateId : String} :
    d.LoginAble stateId ↔ d₀.LoginAble stateId := by
  rw [Tables.LoginAble, Tables.LoginAble, h.state]

/-- The account of a user that an admitted request inserts. -/
theorem Extends.creatable (hH : P.HashFits) (hdto : dto.validate = [])
    (hpw : dto.loginPw = dto.loginPw2) (hid : userId ≠ "") (hsalt : salt ≠ "")
    {s : Store (schema P)} {t : Tx (schema P)} (ht : t.writes = []) (hs : Extends d₀ s.db)
    (h : Accepted s t (.insertUser (userRow P dto userId salt))) :
    Creatable d₀ (userRow P dto userId salt).stored := by
  obtain ⟨hrefuse, hfree⟩ := h
  rw [Tx.onto_nil ht] at hrefuse hfree
  obtain ⟨hstorable, hfits⟩ := (refuse_user_iff hH hdto).mp hrefuse
  refine .intro hdto hpw (hs.parents.storable.mp hstorable) (hs.free_login (hfree _ ?_))
    (hs.free_id (hfree _ ?_)) hfits hid hsalt
  · simp [UserWrite.keys, userRow]
  · simp [UserWrite.keys, userRow]

/-- The database has grown from `d₀` by accounts of admitted requests, and only grows. -/
def admissionRely (π : Policy (schema P)) (d₀ : Tables P) : Rely π where
  inv s := Extends d₀ s.db
  grow s s' := s.db.accounts <+: s'.db.accounts
  refl _ := List.prefix_rfl
  trans h h' := h.trans h'
  tick h _ := ⟨h, List.prefix_rfl⟩
  edit h _ := ⟨⟨h.accounts, h.parents.trans ⟨rfl, rfl, rfl⟩⟩, List.prefix_rfl⟩

/-- A sign-in adds no account. -/
theorem signInBody_only {body : SignInBody} {ip : Option String} :
    (signInBody D body ip : UserProg P _).Only
      (Op.Writes fun w : UserWrite P => w.account = none) := by
  have hfind : (findLogin D body.loginId : UserProg P _).Only
      (Op.Writes fun w : UserWrite P => w.account = none) := by
    unfold findLogin
    split
    · exact queryOr_only
    · refine queryOr_only.bind fun rows => ?_
      split <;> trivial
  have hmatch {hash : String} : (matchPassword body.loginPw hash : UserProg P _).Only
      (Op.Writes fun w : UserWrite P => w.account = none) := by
    unfold matchPassword
    split <;> trivial
  refine hfind.bind fun user => ?_
  cases user with
  | none => trivial
  | some user =>
    refine hmatch.bind fun passOk => ?_
    split
    · trivial
    refine queryOr_only.bind fun state => ?_
    split
    · trivial
    split
    · exact openSession_only (fun _ => rfl) fun _ => rfl
    split
    · trivial
    refine (writeOr_only (C := fun w => w.account = none) rfl).bind fun _ => ?_
    split
    · exact openSession_only (fun _ => rfl) fun _ => rfl
    · exact randomText_only.bind fun _ => trivial

theorem admissionRely_keeps (hH : P.HashFits) :
    (admissionRely π d₀).Keeps (admittedService P D) := by
  intro q a s₀ s l t hi₀ hi h _
  obtain ⟨q, hq⟩ := q
  obtain ⟨haccounts, hparents⟩ := accounts_onto t s.db
  suffices hnew : ∀ u ∈ t.writes.filterMap UserWrite.account, Creatable d₀ u by
    obtain ⟨new, hold, hcreatable⟩ := hi.accounts
    refine ⟨⟨⟨new ++ t.writes.filterMap UserWrite.account, ?_, ?_⟩, hi.parents.trans hparents⟩,
      ⟨_, haccounts.symm⟩⟩
    · exact haccounts.trans (by rw [hold, List.append_assoc])
    · intro u hu
      rcases List.mem_append.mp hu with hu | hu
      · exact hcreatable u hu
      · exact hnew u hu
  intro u hu
  obtain ⟨w, hw, hu⟩ := List.mem_filterMap.mp hu
  cases hq with
  | adminCreate hdto =>
    obtain ⟨r, hr, h⟩ := Runs.map_inv (r := .ok a) h
    cases r with
    | error e => cases hr
    | ok u =>
      have h := adminCreate_inv h
      generalize hok : (Except.ok u : Except Exn Unit) = r at h
      cases h with
      | mismatch | existing | refused => cases hok
      | faulted hf =>
        obtain ⟨_, _, rfl⟩ := hf
        cases hok
      | inserted h hacc _ hwrites =>
        rw [hwrites] at hw
        cases List.mem_singleton.mp hw
        cases hu
        exact Extends.creatable hH hdto h.pw h.userId_ne h.salt_ne h.writes h.inv₁ hacc
  | signIn =>
    obtain ⟨r, hr, h⟩ := Runs.map_inv (r := .ok a) h
    rcases h.writes signInBody_only w hw with hw | hw
    · cases hw
    · cases hw.symm.trans hu

/-! ## Harmless requests are served -/

theorem Served.ok (a : α) : Served (.ok a : Except Exn α) := by
  intro e h
  cases h

theorem Served.badRequest (response : ErrorBody) : Served (.error (.http 400 response) :
    Except Exn α) := by
  intro e h
  cases h
  unfold customErrorFilter
  split
  · rfl
  · exact (by decide : 400 / 100 = 4)

theorem Served.map {r : Except Exn α} (f : α → β) (h : Served r) : Served (r.map f) := by
  cases r with
  | ok a => exact .ok _
  | error e =>
    intro e' he
    cases he
    exact h e rfl

theorem not_faulted (hπ : π.faults = false) {r : Except Exn α} : ¬ Faulted π r := by
  intro h
  obtain ⟨hfaults, _⟩ := h
  cases hπ.symm.trans hfaults

section

variable (hH : P.HashFits) (hπ : π.faults = false)
variable {s s' : Store (schema P)} {l : List (Event (schema P))} {t t' : Tx (schema P)}

include hH hπ

theorem adminCreate_served (hdto : dto.validate = []) {r : Except Exn Unit}
    (h : Runs (admissionRely π d₀) (adminCreate dto) s .empty l (.ended r) s' t')
    (hl : Orderly l) (hd : dto.loginPw ≠ dto.loginPw2 ∨
      d₀.taken (.loginId (P.collate dto.loginId)) = true ∨ Storable d₀ dto) : Served r := by
  replace h := adminCreate_inv h
  cases h with
  | mismatch | existing => exact .badRequest _
  | faulted hf => exact absurd hf (not_faulted hπ)
  | inserted => exact .ok _
  | @refused userId salt s₀ s₁ t₁ e h hwrite hf =>
    have hstorable : Storable d₀ dto := by
      rcases hd with hne | htaken | hs
      · exact absurd h.pw hne
      · have hfree : s₀.db.taken (.loginId (P.collate dto.loginId)) = false := by
          have hseen := h.free
          rw [seen_empty] at hseen
          simpa [Tables.taken] using hseen
        cases htaken.symm.trans (h.inv₀.free_login hfree)
      · exact hs
    obtain ⟨s₂, hdrawn⟩ := h.drawn
    cases hf with
    | duplicate hk _ =>
      rcases List.mem_cons.mp hk with rfl | hk
      · exact absurd hwrite (hl.noClash rfl)
      · cases List.mem_singleton.mp hk
        exact .badRequest _
    | refused hn =>
      have hnone : s₁.db.refuse (.insertUser (userRow P dto userId salt)) = none :=
        (refuse_user_iff hH hdto).mpr
          ⟨h.inv₁.parents.storable.mpr hstorable, .of_length_le (hl.short hdrawn)⟩
      rw [Tx.onto_nil h.writes] at hn
      cases hnone.symm.trans hn
    | lost hfaults => cases hπ.symm.trans hfaults

end

/-! ## Sign-ins that do not fail -/

/-- An account is that of a row. -/
theorem Tables.user_of_account {u : UserEntity} (h : u ∈ d.accounts) :
    d.tUser.any (·.userId = u.userId) = true := by
  obtain ⟨v, hv, rfl⟩ := List.mem_map.mp h
  exact List.any_eq_true.mpr ⟨v, hv, decide_eq_true rfl⟩

theorem refuse_session {d : Tables P} {userId sessionId : String} {patch : Option UserPatch}
    {ip : Option String} (hsession : sessionId.length ≤ 32) (hid : TextFits 32 userId)
    (hip : ∀ a ∈ ip, a.length ≤ 45) (hpatch : ∀ p ∈ patch, p.Fits)
    (huser : d.tUser.any (·.userId = userId) = true) :
    d.refuse (.insertSession (sessionRow userId sessionId patch ip)) = none := by
  have hcolumns : tooLong (sessionRow userId sessionId patch ip).columns = false := by
    have hip' : ∀ a, (if truthy ip = true then ip else none) = some a → TextFits 100 a := by
      intro a ha
      split at ha
      · exact .of_length_le (Nat.le_trans (hip a ha) (by decide))
      · cases ha
    have hsession' : TextFits 32 sessionId := .of_length_le hsession
    rw [tooLong_eq_false]
    cases patch with
    | none => simpa [sessionRow, SessionEntity.columns, hsession', hid] using hip'
    | some p =>
      obtain ⟨hos, htoken⟩ := hpatch p rfl
      simpa [sessionRow, SessionEntity.columns, hsession', hid, hos, htoken] using hip'
  rw [Tables.refuse, hcolumns, if_neg Bool.false_ne_true]
  exact if_pos huser

theorem tooLong_device {p : UserPatch} :
    tooLong [(some p.deviceOs, 20), (some p.deviceToken, 255)] = false ↔ p.Fits := by
  rw [tooLong_eq_false]
  simp [UserPatch.Fits]

theorem refuse_device {userId : String} {p : UserPatch} :
    d.refuse (.updateUser userId p) = none ↔ p.Fits := by
  rw [Tables.refuse, ← tooLong_device]
  split <;> simp_all

/-- A session that the same transaction has opened satisfies the foreign key of its tokens. -/
theorem refuse_own_session {t : Tx (schema P)} {row : SessionEntity} {r : SessionRefreshEntity P}
    (h : r.sessionId = row.sessionId) :
    Tables.refuse (Tx.onto { t with writes := t.writes ++ [.insertSession row] } d)
      (.insertSessionRefresh r) = none := by
  refine if_pos ?_
  rw [Tx.onto, List.foldl_append]
  exact List.any_eq_true.mpr ⟨row.stored, List.mem_append_right _ (List.mem_singleton_self _),
    decide_eq_true h.symm⟩

theorem Creatable.id_fits {u : UserEntity} (h : Creatable d u) : TextFits 32 u.userId := by
  cases h with
  | intro _ _ _ _ _ hfits => exact hfits

/-- The ids of accounts fit their columns. -/
theorem Extends.id_fits (h : Extends d₀ d) (hids : ∀ u ∈ d₀.tUser, u.userId.length ≤ 32)
    {user : UserEntity} (hu : user ∈ d.tUser) : TextFits 32 user.userId := by
  obtain ⟨new, haccounts, hnew⟩ := h.accounts
  have hmem : user.account ∈ d.accounts := account_mem hu
  rw [haccounts] at hmem
  rcases List.mem_append.mp hmem with hmem | hmem
  · obtain ⟨v, hv, he⟩ := List.mem_map.mp hmem
    have hid : user.userId = v.userId := congrArg (·.userId) he.symm
    exact hid ▸ .of_length_le (hids v hv)
  · exact (hnew _ hmem).id_fits (u := user.account)

/-- What a transaction reads of the states after its first read. -/
theorem seen_states {s s₁ : Store (schema P)} (hs : Extends d₀ s.db) (hs₁ : Extends d₀ s₁.db) :
    (seen π s (Tx.empty.opened s₁.db)).tState = d₀.tState := by
  rw [seen_opened]
  split
  · exact hs.parents.state
  · exact hs₁.parents.state

section

variable {s s' : Store (schema P)} {l : List (Event (schema P))} {t t' : Tx (schema P)}
  {body : SignInBody} {ip : Option String}

section

variable (hP : P.Lawful) (hπ : π.faults = false)
include hP hπ

theorem openSession_served {user : UserEntity} {patch : Option UserPatch}
    {r : Except Exn (UserSignInResultDto P)}
    (h : Runs (admissionRely π d₀) (openSession user patch ip) s t l (.ended r) s' t')
    (hl : Orderly l) (huser : user.account ∈ s.db.accounts) (hid : TextFits 32 user.userId)
    (hip : ∀ a ∈ ip, a.length ≤ 45) (hpatch : ∀ p ∈ patch, p.Fits) : Served r := by
  rw [openSession, Prog.bind_eq] at h
  obtain ⟨sessionId, s₁, l₁, rfl, _, hg₁, _, h₁⟩ := randomText_bind h
  have hsession : sessionId.length ≤ 32 := hl.short List.mem_cons_self
  rcases writeOr_run h₁ with ⟨s₂, l₂, rfl, _, _, _, h₂⟩ | ⟨e, s₂, rfl, hg₂, _, hf, rfl⟩
  swap
  · have hmem : user.account ∈ (t.onto s₂.db).accounts := by
      rw [(accounts_onto t s₂.db).1]
      exact List.mem_append_left _ ((hg₁.trans hg₂).subset huser)
    cases hf with
    | duplicate hk _ =>
      cases List.mem_singleton.mp hk
      exact absurd (List.mem_singleton_self _) (hl.tail.noClash rfl)
    | refused hn =>
      have hnone := refuse_session hsession hid hip hpatch
        (Tables.user_of_account (u := user.account) hmem)
      cases hnone.symm.trans hn
    | lost hfaults => cases hπ.symm.trans hfaults
  obtain ⟨_, _, rfl, _, _, h₃⟩ := jwtSign_bind h₂
  obtain ⟨_, _, rfl, _, _, h₄⟩ := jwtSign_bind h₃
  simp only [hP.extract_sign _ _ (show 0 < accessExpiresIn by decide),
    hP.extract_sign _ _ (show 0 < refreshExpiresIn by decide)] at h₄
  obtain ⟨_, _, _, rfl, _, _, h₅⟩ := encryptAesGcm_bind h₄
  rcases writeOr_run h₅ with ⟨_, _, rfl, _, _, _, h₆⟩ | ⟨e, s₃, _, _, _, hf, rfl⟩
  · obtain ⟨_, rfl, _⟩ := Runs.ended_inv (.ok _) h₆
    exact .ok _
  · cases hf with
    | duplicate hk _ =>
      cases List.mem_singleton.mp hk
      exact .badRequest _
    | refused hn =>
      cases hn.symm.trans (refuse_own_session rfl)
    | lost hfaults => cases hπ.symm.trans hfaults

end

/-- The first read of a sign-in. -/
theorem findLogin_bind {v : Value} {f : Option UserEntity → UserProg P α} {r : Except Exn α}
    (hπ : π.faults = false) (h : Runs A ((findLogin D v).bind f) s .empty l (.ended r) s' t') :
    ∃ e l₁, l = e :: l₁ ∧ A.grow s e.store ∧ A.inv e.store ∧
      (D.lookup e.store.db v = none ∨ ∃ found, D.lookup e.store.db v = some found ∧
        Runs A (f found) e.store (Tx.empty.opened e.store.db) l₁ (.ended r) s' t') := by
  unfold findLogin at h
  split at h
  · rename_i loginId htext
    rcases queryOr_bind h with ⟨s₁, l₁, rfl, hg, hi, h₁⟩ | hf
    swap
    · exact absurd hf (not_faulted hπ)
    rw [seen_empty] at h₁
    refine ⟨_, l₁, rfl, hg, hi, .inr ⟨_, ?_, h₁⟩⟩
    rw [Driver.lookup, htext]
    rfl
  · rename_i htext
    rw [Prog.bind_eq, Prog.bind_assoc] at h
    rcases queryOr_bind h with ⟨s₁, l₁, rfl, hg, hi, h₁⟩ | hf
    swap
    · exact absurd hf (not_faulted hπ)
    rw [seen_empty] at h₁
    refine ⟨_, l₁, rfl, hg, hi, ?_⟩
    rw [Driver.lookup, htext]
    change D.find v s₁.db.tUser = none ∨ ∃ found, D.find v s₁.db.tUser = some found ∧ _
    cases hfind : D.find v s₁.db.tUser with
    | none => exact .inl rfl
    | some found =>
      refine .inr ⟨found, rfl, ?_⟩
      dsimp only [Tables.ask] at h₁
      rw [hfind] at h₁
      exact h₁

theorem signIn_served (hP : P.Lawful) (hπ : π.faults = false)
    (hids : ∀ u ∈ d₀.tUser, u.userId.length ≤ 32) (hip : ∀ a ∈ ip, a.length ≤ 45)
    {r : Except Exn (UserSignInResultDto P)}
    (h : Runs (admissionRely π d₀) (signInBody D body ip) s .empty l (.ended r) s' t')
    (hl : Orderly l) (hsafe : ∀ e ∈ l, D.Safe e.store.db body) : Served r := by
  rw [signInBody, Prog.bind_eq] at h
  obtain ⟨e, l₁, rfl, _, hi₁, h₁⟩ := findLogin_bind hπ h
  obtain ⟨found, hfound, hbears⟩ := hsafe e List.mem_cons_self
  rcases h₁ with hno | ⟨found', hfound', h₁⟩
  · cases hno.symm.trans hfound
  cases hfound.symm.trans hfound'
  cases found with
  | none =>
    obtain ⟨_, rfl, _⟩ := Runs.ended_inv (.error _) h₁
    exact .badRequest _
  | some user =>
    have huser : user ∈ e.store.db.tUser := D.lookup_mem hfound
    have hmem : user.account ∈ e.store.db.accounts := account_mem huser
    have hid : TextFits 32 user.userId := Extends.id_fits hi₁ hids huser
    obtain ⟨pw, hpw, hdevice⟩ := hbears user rfl
    simp only [matchPassword, hpw, Prog.bind_eq, Prog.pure_eq, Prog.ret_bind] at h₁
    split at h₁
    · obtain ⟨_, rfl, _⟩ := Runs.ended_inv (.error _) h₁
      exact .badRequest _
    rename_i hno
    have hmatch : P.matchBcrypt pw user.loginPw = true := by simpa using hno
    rcases queryOr_bind h₁ with ⟨s₂, l₂, rfl, hg₂, hi₂, h₂⟩ | hf
    swap
    · exact absurd hf (not_faulted hπ)
    split at h₂
    · obtain ⟨_, rfl, _⟩ := Runs.ended_inv (.error _) h₂
      exact .badRequest _
    rename_i hno
    have hable : e.store.db.LoginAble user.stateId := by
      rw [Extends.parents hi₁ |>.loginAble, Tables.LoginAble, ← seen_states hi₂ hi₁]
      simpa [Tables.ask] using hno
    have hfits := hdevice hmatch hable
    split at h₂
    · refine openSession_served hP hπ h₂ hl.tail.tail (hg₂.subset hmem) hid hip ?_
      intro p hp
      cases hp
    rename_i os token hmobile
    obtain ⟨⟨p, hp, hpfits⟩, ⟨p', hp', hpfits'⟩⟩ := hfits _ hmobile
    rw [show D.updatePatch os token = some p from hp,
      show D.insertPatch os token = some p' from hp'] at h₂
    rcases writeOr_run h₂ with ⟨s₃, l₃, rfl, hg₃, _, _, h₃⟩ | ⟨e', s₃, _, _, _, hf, rfl⟩
    · refine openSession_served hP hπ h₃ hl.tail.tail.tail ((hg₂.trans hg₃).subset hmem) hid hip ?_
      rintro _ ⟨⟩
      exact hpfits'
    · cases hf with
      | duplicate hk _ => cases hk
      | refused hn => cases (refuse_device.mpr hpfits).symm.trans hn
      | lost hfaults => cases hπ.symm.trans hfaults

end

/-! ## Harmful requests fail -/

/-- The client is answered with the generic status 500. -/
def Exn.Internal (e : Exn) : Prop := (customErrorFilter e).statusCode = 500

instance : DecidablePred Exn.Internal :=
  fun e => inferInstanceAs (Decidable ((customErrorFilter e).statusCode = 500))

theorem Exn.Internal.not_served {e : Exn} (h : e.Internal) :
    ¬ Served (.error e : Except Exn α) := by
  intro hs
  have hstatus := hs e rfl
  rw [h] at hstatus
  exact absurd hstatus (by decide)

theorem Orderly.cons {e : Event (schema P)} {l : List (Event (schema P))} (he : Orderly [e])
    (hl : Orderly l) : Orderly (e :: l) where
  short h := by
    rcases List.mem_cons.mp h with rfl | h
    · exact he.short List.mem_cons_self
    · exact hl.short h
  noClash hk h := by
    rcases List.mem_cons.mp h with rfl | h
    · exact he.noClash hk List.mem_cons_self
    · exact hl.noClash hk h

theorem Orderly.query {q : UserQuery P} {x} {s : Store (schema P)} {t : Tx (schema P)} :
    Orderly [⟨.query q, x, s, t⟩] :=
  ⟨fun h => (by cases List.mem_singleton.mp h), fun _ h => by cases List.mem_singleton.mp h⟩

theorem Orderly.random {x : String} (hx : x.length ≤ 32) {s : Store (schema P)}
    {t : Tx (schema P)} : Orderly [⟨.random, x, s, t⟩] :=
  ⟨fun h => (by cases List.mem_singleton.mp h; exact hx),
    fun _ h => by cases List.mem_singleton.mp h⟩

theorem Orderly.write {w : UserWrite P} {x : Except (DbError (UserKey P)) Unit}
    (hx : ∀ k, x ≠ .error (.duplicate k)) {s : Store (schema P)} {t : Tx (schema P)} :
    Orderly [⟨.write w, x, s, t⟩] :=
  ⟨fun h => (by cases List.mem_singleton.mp h),
    fun _ h => by cases List.mem_singleton.mp h; exact hx _ rfl⟩

/-- While the others stand still, and whatever keys they hold, the program can end with `r`. Its
texts are drawn as they should be. -/
def Solo (π : Policy (schema P)) (s : Store (schema P)) (p : UserProg P α) (t : Tx (schema P))
    (r : Except Exn α) : Prop :=
  ∃ l t', Orderly l ∧ Plays π s (fun _ => true) p t l r t'

/-- A transaction that has read at most the present contents of `s`, and changed no row. -/
structure Present (s : Store (schema P)) (t : Tx (schema P)) : Prop where
  writes : t.writes = []
  snapshot : t.snapshot.getD s.db = s.db

section

variable {s : Store (schema P)} {t t' : Tx (schema P)} {l : List (Event (schema P))}
  {held : UserKey P → Bool} {body : SignInBody} {ip : Option String} {user : UserEntity}

theorem Present.empty : Present s Tx.empty := ⟨rfl, rfl⟩

theorem Present.opened (h : Present s t) : Present s (t.opened s.db) := by
  refine ⟨h.writes, ?_⟩
  rw [Tx.opened_snapshot, h.snapshot]
  rfl

theorem plays_query {q : UserQuery P} {f : q.Answer → UserProg P α} {a : q.Answer}
    {r : Except Exn α} (ht : Present s t) (ha : s.db.ask s.clock q = a)
    (h : Plays π s held (f a) (t.opened s.db) l r t') :
    Plays π s held ((queryOr m q).bind f) t (⟨.query q, .ok a, s, t⟩ :: l) r t' := by
  refine .op .proceed ?_ h
  rw [exec, Tx.view_nil ht.opened.writes, ht.opened.snapshot]
  cases π.isolation <;> simp [ha]

theorem plays_random {f : String → UserProg P α} {r : Except Exn α} {x : String} (hx : x ≠ "")
    (h : Plays π s held (f x) t l r t') :
    Plays π s held (randomText.bind f) t (⟨.random, x, s, t⟩ :: l) r t' :=
  .op (.pick x) (if_neg hx) h

theorem Solo.query {q : UserQuery P} {f : q.Answer → UserProg P α} {a : q.Answer}
    {r : Except Exn α} (ht : Present s t) (ha : s.db.ask s.clock q = a)
    (h : Solo π s (f a) (t.opened s.db) r) : Solo π s ((queryOr m q).bind f) t r := by
  obtain ⟨l, t', hl, h⟩ := h
  exact ⟨_, t', .cons .query hl, plays_query ht ha h⟩

theorem Solo.random {f : String → UserProg P α} {r : Except Exn α}
    (h : Solo π s (f "x") t r) : Solo π s (randomText.bind f) t r := by
  obtain ⟨l, t', hl, h⟩ := h
  exact ⟨_, t', .cons (.random (by decide)) hl, plays_random (by decide) h⟩

/-- A row change without keys, which nothing blocks. -/
theorem Solo.write {w : UserWrite P} {f : Unit → UserProg P α} {r : Except Exn α}
    (hw : w.keys = []) (hn : (t.onto s.db).refuse w = none)
    (h : Solo π s (f ()) { t with writes := t.writes ++ [w] } r) :
    Solo π s ((writeOr g w).bind f) t r := by
  obtain ⟨l, t', hl, h⟩ := h
  refine ⟨_, t', .cons (.write (x := .ok ()) fun k hk => ?_) hl, .op .proceed (if_pos ⟨hn, ?_⟩) h⟩
  · cases hk
  · simp [hw]

theorem Solo.refused {w : UserWrite P} {n : Nat} (hn : (t.onto s.db).refuse w = some n) :
    Solo π s (writeOr g w) t (.error (g (.refused n))) := by
  refine ⟨_, t, .write (w := w) (x := .error (.refused n)) fun k hk => ?_,
    .op .refuse ?_ (.ended (.error _))⟩
  · cases hk
  · simp [exec, hn]

theorem Solo.error (e : Exn) : Solo π s (throw e : UserProg P α) t (.error e) :=
  ⟨[], t, .nil, .ended (.error e)⟩

theorem Solo.bind_error {p : UserProg P α} {f : α → UserProg P β} {e : Exn}
    (h : Solo π s p t (.error e)) : Solo π s (p.bind f) t (.error e) := by
  obtain ⟨l, t', hl, h⟩ := h
  exact ⟨l, t', hl, h.bind_error⟩

theorem Solo.map {p : UserProg P α} {r : Except Exn α} (f : α → β) (h : Solo π s p t r) :
    Solo π s (p.bind fun a => .ret (f a)) t (r.map f) := by
  obtain ⟨l, t', hl, h⟩ := h
  exact ⟨l, t', hl, h.map f⟩

theorem ask_user_none {id : String} (now : Nat)
    (h : d.taken (.loginId (P.collate id)) = false) : d.ask now (.user ⟨id⟩) = none := by
  refine List.find?_eq_none.mpr ?_
  intro u hu
  have hno := List.any_eq_false.mp h u hu
  simpa [UserWhere.matches] using hno

theorem adminCreate_refused {n : Nat} (hpw : dto.loginPw = dto.loginPw2)
    (hlogin : s.db.taken (.loginId (P.collate dto.loginId)) = false)
    (hn : s.db.refuse (.insertUser (userRow P dto "x" "x")) = some n) :
    Solo π s (UserService.adminCreate dto) .empty (.error (insertError (P := P) (.refused n))) := by
  rw [UserService.adminCreate, if_neg (not_not.mpr hpw)]
  refine .query .empty (ask_user_none s.clock hlogin) ?_
  refine .random (.random ?_)
  exact .refused hn

theorem adminCreate_created (hH : P.HashFits) {u : UserEntity} (hu : Creatable s.db u) :
    ∃ dto l t, SentRequest.Admitted (.adminCreate dto) ∧
      Plays π s (fun _ => false) (UserService.adminCreate dto) .empty l (.ok ()) t ∧
      t.onto s.db = { s.db with tUser := s.db.tUser ++ [u] } := by
  cases hu with
  | @intro dto userId salt hvalid hpw hstorable hlogin hid hfits hne hsalt =>
    have hrefuse : s.db.refuse (.insertUser (userRow P dto userId salt)) = none :=
      (refuse_user_iff hH hvalid).mpr ⟨hstorable, hfits⟩
    have hfree : ∀ k ∈ UserWrite.keys (.insertUser (userRow P dto userId salt)),
        s.db.taken k = false := by
      intro k hk
      rcases List.mem_cons.mp hk with rfl | hk
      · exact hid
      · cases List.mem_singleton.mp hk
        exact hlogin
    have hwrite : Plays π s (fun _ => false) (UserRepository.insert (userRow P dto userId salt))
        (Tx.empty.opened s.db)
        [⟨.write (.insertUser (userRow P dto userId salt)), .ok (), s, Tx.empty.opened s.db⟩]
        (.ok ()) ⟨some s.db, [.insertUser (userRow P dto userId salt)]⟩ :=
      .op .proceed (if_pos ⟨hrefuse, fun k hk => ⟨hfree k hk, rfl⟩⟩) (.ended (.ok ()))
    have hplays : ∃ l, Plays π s (fun _ => false) (UserService.adminCreate dto) .empty l (.ok ())
        ⟨some s.db, [.insertUser (userRow P dto userId salt)]⟩ := by
      rw [UserService.adminCreate, if_neg (not_not.mpr hpw)]
      exact ⟨_, plays_query .empty (ask_user_none s.clock hlogin)
        (plays_random hne (plays_random hsalt hwrite))⟩
    obtain ⟨l, hplays⟩ := hplays
    exact ⟨dto, l, _, .adminCreate hvalid, hplays, rfl⟩

theorem insertError_internal (n : Nat) : (insertError (P := P) (.refused n)).Internal := by
  have hinsert : insertError (P := P) (.refused n) = internalServerErrorException
      "사용자 등록에 실패했습니다. 관리자에게 문의해주세요." :=
    if_neg (by simp [isDuplicate, sqlMessageNames])
  rw [hinsert]
  decide +kernel

theorem Solo.findLogin {v : Value} {f : Option UserEntity → UserProg P α}
    {found : Option UserEntity} {r : Except Exn α} (hfound : D.lookup s.db v = some found)
    (h : Solo π s (f found) (Tx.empty.opened s.db) r) :
    Solo π s ((UserService.findLogin D v).bind f) .empty r := by
  unfold UserService.findLogin
  unfold Driver.lookup at hfound
  split at hfound
  · exact .query .empty (Option.some.inj hfound) h
  · rw [Prog.bind_eq, Prog.bind_assoc]
    refine .query .empty rfl ?_
    dsimp only [Tables.ask]
    rw [hfound]
    exact h

theorem Solo.findLogin_refused {v : Value} {f : Option UserEntity → UserProg P α}
    (hfound : D.lookup s.db v = none) :
    Solo π s ((UserService.findLogin D v).bind f) .empty (.error findError) := by
  unfold UserService.findLogin
  unfold Driver.lookup at hfound
  split at hfound
  · cases hfound
  · rw [Prog.bind_eq, Prog.bind_assoc]
    refine .query .empty rfl ?_
    dsimp only [Tables.ask]
    rw [hfound]
    exact .error findError

theorem refuse_unfit_session {userId sessionId : String} {p : UserPatch} (h : ¬ p.Fits) :
    d.refuse (.insertSession (sessionRow userId sessionId (some p) ip)) = some 1406 := by
  refine if_pos ?_
  rw [← Bool.not_eq_false, tooLong_eq_false]
  intro hall
  refine h ⟨hall (some p.deviceOs, 20) ?_ _ rfl, hall (some p.deviceToken, 255) ?_ _ rfl⟩
  · simp [sessionRow, SessionEntity.columns]
  · simp [sessionRow, SessionEntity.columns]

/-- What a sign-in of the user with a device does once the user has passed. -/
def openDevice (D : Driver) (user : UserEntity) (os token : Value) (ip : Option String) :
    UserProg P (UserSignInResultDto P) :=
  match D.updatePatch os token with
  | none => throw updateError
  | some patch => do
    update user.userId patch
    match D.insertPatch os token with
    | some patch => openSession user (some patch) ip
    | none =>
      let _ ← randomText
      throw sessionError

theorem openDevice_unfit {os token : Value}
    (h : ¬ ((∃ p ∈ D.updatePatch os token, p.Fits) ∧ ∃ p ∈ D.insertPatch os token, p.Fits)) :
    ∃ e, Exn.Internal e ∧ Solo π s (openDevice D user os token ip) t (.error e) := by
  rw [openDevice]
  have hupdate : updateError.Internal := by decide +kernel
  have hsession : sessionError.Internal := by decide +kernel
  cases hp : D.updatePatch os token with
  | none => exact ⟨updateError, hupdate, .error _⟩
  | some p =>
    by_cases hfits : p.Fits
    swap
    · have hrefuse : (t.onto s.db).refuse (.updateUser user.userId p) ≠ none :=
        mt refuse_device.mp hfits
      obtain ⟨n, hn⟩ := Option.ne_none_iff_exists'.mp hrefuse
      exact ⟨updateError, hupdate, .bind_error (.refused hn)⟩
    refine ⟨sessionError, hsession, .write rfl (refuse_device.mpr hfits) ?_⟩
    cases hp' : D.insertPatch os token with
    | none => exact .random (.error _)
    | some p' =>
      have hno : ¬ p'.Fits := fun hfits' => h ⟨⟨p, hp, hfits⟩, p', hp', hfits'⟩
      exact .random (.bind_error (.refused (refuse_unfit_session hno)))

/-- A sign-in that a user has passed comes to the device. -/
theorem Solo.signIn_device {pw : String} {os token : Value}
    {r : Except Exn (UserSignInResultDto P)}
    (hfound : D.lookup s.db body.loginId = some (some user)) (hpw : body.loginPw.textOf = some pw)
    (hmatch : P.matchBcrypt pw user.loginPw = true) (hable : s.db.LoginAble user.stateId)
    (hmobile : body.mobile = some (os, token))
    (h : Solo π s (openDevice D user os token ip) (Tx.empty.opened s.db) r) :
    Solo π s (signInBody D body ip) .empty r := by
  rw [signInBody, Prog.bind_eq]
  refine .findLogin hfound ?_
  simp only [matchPassword, hpw, Prog.bind_eq, Prog.pure_eq, Prog.ret_bind, hmatch, Bool.not_true,
    Bool.false_eq_true, if_false]
  refine .query Present.empty.opened rfl ?_
  rw [Tables.LoginAble] at hable
  rw [if_neg (by simpa [Tables.ask] using hable), hmobile]
  exact h

/-- A sign-in with a password that is no text fails once its user is found. -/
theorem Solo.signIn_untextual (hfound : D.lookup s.db body.loginId = some (some user))
    (hpw : body.loginPw.textOf = none) :
    Solo π s (signInBody D body ip : UserProg P _) .empty
      (.error (.error "data must be a string or Buffer and hash must be a string")) := by
  rw [signInBody, Prog.bind_eq]
  refine .findLogin hfound ?_
  simp only [matchPassword, hpw]
  exact .error _

theorem signIn_unsafe (h : ¬ D.Safe s.db body) :
    ∃ e, Exn.Internal e ∧ Solo π s (signInBody D body ip) .empty (.error e) := by
  cases hfound : D.lookup s.db body.loginId with
  | none => exact ⟨findError, by decide +kernel, .findLogin_refused hfound⟩
  | some found =>
    obtain ⟨user, rfl, hbears⟩ : ∃ user, found = some user ∧ ¬ D.Bears s.db body user := by
      simpa [Driver.Safe, hfound] using h
    cases hpw : body.loginPw.textOf with
    | none => exact ⟨_, by decide +kernel, .signIn_untextual hfound hpw⟩
    | some pw =>
      simp only [Driver.Bears, hpw, Option.some.injEq, exists_eq_left', Classical.not_imp] at hbears
      obtain ⟨hmatch, hable, hdevice⟩ := hbears
      simp only [Driver.DeviceFits, not_forall] at hdevice
      obtain ⟨⟨os, token⟩, hmobile, hdevice⟩ := hdevice
      obtain ⟨e, he, hsolo⟩ := openDevice_unfit hdevice
      exact ⟨e, he, .signIn_device hfound hpw hmatch hable hmobile hsolo⟩

end

/-! ## All runs -/

/-- In every run from `s` each call of the request that has settled, and whose texts were drawn as
they should be, has ended in a success or a 4xx response. -/
def AlwaysServed (π : Policy (schema P)) (D : Driver) (s : Store (schema P)) (q : SentRequest) :
    Prop :=
  ∀ w : World (admittedService P D), (World.init s).Reaches π w → ∀ c ∈ w.calls, c.req.1 = q →
    Orderly c.trace → ∀ r, c.phase = .settled r → Served r

variable {s : Store (schema P)} {q : SentRequest}

theorem Solo.not_always {w : World (admittedService P D)} (hq : q.Admitted)
    (hw : (World.init s).Reaches π w) {e : Exn} (he : e.Internal)
    (h : Solo π w.toStore (serveSent D q) .empty (.error e)) : ¬ AlwaysServed π D s q := by
  obtain ⟨l, t, hl, h⟩ := h
  have hplays := World.plays (V := admittedService P D) (r := ⟨q, hq⟩) (fun _ _ => rfl) h
  intro hall
  exact he.not_served (hall _ (hw.trans hplays) _
    (List.mem_append_right _ (List.mem_singleton_self _)) rfl hl _ rfl)

/-- The tables of a run have grown by accounts of admitted requests. -/
theorem reaches_extends (hH : P.HashFits) {w : World (admittedService P D)}
    (hw : (World.init s).Reaches π w) : w.Sound (admissionRely π s.db) :=
  ((World.Sound.init (Extends.refl s.db)).reaches (admissionRely_keeps hH) hw).1

theorem AlwaysServed.of_harmless (hP : P.Lawful) (hH : P.HashFits) (hπ : π.faults = false)
    (hids : ∀ u ∈ s.db.tUser, u.userId.length ≤ 32) (h : Harmless π D s q) :
    AlwaysServed π D s q := by
  intro w hw c hc hreq hl r hr
  have hmet (e) (he : e ∈ c.trace) : ∃ w' : World (admittedService P D),
      (World.init s).Reaches π w' ∧ w'.toStore = e.store := World.met_store hw hc he
  obtain ⟨⟨q, hq⟩, l, phase⟩ := c
  cases hreq
  cases hr
  rcases (reaches_extends hH hw).calls _ hc with ⟨s₀, s₁, t, _, _, hrun, _⟩ | ⟨hfaults, _⟩
  swap
  · cases hπ.symm.trans hfaults
  cases hq with
  | adminCreate hdto =>
    obtain ⟨r, rfl, hrun⟩ := hrun.map_inv
    exact (adminCreate_served hH hπ hdto hrun hl h).map _
  | signIn hdto hip =>
    obtain ⟨r, rfl, hrun⟩ := hrun.map_inv
    refine (signIn_served hP hπ hids hip hrun hl ?_).map _
    intro e he
    obtain ⟨w', hw', hstore⟩ := hmet e he
    exact hstore ▸ h w' hw'

theorem adminCreate_harmless (hH : P.HashFits) (hdto : dto.validate = [])
    (h : AlwaysServed π D s (.adminCreate dto)) : Harmless π D s (.adminCreate dto) := by
  by_contra hno
  simp only [Harmless, not_or, ne_eq, not_not, Bool.not_eq_true] at hno
  obtain ⟨hpw, hlogin, hstorable⟩ := hno
  cases hn : s.db.refuse (.insertUser (userRow P dto "x" "x")) with
  | none => exact hstorable ((refuse_user_iff hH hdto).mp hn).1
  | some n =>
    have hsolo := (adminCreate_refused (π := π) hpw hlogin hn).map fun _ =>
      (UserReply.created : UserReply P)
    exact hsolo.not_always (w := World.init s) (.adminCreate hdto) ⟨[], rfl⟩
      (insertError_internal n) h

theorem signIn_harmless {body : SignInBody} {ip : Option String}
    (hq : SentRequest.Admitted (.signIn body ip)) (h : AlwaysServed π D s (.signIn body ip)) :
    Harmless π D s (.signIn body ip) := by
  intro w hw
  by_contra hno
  obtain ⟨e, he, hsolo⟩ := signIn_unsafe (π := π) (s := w.toStore) hno
  have hserve := hsolo.map fun reply => UserReply.signedIn reply
  exact hserve.not_always hq hw he h

/-! ## Texts -/

/-- A sign-in of texts does not fail for a user with whose state and password it is in order. -/
theorem bears_body {dto : UserSignInDto} {user : UserEntity} :
    D.Bears d dto.body user ↔ (P.matchBcrypt dto.loginPw user.loginPw = true →
      d.LoginAble user.stateId → dto.DeviceFits) := by
  have hdevice : D.DeviceFits dto.body ↔ dto.DeviceFits := by
    rw [Driver.DeviceFits, UserSignInDto.DeviceFits, dto.mobile_body]
    cases mobilePatch dto <;> simp [Driver.updatePatch, Driver.insertPatch, Value.textOf]
  simp [Driver.Bears, UserSignInDto.body, Value.textOf, ← hdevice]

theorem Extends.mayHold (h : Extends d₀ d) {id : String} {user : UserEntity}
    (hfind : d.tUser.find? (UserWhere.matches P ⟨id⟩) = some user) :
    MayHold d₀ id user.account := by
  obtain ⟨new, haccounts, hnew⟩ := h.accounts
  replace hfind : d.accounts.find? (P.collate ·.loginId = P.collate id) = some user.account := by
    rw [Tables.accounts, List.find?_map]
    exact Option.map_eq_some_iff.mpr ⟨user, hfind, rfl⟩
  rw [haccounts, List.find?_append] at hfind
  cases hold : d₀.accounts.find? (P.collate ·.loginId = P.collate id) with
  | some v =>
    rw [hold] at hfind
    exact .inl (hold.trans hfind)
  | none =>
    rw [hold, Option.none_or] at hfind
    have hlogin := List.find?_some hfind
    exact .inr ⟨hnew _ (List.mem_of_find?_eq_some hfind), of_decide_eq_true hlogin⟩

/-- An account that a login id may have is found in the tables of a run. -/
theorem MayHold.reaches (hH : P.HashFits) {id : String} {u : UserEntity}
    (h : MayHold s.db id u) : ∃ w : World (admittedService P D), (World.init s).Reaches π w ∧
      SameParents s.db w.db ∧ ∃ user, w.db.tUser.find? (UserWhere.matches P ⟨id⟩) = some user ∧
        user.account = u := by
  rcases h with hold | ⟨hnew, hlogin⟩
  · rw [Tables.accounts, List.find?_map] at hold
    exact ⟨World.init s, ⟨[], rfl⟩, .refl _, Option.map_eq_some_iff.mp hold⟩
  · -- the account is created first
    obtain ⟨dto, l, t, hq, hplays, hdb⟩ := adminCreate_created (π := π) hH hnew
    have hfree : s.db.taken (.loginId (P.collate u.loginId)) = false := by
      cases hnew with
      | intro _ _ _ hfree => exact hfree
    have hcreate := World.plays (V := admittedService P D) (w := World.init s)
      (r := ⟨_, hq⟩) (fun _ hk => absurd hk List.not_mem_nil)
      (hplays.map fun _ => UserReply.created)
    refine ⟨_, hcreate, ?_⟩
    change SameParents s.db (t.onto s.db) ∧ ∃ user, (t.onto s.db).tUser.find? _ = _ ∧ _
    rw [hdb]
    refine ⟨⟨rfl, rfl, rfl⟩, u, ?_, ?_⟩
    · have hnone : s.db.tUser.find? (UserWhere.matches P ⟨id⟩) = none := by
        rw [hlogin] at hfree
        exact ask_user_none s.clock hfree
      rw [List.find?_append, hnone, Option.none_or]
      exact List.find?_cons_of_pos (decide_eq_true hlogin)
    · cases hnew with
      | intro => rfl

theorem harmless_body (hH : P.HashFits) {dto : UserSignInDto} {ip : Option String} :
    Harmless π D s (.signIn dto.body ip) ↔ dto.DeviceFits ∨ ¬ MayLogIn s.db dto := by
  constructor
  · intro h
    rw [or_iff_not_imp_right, not_not]
    rintro ⟨u, hhold, hmatch, hable⟩
    obtain ⟨w, hw, hparents, user, huser, rfl⟩ := hhold.reaches (D := D) (π := π) hH
    obtain ⟨found, hfound, hbears⟩ := h w hw
    cases huser.symm.trans (Option.some.inj hfound)
    exact bears_body.mp (hbears user rfl) hmatch (hparents.loginAble.mpr hable)
  · intro h w hw
    have hext : Extends s.db w.db := (reaches_extends hH hw).inv
    refine ⟨_, rfl, ?_⟩
    intro user huser
    rw [bears_body]
    intro hmatch hable
    refine h.resolve_right (not_not.mpr ⟨user.account, hext.mayHold huser, hmatch, ?_⟩)
    exact hext.parents.loginAble.mp hable

/-- **Which admitted requests never become a server error**: those that violate no constraint that
validation leaves open. For a sign-in of texts that is read off the tables at the start. -/
theorem always_served_iff (hP : P.Lawful) (hH : P.HashFits) (hπ : π.faults = false)
    (hids : ∀ u ∈ s.db.tUser, u.userId.length ≤ 32) (hq : q.Admitted) :
    (AlwaysServed π D s q ↔ Harmless π D s q) ∧ ∀ dto ip, q = .signIn dto.body ip →
      (Harmless π D s q ↔ dto.DeviceFits ∨ ¬ MayLogIn s.db dto) := by
  refine ⟨⟨fun h => ?_, .of_harmless hP hH hπ hids⟩, ?_⟩
  · cases hq with
    | adminCreate hdto => exact adminCreate_harmless hH hdto h
    | signIn hdto hip => exact signIn_harmless (.signIn hdto hip) h
  · rintro dto ip rfl
    exact harmless_body hH

/-! ## Samples -/

/-- Symbolic primitives with hashes of at most 60 characters. -/
abbrev cropped : Crypto :=
  { symbolic with
    bcryptHash := fun salt s => String.ofList ((salt ++ "$" ++ s).toList.take 60)
    bcryptCompare := fun s h => h = String.ofList (("salt$" ++ s).toList.take 60) }

theorem cropped_lawful : cropped.Lawful := { symbolic_lawful with }

theorem cropped_fits : cropped.HashFits := by
  intro salt s
  change (String.ofList ((salt ++ "$" ++ s).toList.take 60)).length ≤ 100
  rw [← String.length_toList, String.toList_ofList, List.length_take]
  omega

/-- A database that refuses every value that is no text. -/
def textsOnly : Driver where
  find _ _ := none
  update _ _ := none
  insert _ _ := none
  find_mem h := by cases h

/-- A database with one kind of authority and nobody in it. -/
def freshStore : Store (schema cropped) where
  db := {
    tAuth := ["USER"], tPosition := [], tState := [⟨"ACTIVE", 1⟩]
    tUser := [], tSession := [], tSessionRefresh := [] }
  clock := 5000

/-- The request for a new member with the authority `authId`. -/
def memberDto (authId : String) : AdminUserCreateDto :=
  ⟨"member", "pw", "pw", "이름", "닉네임", authId, none⟩

theorem always_served_iff_sample : (memberDto "USER").validate = [] ∧
    (AlwaysServed (calm cropped .repeatableRead) textsOnly freshStore
        (.adminCreate (memberDto "USER")) ↔
      Harmless (calm cropped .repeatableRead) textsOnly freshStore
        (.adminCreate (memberDto "USER"))) ∧
    AlwaysServed (calm cropped .repeatableRead) textsOnly freshStore
      (.adminCreate (memberDto "USER")) := by
  have hvalid : (memberDto "USER").validate = [] := by decide +kernel
  have hiff := (always_served_iff (π := calm cropped .repeatableRead) (D := textsOnly)
    (s := freshStore) cropped_lawful cropped_fits rfl (fun _ hu => absurd hu List.not_mem_nil)
    (.adminCreate hvalid)).1
  refine ⟨hvalid, hiff, hiff.mpr (.inr (.inr ?_))⟩
  exact {
    auth := ⟨_, List.mem_singleton_self _, by decide +kernel⟩
    authFits := .of_length_le (by decide)
    state := ⟨_, List.mem_singleton_self _, rfl⟩
    position := fun _ hp => (Option.some_ne_none _ hp.symm).elim
    positionFits := fun _ hp => (Option.some_ne_none _ hp.symm).elim }

/-- An admitted request with an unknown authority ends in an internal server error. -/
theorem unknown_auth_fails : (memberDto "NOBODY").validate = [] ∧
    ∃ w : World (admittedService cropped textsOnly),
      (World.init freshStore).Reaches (calm cropped .repeatableRead) w ∧
      ∃ c ∈ w.calls, c.req.1 = .adminCreate (memberDto "NOBODY") ∧ Orderly c.trace ∧
        ∃ e, c.phase = .settled (.error e) ∧ (customErrorFilter e).statusCode = 500 := by
  have hvalid : (memberDto "NOBODY").validate = [] := by decide +kernel
  have hrefuse : freshStore.db.refuse
      (.insertUser (userRow cropped (memberDto "NOBODY") "x" "x")) = some 1452 := by decide +kernel
  obtain ⟨l, t, hl, hplays⟩ : Solo (calm cropped .repeatableRead) freshStore
      (serveSent textsOnly (.adminCreate (memberDto "NOBODY"))) .empty
      (.error (insertError (P := cropped) (.refused 1452))) :=
    (adminCreate_refused rfl rfl hrefuse).map fun _ => UserReply.created
  have hreaches := World.plays (V := admittedService cropped textsOnly) (w := World.init freshStore)
    (r := ⟨_, .adminCreate hvalid⟩) (fun _ _ => rfl) hplays
  refine ⟨hvalid, _, hreaches, _, List.mem_singleton_self _, rfl, hl, _, rfl, ?_⟩
  exact insertError_internal 1452

end NestHarness
