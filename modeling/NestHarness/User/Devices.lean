import NestHarness.User.Revocation

/-!
# The device of an account

A sign-in from a mobile device writes the device twice: into the row of the account and into the
session it opens. The account therefore always carries the device of its latest session that was
opened with one, whatever the sign-ins were interleaved with; deleting that session does not take
the device back.
-/

namespace NestHarness

open Txn UserService

variable {P : Crypto} {π : Policy (schema P)} {A : Rely π}

def UserEntity.device (u : UserEntity) : Option String × Option String :=
  (u.deviceOs, u.deviceToken)

def SessionEntity.device (r : SessionEntity) : Option String × Option String :=
  (r.deviceOs, r.deviceToken)

/-- The session is one of the user, and was opened with a device. -/
def SessionEntity.IsMobileOf (r : SessionEntity) (userId : String) : Prop :=
  r.userId = userId ∧ r.deviceToken.isSome = true

instance (userId : String) (r : SessionEntity) : Decidable (r.IsMobileOf userId) :=
  inferInstanceAs (Decidable (_ ∧ _))

/-- The device of the user's latest session that was opened with one. -/
def Tables.lastDevice (d : Tables P) (userId : String) : Option String × Option String :=
  match (d.tSession.filter (·.IsMobileOf userId)).getLast? with
  | some r => r.device
  | none => (none, none)

/-- Every session is one of an account, and an account has the device of its latest session with
one. -/
structure Tables.Mirrored (d : Tables P) : Prop where
  owner : ∀ r ∈ d.tSession, ∃ u ∈ d.tUser, u.userId = r.userId
  device : ∀ u ∈ d.tUser, u.device = d.lastDevice u.userId

/-! ## The latest session -/

section
variable {d d' : Tables P} {r : SessionEntity}

theorem lastDevice_append (h : d'.tSession = d.tSession ++ [r]) (userId : String) :
    d'.lastDevice userId = if r.IsMobileOf userId then r.device else d.lastDevice userId := by
  rw [Tables.lastDevice, h, List.filter_append]
  split_ifs with hr
  · rw [List.filter_singleton, decide_eq_true hr, cond_true, List.getLast?_concat]
  · rw [List.filter_singleton, decide_eq_false hr, cond_false, List.append_nil]
    rfl

/-- An edit of the sessions that keeps users and devices. -/
theorem lastDevice_map {f : SessionEntity → SessionEntity}
    (hf : ∀ r, (f r).userId = r.userId ∧ (f r).device = r.device)
    (h : d'.tSession = d.tSession.map f) (userId : String) :
    d'.lastDevice userId = d.lastDevice userId := by
  have hmobile (r : SessionEntity) : (f r).IsMobileOf userId ↔ r.IsMobileOf userId := by
    have htoken : (f r).deviceToken = r.deviceToken := congrArg Prod.snd (hf r).2
    rw [SessionEntity.IsMobileOf, SessionEntity.IsMobileOf, (hf r).1, htoken]
  have hfilter : d.tSession.filter ((fun r => decide (r.IsMobileOf userId)) ∘ f) =
      d.tSession.filter (·.IsMobileOf userId) :=
    List.filter_congr fun r _ => decide_eq_decide.mpr (hmobile r)
  rw [Tables.lastDevice, Tables.lastDevice, h, List.filter_map, hfilter, List.getLast?_map]
  cases (d.tSession.filter (·.IsMobileOf userId)).getLast? with
  | none => rfl
  | some r => exact (hf r).2

theorem lastDevice_eq_none (h : ∀ r ∈ d.tSession, r.userId ≠ userId) :
    d.lastDevice userId = (none, none) := by
  have hnone : d.tSession.filter (·.IsMobileOf userId) = [] := by
    refine List.filter_eq_nil_iff.mpr ?_
    intro r hr hmobile
    exact h r hr (of_decide_eq_true hmobile).1
  rw [Tables.lastDevice, hnone]
  rfl

end

/-! ## What the row changes keep -/

namespace Tables.Mirrored

variable {d : Tables P}

theorem initial (hs : d.tSession = []) (hu : ∀ u ∈ d.tUser, u.device = (none, none)) :
    d.Mirrored where
  owner := by simp [hs]
  device u hmem := by
    rw [hu u hmem, lastDevice_eq_none]
    simp [hs]

theorem edit (h : d.Mirrored) (e : UserEdit) : (d.edit e).Mirrored := by
  obtain ⟨id⟩ := e
  have hf (r : SessionEntity) :
      (if r.sessionId = id then { r with isDelete := 1 } else r).userId = r.userId ∧
        (if r.sessionId = id then { r with isDelete := 1 } else r).device = r.device := by
    split <;> exact ⟨rfl, rfl⟩
  constructor
  · intro r hr
    obtain ⟨r', hr', rfl⟩ := List.mem_map.mp hr
    obtain ⟨u, hu, hid⟩ := h.owner r' hr'
    exact ⟨u, hu, hid.trans (hf r').1.symm⟩
  · intro u hu
    exact (h.device u hu).trans (lastDevice_map hf rfl u.userId).symm

/-- A new account has an id of its own, so that no session is there before it. -/
theorem insertUser (h : d.Mirrored) {u : UserEntity} (hu : u.device = (none, none))
    (hnew : d.taken (.pkUser u.userId) = false) : (d.apply (.insertUser u)).Mirrored := by
  have hid : ∀ u' ∈ d.tUser, u'.userId ≠ u.userId := by simpa [Tables.taken] using hnew
  constructor
  · intro r hr
    obtain ⟨u', hu', hr'⟩ := h.owner r hr
    exact ⟨u', List.mem_append_left _ hu', hr'⟩
  · intro u' hu'
    rcases List.mem_append.mp hu' with hu' | hu'
    · exact h.device u' hu'
    · cases List.mem_singleton.mp hu'
      refine hu.trans (lastDevice_eq_none ?_).symm
      intro r hr he
      obtain ⟨u', hu', hr'⟩ := h.owner r hr
      exact hid u' hu' (hr'.trans he)

/-- A sign-in writes its device into the account and into the session, or into neither. -/
theorem signIn (h : d.Mirrored) {userId sessionId : String} {patch : Option UserPatch}
    {ip : Option String} (huser : ∃ u ∈ d.tUser, u.userId = userId) :
    (((patch.map (UserWrite.updateUser userId)).toList.foldl Tables.apply d).apply
      (.insertSession (sessionRow userId sessionId patch ip))).Mirrored := by
  cases patch with
  | none =>
    constructor
    · intro r hr
      rcases List.mem_append.mp hr with hr | hr
      · exact h.owner r hr
      · cases List.mem_singleton.mp hr
        exact huser
    · intro u hu
      have hnone : ¬ (sessionRow userId sessionId none ip).stored.IsMobileOf u.userId := by
        rw [sessionRow_stored]
        simp [SessionEntity.IsMobileOf, sessionRow]
      rw [lastDevice_append rfl, if_neg hnone]
      exact h.device u hu
  | some p =>
    have hid (u : UserEntity) :
        (if u.userId = userId then p.stored.apply u else u).userId = u.userId := by
      split <;> rfl
    constructor
    · intro r hr
      obtain ⟨u, hu, hr'⟩ : ∃ u ∈ d.tUser, u.userId = r.userId := by
        rcases List.mem_append.mp hr with hr | hr
        · exact h.owner r hr
        · cases List.mem_singleton.mp hr
          exact huser
      exact ⟨_, List.mem_map_of_mem hu, (hid u).trans hr'⟩
    · intro u hu
      obtain ⟨u₀, hu₀, rfl⟩ := List.mem_map.mp hu
      rw [lastDevice_append (d := d) rfl, hid]
      by_cases hown : u₀.userId = userId
      · rw [if_pos hown, if_pos ⟨hown.symm, rfl⟩]
        rfl
      · rw [if_neg hown, if_neg fun hmobile => hown hmobile.1.symm]
        exact h.device u₀ hu₀

theorem refresh (h : d.Mirrored) {ws : List (UserWrite P)}
    (hws : ∀ c ∈ ws, ∃ r, c = .insertSessionRefresh r) : (ws.foldl Tables.apply d).Mirrored := by
  induction ws generalizing d with
  | nil => exact h
  | cons c ws ih =>
    obtain ⟨r, rfl⟩ := hws c List.mem_cons_self
    exact ih ⟨h.owner, h.device⟩ fun c hc => hws c (List.mem_cons_of_mem _ hc)

end Tables.Mirrored

/-! ## Runs -/

/-- What sign-ins rely on: accounts stay, and their devices are those of the sessions. -/
def deviceRely (π : Policy (schema P)) : Rely π where
  inv s := s.db.Mirrored
  grow := (accountRely π).grow
  refl := (accountRely π).refl
  trans := (accountRely π).trans
  tick h _ := ⟨h, List.prefix_rfl, .refl _⟩
  edit h _ := ⟨h.edit _, List.prefix_rfl, rfl, rfl, rfl⟩

theorem deviceRely_keeps (hP : P.Lawful) : (deviceRely π).Keeps (userService P) := by
  intro q a s₀ s l t hi₀ hi h hf
  have hgrow : (deviceRely π).grow s { s with db := t.onto s.db } :=
    ⟨⟨_, (accounts_onto t s.db).1.symm⟩, (accounts_onto t s.db).2⟩
  refine ⟨?_, hgrow⟩
  have hrun : Runs (deviceRely π) (serveUser q) s₀ .empty l (.ended (.ok a)) s t := h
  change (t.onto s.db).Mirrored
  cases q with
  | adminCreate dto =>
    obtain ⟨_ | _, he, hcreate⟩ := hrun.map_inv <;> cases he
    obtain ⟨userId, salt, _, hw⟩ := adminCreate_ok hcreate
    have honto : t.onto s.db = s.db.apply (.insertUser (userRow P dto userId salt)) := by
      simp [Tx.onto, hw]
    have hnew : s.db.taken (.pkUser userId) = false :=
      hf.2 (.pkUser userId) (by simp [Tx.keys, hw, UserWrite.keys, userRow])
    rw [honto]
    exact hi.insertUser rfl hnew
  | signIn dto ip =>
    obtain ⟨_ | result, he, hsign⟩ := hrun.map_inv <;> cases he
    obtain ⟨user, sid, hin⟩ := signIn_checked hP hsign
    obtain ⟨iv, now, hw, _⟩ := hin.writes
    obtain ⟨a, hga, hmem⟩ := hin.found
    -- the account was found in an earlier state, and accounts stay
    obtain ⟨u, hu, haccount⟩ := List.mem_map.mp (hga.1.subset (account_mem hmem))
    have hid : u.account.userId = user.account.userId := congrArg UserEntity.userId haccount
    have hsigned : (((((mobilePatch dto).map
        (UserWrite.updateUser user.userId)).toList.foldl Tables.apply s.db).apply
        (.insertSession (sessionRow user.userId sid (mobilePatch dto) ip)))).Mirrored :=
      hi.signIn ⟨u, hu, hid⟩
    have honto : t.onto s.db = (((((mobilePatch dto).map
        (UserWrite.updateUser user.userId)).toList.foldl Tables.apply s.db).apply
        (.insertSession (sessionRow user.userId sid (mobilePatch dto) ip))).apply
        (.insertSessionRefresh (tokenRow P user.userId sid none iv now))) := by
      rw [Tx.onto, hw, List.foldl_append]
      rfl
    rw [honto]
    exact ⟨hsigned.owner, hsigned.device⟩
  | refresh dto ip =>
    obtain ⟨_ | _, he, href⟩ := hrun.map_inv <;> cases he
    refine hi.refresh ?_
    intro c hc
    have honly : (UserService.refresh dto ip).Only
        (Op.Writes fun c : UserWrite P => ∃ r, c = .insertSessionRefresh r) :=
      refresh_only fun r => ⟨r, rfl⟩
    rcases href.writes honly c hc with hc | hc
    · cases hc
    · exact hc

/-- **The device of an account is that of its latest mobile sign-in**, both of its columns, whatever
calls have been interleaved and whether or not the session has been deleted since. -/
theorem devices_mirrored (hP : P.Lawful) {s : Store (schema P)} (hs : s.db.Mirrored)
    {w : World (userService P)} (h : (World.init s).Reaches π w) :
    ∀ u ∈ w.db.tUser, u.device = w.db.lastDevice u.userId := by
  have hsound : w.Sound (deviceRely π) := ((World.Sound.init hs).reaches (deviceRely_keeps hP) h).1
  exact hsound.inv.device

/-- Two devices sign in at once; the second session is deleted, and a browser signs in. -/
def deviceLabels : List (Label (userService symbolic)) :=
  let mobile : List (Choice (schema symbolic)) := [.proceed, .proceed, .pick "iv", .proceed]
  [.call (UserRequest.signIn ⟨"id", "pw", some "ios", some "a"⟩ none),
    .call (UserRequest.signIn ⟨"id", "pw", some "android", some "b"⟩ none),
    .exec 0 .proceed, .exec 1 .proceed, .exec 1 .proceed, .exec 0 .proceed, .exec 0 .proceed,
    .exec 0 (.pick "s"), .exec 0 .proceed] ++ mobile.map (.exec 0) ++ [.finish 0,
    .exec 1 .proceed, .exec 1 (.pick "t"), .exec 1 .proceed] ++ mobile.map (.exec 1) ++
    [.finish 1, .edit (.deleteSession "t"),
      .call (UserRequest.signIn ⟨"id", "pw", none, none⟩ none)] ++
    [.proceed, .proceed, .pick "u", .proceed, .proceed, .proceed, .pick "iv", .proceed].map
      (.exec 2) ++ [.finish 2]

def deviceWorld : World (userService symbolic) :=
  (Run.exec (World.step editing) (World.init (sampleStore 5000)) deviceLabels).get
    (by decide +kernel)

theorem devices_mirrored_sample : deviceWorld.db.tSession.length = 3 ∧
    deviceWorld.db.tUser.map (·.device) = [(some "android", some "b")] ∧
    ∀ u ∈ deviceWorld.db.tUser, u.device = deviceWorld.db.lastDevice u.userId :=
  ⟨by decide +kernel, by decide +kernel,
    devices_mirrored symbolic_lawful (s := sampleStore 5000) (.initial rfl (by simp [sampleStore,
      UserEntity.device])) ⟨deviceLabels, (Option.some_get _).symm⟩⟩

end NestHarness
