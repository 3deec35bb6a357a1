import NestHarness.User.Exchange
import NestHarness.User.Rotation

/-!
# Lost rotation races

What a refresh of a usable token answers when another exchange of the same token is committed before
its insert: under `readCommitted` the insert's failure is recognised unless MySQL names the key of
the new token, and under `repeatableRead` the winner is never seen.
-/

namespace NestHarness

open Txn

variable {P : Crypto} {π : Policy (schema P)} {w : World (userService P)}

/-- MySQL has named the key of the exchanged token. -/
def NamesParent (e : DbError (UserKey P)) : Prop := ∃ k, e = .duplicate (.beforeRefreshHash k)

/-- How a settled refresh of a token that stayed usable has ended. -/
theorem Reachable.usableEnd (hP : P.Lawful) (hπ : π.faults = false) (h : Reachable π w)
    {c : Call (userService P)} (hc : c ∈ w.calls) (hreq : c.req = .refresh ⟨token⟩ ip)
    (hset : c.phase = .settled r) (hu : ∀ e ∈ c.trace, Usable e.store.db e.store.clock token ip)
    (htok : token = refreshTokenAt P userId sid issued) :
    ∃ r₀, r = r₀.map .refreshed ∧ UsableEnd (userRely π) token userId sid c.trace r₀ := by
  obtain ⟨req, l, phase⟩ := c
  cases hreq
  cases hset
  rcases (h.sound hP).calls _ hc with ⟨s₀, s₁, t, _, hi, hrun, _, _⟩ | ⟨hf, _⟩
  swap
  · exact absurd (hπ.symm.trans hf) Bool.false_ne_true
  obtain ⟨r₀, rfl, hrun⟩ := hrun.map_inv
  obtain ⟨u, s, ⟨at_, ht⟩, hend⟩ := refresh_usable .rfl hP hπ hrun hi hu
  obtain ⟨rfl, rfl, _⟩ := hP.sign_refresh_inj (htok.symm.trans ht)
  exact ⟨r₀, rfl, hend⟩

instance (d : Tables P) (sid : String) (now : Nat) : Decidable (Issued d sid now) :=
  inferInstanceAs (Decidable (∃ r ∈ d.tSessionRefresh, _))

/-! ## Sample races -/

/-- Two refreshes of the token signed at 5000: the first signs the next token at 7000, the second at
`later`; the first commits, and the insert of the second fails by the key `k`. -/
def raceLabels (later : Nat) (k : UserKey symbolic) (rest : List (Choice (schema symbolic))) :
    List (Label (userService symbolic)) :=
  signInLabels 0 ++ [.tick 7000, .call (UserRequest.refresh ⟨sampleToken 5000⟩ none),
      .call (UserRequest.refresh ⟨sampleToken 5000⟩ none)] ++
    [.proceed, .proceed, .proceed, .proceed, .proceed, .proceed, .pick "iv"].map (.exec 1) ++
    [.proceed, .proceed, .proceed, .proceed].map (.exec 2) ++ [.tick later] ++
    [.proceed, .proceed, .pick "iv"].map (.exec 2) ++
    [.exec 1 .proceed, .finish 1, .exec 2 (.name k)] ++ rest.map (.exec 2) ++ [.finish 2]

/-- The second of the racing calls. -/
def racer (isolation : Isolation) (later : Nat) (k : UserKey symbolic)
    (rest : List (Choice (schema symbolic))) : Option (Call (userService symbolic)) :=
  (Run.exec (World.step (calm symbolic isolation)) (World.init (sampleStore 5000))
    (raceLabels later k rest)).bind (·.calls[2]?)

/-- Both tokens are signed in one second, and MySQL names the key of the token. -/
def clashedCall : Call (userService symbolic) :=
  (racer .readCommitted 7000 (.refreshHash (sampleToken 7000)) []).get rfl

/-- Both tokens are signed in one second, and MySQL names the key of the parent. -/
def recognisedCall : Call (userService symbolic) :=
  (racer .readCommitted 7000 (.beforeRefreshHash (sampleToken 5000))
    [.proceed, .proceed, .proceed, .proceed]).get rfl

/-- The two tokens differ, and reads are taken from the snapshot. -/
def unseenCall : Call (userService symbolic) :=
  (racer .repeatableRead 8000 (.beforeRefreshHash (sampleToken 5000)) [.proceed]).get rfl

/-! ## Recognising a lost insert -/

/-- **A lost insert is recognised** under `readCommitted` exactly when no token of the session was
issued in the second of the new token, or MySQL names the key of the exchanged token. Otherwise the
call ends in the error for a duplicate token. -/
theorem lost_insert_iff (hP : P.Lawful) (hπ : π.faults = false)
    (hiso : π.isolation = .readCommitted) (h : Reachable π w) {c : Call (userService P)}
    (hc : c ∈ w.calls) (hreq : c.req = .refresh ⟨token⟩ ip) (hset : c.phase = .settled r)
    (htok : token = refreshTokenAt P userId sid issued)
    (hu : ∀ e ∈ c.trace, Usable e.store.db e.store.clock token ip)
    (hnow : (clocks c.trace)[2]? = some now) {x : Change (schema P)} (hx : x ∈ changes c.trace)
    (hlost : x.ans = .error e) :
    ((∃ reply, r = .ok (.refreshed reply) ∧ Answered x.store.db token reply) ↔
      (Issued x.store.db sid now → NamesParent e)) ∧
    (r = .error (badRequestException { message := "중복된 refresh token 이 존재합니다." }) ↔
      ¬ (Issued x.store.db sid now → NamesParent e)) := by
  obtain ⟨r₀, rfl, hend⟩ := h.usableEnd hP hπ hc hreq hset hu htok
  cases hend with
  | replayed _ hch =>
    rw [hch] at hx
    cases hx
  | inserted hf =>
    obtain ⟨iv, hch⟩ := hf.change
    rw [hch, List.mem_singleton] at hx
    cases hx
    cases hlost
  | clashed hf hiss =>
    obtain ⟨iv, hch⟩ := hf.change
    rw [hch, List.mem_singleton] at hx
    have hans : x.ans = _ := congrArg Change.ans hx
    have hstore : x.store = _ := congrArg Change.store hx
    cases hf.clock.symm.trans hnow
    have hcond : ¬ (Issued x.store.db sid now → NamesParent e) := by
      intro hc
      obtain ⟨_, rfl⟩ := hc (hstore ▸ hiss)
      cases hans.symm.trans hlost
    refine ⟨⟨?_, fun hc => absurd hc hcond⟩, fun _ => hcond, fun _ => ?_⟩
    · rintro ⟨_, hok, _⟩
      cases hok
    · simp [Except.map, UserRepository.sessionRefreshError, isDuplicate, errno, sqlMessageNames,
        UserKey.constraintName]
  | unseen _ _ hiso' => cases hiso.symm.trans hiso'
  | lost hf hans =>
    obtain ⟨iv, hch⟩ := hf.change
    rw [hch, List.mem_singleton] at hx
    have hxa : x.ans = _ := congrArg Change.ans hx
    have hstore : x.store = _ := congrArg Change.store hx
    have hcond : Issued x.store.db sid now → NamesParent e :=
      fun _ => ⟨_, Except.error.inj (hlost.symm.trans hxa)⟩
    refine ⟨⟨fun _ => hcond, fun _ => ⟨_, rfl, hstore ▸ hans⟩⟩, ?_, fun hc => absurd hcond hc⟩
    intro herr
    cases herr

/-- A call that has lost its insert to a committed child, and whose token is usable throughout, ends
in the error for a duplicate token. -/
theorem lost_insert_clashed : ∃ w, Reachable (calm symbolic .readCommitted) w ∧ ∃ c ∈ w.calls,
    c.req = .refresh ⟨sampleToken 5000⟩ none ∧
    (∀ e ∈ c.trace, Usable e.store.db e.store.clock (sampleToken 5000) none) ∧
    (∃ x ∈ changes c.trace, x.ans = .error (.duplicate (.refreshHash (sampleToken 7000))) ∧
      Rotated x.store.db (sampleToken 5000)) ∧
    c.phase = .settled
      (.error (badRequestException { message := "중복된 refresh token 이 존재합니다." })) := by
  obtain ⟨w, hw, hc⟩ := Reachable.of_call (c := clashedCall) (sampleStore 5000) _ 2 rfl rfl
    (Option.some_get _).symm
  exact ⟨w, hw, clashedCall, hc, rfl, by decide +kernel, ⟨_, List.mem_cons_self, rfl,
    by decide +kernel⟩, rfl⟩

/-- The lost insert of `recognisedCall`. -/
def recognisedChange : Change (schema symbolic) := (changes recognisedCall.trace).head?.get rfl

theorem lost_insert_iff_sample : ∃ w, Reachable (calm symbolic .readCommitted) w ∧
    recognisedCall ∈ w.calls ∧ recognisedChange ∈ changes recognisedCall.trace ∧
    Issued recognisedChange.store.db "s" 7000 ∧
    ∃ reply, recognisedCall.phase = .settled (.ok (.refreshed reply)) ∧
      Answered recognisedChange.store.db (sampleToken 5000) reply := by
  obtain ⟨w, hw, hc⟩ := Reachable.of_call (c := recognisedCall) (sampleStore 5000) _ 2 rfl rfl
    (Option.some_get _).symm
  have hx : recognisedChange ∈ changes recognisedCall.trace :=
    List.mem_of_mem_head? (Option.some_get _).symm
  have hlost : recognisedChange.ans =
      .error (.duplicate (.beforeRefreshHash (sampleToken 5000))) := rfl
  have hu : ∀ e ∈ recognisedCall.trace,
      Usable e.store.db e.store.clock (sampleToken 5000) none := by decide +kernel
  have hnow : (clocks recognisedCall.trace)[2]? = some 7000 := rfl
  have hset : ∃ r, recognisedCall.phase = .settled r := ⟨_, rfl⟩
  obtain ⟨r, hset⟩ := hset
  obtain ⟨reply, rfl, ha⟩ := (lost_insert_iff symbolic_lawful rfl rfl hw hc rfl hset rfl hu hnow hx
    hlost).1.mpr fun _ => ⟨_, rfl⟩
  exact ⟨w, hw, hc, hx, by decide +kernel, reply, hset, ha⟩

/-! ## Answering a lost exchange -/

/-- **A refresh under `repeatableRead` succeeds** exactly when its insert, if it makes one, meets
neither a successor of the token nor a token of the session issued in the second of the new one. A
call that meets a successor only ends in the error that the service takes for recognised. -/
theorem exchange_iff (hP : P.Lawful) (hπ : π.faults = false)
    (hiso : π.isolation = .repeatableRead) (h : Reachable π w) {c : Call (userService P)}
    (hc : c ∈ w.calls) (hreq : c.req = .refresh ⟨token⟩ ip) (hset : c.phase = .settled r)
    (htok : token = refreshTokenAt P userId sid issued)
    (hu : ∀ e ∈ c.trace, Usable e.store.db e.store.clock token ip) :
    ((∃ reply, r = .ok (.refreshed reply)) ↔ ∀ x ∈ changes c.trace,
      ¬ Rotated x.store.db token ∧
        ∀ now, (clocks c.trace)[2]? = some now → ¬ Issued x.store.db sid now) ∧
    ((∃ e, r = .error e ∧ e.errorCode = some "REFRESH_ALREADY_ROTATED") ↔
      ∃ x ∈ changes c.trace, ∃ e, x.ans = .error e ∧ NamesParent e) := by
  obtain ⟨r₀, rfl, hend⟩ := h.usableEnd hP hπ hc hreq hset hu htok
  cases hend with
  | replayed _ hch => simp [hch, Except.map]
  | inserted hf hrot hiss =>
    obtain ⟨iv, hch⟩ := hf.change
    simp [hch, hf.clock, hrot, hiss, Except.map]
  | clashed hf hiss =>
    obtain ⟨iv, hch⟩ := hf.change
    simp [hch, hf.clock, hiss, Except.map, NamesParent, sessionRefreshError_rotated]
  | unseen hf hrot =>
    obtain ⟨iv, hch⟩ := hf.change
    simp [hch, hrot, Except.map, NamesParent, sessionRefreshError_rotated]
  | lost _ _ hiso' => cases hiso.symm.trans hiso'

/-- Two exchanges of one token whose next tokens differ: the first is committed before the second
inserts, and the second ends in the error that is meant to be recognised. -/
theorem exchange_unseen : ∃ w, Reachable (calm symbolic .repeatableRead) w ∧ ∃ c ∈ w.calls,
    c.req = .refresh ⟨sampleToken 5000⟩ none ∧
    (∀ e ∈ c.trace, Usable e.store.db e.store.clock (sampleToken 5000) none) ∧
    (∃ x ∈ changes c.trace, Rotated x.store.db (sampleToken 5000) ∧ ¬ Issued x.store.db "s" 8000) ∧
    (clocks c.trace)[2]? = some 8000 ∧
    ∃ e, c.phase = .settled (.error e) ∧ e.errorCode = some "REFRESH_ALREADY_ROTATED" := by
  obtain ⟨w, hw, hc⟩ := Reachable.of_call (c := unseenCall) (sampleStore 5000) _ 2 rfl rfl
    (Option.some_get _).symm
  exact ⟨w, hw, unseenCall, hc, rfl, by decide +kernel, ⟨_, List.mem_cons_self,
    by decide +kernel, by decide +kernel⟩, rfl, _, rfl, rfl⟩

theorem exchange_iff_sample : ∃ w, Reachable (calm symbolic .repeatableRead) w ∧ ∃ c ∈ w.calls,
    c.req = .refresh ⟨sampleToken 5000⟩ none ∧
    ¬ ∃ reply, c.phase = .settled (.ok (.refreshed reply)) := by
  obtain ⟨w, hw, hc⟩ := Reachable.of_call (c := unseenCall) (sampleStore 5000) _ 2 rfl rfl
    (Option.some_get _).symm
  refine ⟨w, hw, unseenCall, hc, rfl, fun ⟨reply, hr⟩ => ?_⟩
  have := (exchange_iff symbolic_lawful rfl rfl hw hc rfl hr rfl (by decide +kernel)).1.mp ⟨_, rfl⟩
  exact (this _ List.mem_cons_self).1 (by decide +kernel)

end NestHarness
