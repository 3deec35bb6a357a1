import NestHarness.Lib.TxnLive
import NestHarness.User.Queued

/-!
# Every request is answered

The methods of the service add accounts before sessions and sessions before refresh tokens, so their
transactions take unique keys in this order and never wait for one another in a circle. Behind the
queue, where the bodies of the jobs are such transactions, every dispatched request gets its answer.
-/

namespace NestHarness

open Txn UserRepository UserService

variable {P : Crypto} {π : Policy (schema P)}

/-! ## The order of the rows -/

/-- The place of a row's table in the order in which a method adds rows. -/
def UserKey.rank : UserKey P → Nat
  | .pkUser _ | .loginId _ => 0
  | .pkSession _ => 1
  | .refreshHash _ | .beforeRefreshHash _ => 2

/-- A program that takes its keys in order, from a transaction that holds some. -/
abbrev TakesInOrder {α : Type} (held : List (UserKey P)) (p : UserProg P α) : Prop :=
  p.wp (inOrder (S := schema P) UserKey.rank) (fun _ _ => True) held

theorem insertSessionRefresh_keys {r : SessionRefreshEntity P} {k : UserKey P}
    (hk : k ∈ (UserWrite.insertSessionRefresh r).keys) : k.rank = 2 := by
  rcases List.mem_cons.mp hk with rfl | hk
  · rfl
  · obtain ⟨h, _, rfl⟩ := Option.map_eq_some_iff.mp (Option.mem_toList.mp hk)
    rfl

section
variable {α : Type} {held : List (UserKey P)} {g : DbError (UserKey P) → Exn} {w : UserWrite P}

theorem writeOr_inOrder (hw : ∀ k ∈ w.keys, ∀ h ∈ held, h.rank < k.rank) :
    (writeOr g w).wp (inOrder (S := schema P) UserKey.rank)
      (fun held' r => r = .ok () → held' = held ++ w.keys) held := by
  refine ⟨?_, ?_⟩
  · rintro _ ⟨⟩
    exact hw
  · rintro x _ rfl
    cases x with
    | ok => exact fun _ => rfl
    | error e => exact nofun

theorem inOrder_write {f : Unit → UserProg P α} (hw : ∀ k ∈ w.keys, ∀ h ∈ held, h.rank < k.rank)
    (hf : TakesInOrder (held ++ w.keys) (f ())) : TakesInOrder held ((writeOr g w).bind f) := by
  refine Prog.wp_bind ((writeOr_inOrder hw).mono ?_)
  intro held' r hr
  cases r with
  | ok => exact hr rfl ▸ hf
  | error => trivial

end

/-! ## The methods -/

theorem openSession_inOrder (user : UserEntity) (patch : Option UserPatch) (ip : Option String) :
    TakesInOrder [] (openSession user patch ip : UserProg P _) := by
  refine inOrder_bind randomText_only fun sessionId => ?_
  refine inOrder_write (by simp) ?_
  refine inOrder_bind jwtSign_only fun access => inOrder_bind jwtSign_only fun refresh => ?_
  refine inOrder_bind ofExcept_only fun _ => inOrder_bind ofExcept_only fun _ => ?_
  refine inOrder_bind encryptAesGcm_only fun _ => inOrder_write ?_ trivial
  -- the key of the session is below those of its refresh token
  intro k hk h hh
  cases List.mem_singleton.mp hh
  rw [insertSessionRefresh_keys hk]
  exact Nat.one_lt_two

theorem adminCreate_inOrder (dto : AdminUserCreateDto) :
    TakesInOrder [] (UserService.adminCreate dto : UserProg P Unit) := by
  rw [UserService.adminCreate]
  split
  · trivial
  refine inOrder_bind queryOr_only fun user => ?_
  cases user with
  | some => trivial
  | none =>
    refine inOrder_bind randomText_only fun userId => inOrder_bind randomText_only fun salt => ?_
    exact (writeOr_inOrder (by simp)).mono fun _ _ _ => trivial

theorem signIn_inOrder (dto : UserSignInDto) (ip : Option String) :
    TakesInOrder [] (UserService.signIn dto ip : UserProg P _) := by
  refine inOrder_bind queryOr_only fun user => ?_
  cases user with
  | none => trivial
  | some user =>
    dsimp only
    split
    · trivial
    refine inOrder_bind queryOr_only fun state => ?_
    split
    · trivial
    cases mobilePatch dto with
    | none => exact openSession_inOrder ..
    | some patch => exact inOrder_bind (writeOr_only rfl) fun _ => openSession_inOrder ..

/-- A refresh inserts one row, and after that takes no more keys. -/
theorem refresh_inOrder (dto : UserRefreshDto P) (ip : Option String) :
    TakesInOrder [] (UserService.refresh dto ip) := by
  have hverify : (verifyRefresh dto).Only (E := effect (schema P))
      (Op.Writes fun w => UserWrite.keys w = []) := by
    refine dateNow_only.bind fun now => ?_
    split
    · trivial
    · trivial
    · split <;> trivial
  refine inOrder_bind hverify fun payload => inOrder_bind queryOr_only fun existing => ?_
  cases existing with
  | some rotated => exact (inOrder_of_only replyRotated_only).mono fun _ _ _ => trivial
  | none =>
    refine inOrder_bind validateAndLoadSession_only fun session => ?_
    refine inOrder_bind jwtSign_only fun access => inOrder_bind jwtSign_only fun refresh => ?_
    refine inOrder_bind ofExcept_only fun _ => inOrder_bind encryptAesGcm_only fun _ => ?_
    refine inOrder_then (Prog.wp_attempt ((writeOr_inOrder (by simp)).mono fun _ _ _ => trivial)) ?_
    intro inserted
    cases inserted with
    | ok => exact ofExcept_only.bind fun _ => trivial
    | error e =>
      dsimp only
      split
      · refine queryOr_only.bind fun winner => ?_
        cases winner with
        | none => trivial
        | some => exact replyRotated_only
      · trivial

theorem userService_inOrder : (userService P).InOrder UserKey.rank := by
  intro q
  cases q with
  | adminCreate dto => exact inOrder_then (adminCreate_inOrder dto) fun _ => trivial
  | signIn dto ip => exact inOrder_then (signIn_inOrder dto ip) fun _ => trivial
  | refresh dto ip => exact inOrder_then (refresh_inOrder dto ip) fun _ => trivial

/-! ## Every call settles -/

/-- **No call of the service waits for ever**: in every state of every run, however the running
calls go on from there, they all settle after finitely many of their steps, and as long as one is
running some call can take a step that no fault strikes. -/
theorem calls_settle {s₀ : Store (schema P)} {w : World (userService P)}
    {ls : List (Label (userService P))}
    (h : Run.exec (World.step π) (World.init s₀) ls = some w) :
    Run.Inevitable (World.step π) Label.Ready Label.Moves Label.Outside
      (fun w => ∀ c ∈ w.calls, c.Settled) w := by
  have hw : w.InOrder UserKey.rank :=
    Run.invariant (fun hw hs => World.InOrder.step userService_inOrder hw hs) h (.init s₀)
  exact hw.settles userService_inOrder

/-- Two exchanges of one token have come to their inserts, and the first has made its own. -/
def waitingLabels : List (Label (userService symbolic)) :=
  signInLabels 0 ++ [.tick 7000, .call (UserRequest.refresh ⟨sampleToken 5000⟩ none),
      .call (UserRequest.refresh ⟨sampleToken 5000⟩ none)] ++
    [.proceed, .proceed, .proceed, .proceed, .proceed, .proceed, .pick "iv"].map (.exec 1) ++
    [.proceed, .proceed, .proceed, .proceed, .proceed, .proceed, .pick "iw"].map (.exec 2) ++
    [.exec 1 .proceed]

def waitingWorld : World (userService symbolic) :=
  (Run.exec (World.step (calm symbolic .readCommitted)) (World.init (sampleStore 5000))
    waitingLabels).get rfl

/-- The second exchange has to wait for the first. -/
theorem calls_settle_sample :
    waitingWorld.blocked 2 (.beforeRefreshHash (sampleToken 5000)) = true ∧
    Run.Inevitable (World.step (calm symbolic .readCommitted)) Label.Ready Label.Moves Label.Outside
      (fun w => ∀ c ∈ w.calls, c.Settled) waitingWorld :=
  ⟨rfl, calls_settle (Option.some_get _).symm⟩

/-! ## Every request is answered -/

namespace UserQueue

variable {json : UserReply P → Json} {s s' : UserQueue P} {Pr : Process} {s₀ : Store (schema P)}

/-- The process, its worker or a body goes on, and no fault strikes it. -/
def Event.Ready : Event P → Prop
  | .dispatch _ | .take _ | .finish _ => True
  | .service l => l.Ready
  | .startup | .request _ => False

/-- The process, its worker or a body goes on, or a body dies. -/
def Event.Moves : Event P → Prop
  | .dispatch _ | .take _ | .finish _ => True
  | .service l => l.Moves
  | .startup | .request _ => False

/-- The clock ticks, or the database is edited from outside. -/
def Event.Outside : Event P → Prop
  | .service l => l.Outside
  | .startup | .request _ | .dispatch _ | .take _ | .finish _ => False

/-- Every dispatched request has its answer, and no call of the service is left running. -/
def Answered (s : UserQueue P) : Prop :=
  (∀ Pr : Process, s.ledger.deployment.processes 0 = some Pr → ∀ d < Pr.dispatches.length,
    ∃ o, (d, o) ∈ s.ledger.results) ∧ ∀ c ∈ s.world.calls, c.Settled

/-- Every event that is not the process's own is a step of the database. -/
theorem step_world {e : Event P} (hs : step π json s e = some s') :
    s'.world = s.world ∨ ∃ l, s.world.step π l = some s'.world := by
  cases e with
  | startup | dispatch =>
    obtain ⟨ledger, _, rfl⟩ := Option.map_eq_some_iff.mp hs
    exact .inl rfl
  | request q =>
    simp only [UserQueue.step] at hs
    split at hs
    swap
    · cases hs
    split at hs
    · obtain ⟨ledger, _, rfl⟩ := Option.map_eq_some_iff.mp hs
      exact .inl rfl
    · obtain ⟨world, hw, rfl⟩ := Option.map_eq_some_iff.mp hs
      exact .inr ⟨_, hw⟩
  | take i =>
    obtain ⟨ledger, _, htake⟩ := Option.bind_eq_some_iff.mp hs
    rcases take_cases htake with ⟨_, rfl⟩ | ⟨e, q, world, _, _, hw, rfl⟩
    · exact .inl rfl
    · exact .inr ⟨_, hw⟩
  | service l =>
    cases l with
    | call q => cases hs
    | exec | finish | crash | tick | edit =>
      obtain ⟨world, hw, rfl⟩ := Option.map_eq_some_iff.mp hs
      exact .inr ⟨_, hw⟩
  | finish job =>
    simp only [UserQueue.step, Option.bind_eq_bind, Option.bind_eq_some_iff] at hs
    obtain ⟨c, _, r, _, ledger, _, hs⟩ := hs
    cases hs
    exact .inl rfl

/-- A step of a running call, as an event of the process. -/
theorem step_service {l : Label (userService P)} (hl : ∀ q, l ≠ .call q)
    {world : World (userService P)} :
    step π json s (.service l) = some { s with world } ↔ s.world.step π l = some world := by
  have hstep : step π json s (.service l) =
      (s.world.step π l).map fun world => { s with world } := by
    cases l with
    | call q => exact absurd rfl (hl q)
    | exec | finish | crash | tick | edit => rfl
  rw [hstep, Option.map_eq_some_iff]
  constructor
  · rintro ⟨world', hw, heq⟩
    cases heq
    exact hw
  · intro hw
    exact ⟨world, hw, rfl⟩

/-! ### Some step is left -/

/-- A worker that takes a job can call its body. -/
theorem Linked.take_ready (h : s.Linked json Pr) {i : Nat} {ledger : Ledger}
    (hs : s.ledger.step Ledger.userService (.take i) = some ledger) :
    ∃ s', step π json s (.take i) = some s' := by
  have htake : (s.take π i ledger).isSome := by
    obtain ⟨Pr', hkept, _⟩ := h.kept.step hs
    obtain rfl : Pr' = Pr := h.kept.process_eq hkept (Ledger.step_take hs)
    have hexec := (Ledger.step_books hs).1
    rw [UserQueue.take]
    cases he : s.ledger.starting i with
    | none => rfl
    | some e =>
      have hmem : e ∈ ledger.executions := by
        rw [hexec, Ledger.Event.begun, he]
        exact List.mem_append_right _ List.mem_cons_self
      obtain ⟨d, _, hof⟩ := hkept.execution e hmem
      obtain ⟨_, _, q, _, _, _, hq⟩ := h.ofJob hof
      simp [hq, World.step]
  obtain ⟨s', hs'⟩ := Option.isSome_iff_exists.mp htake
  exact ⟨s', Option.bind_eq_some_iff.mpr ⟨ledger, hs, hs'⟩⟩

/-- A worker whose body has ended can finish the job. -/
theorem Linked.finish_ready (h : s.Linked json Pr) (hsettled : ∀ c ∈ s.world.calls, c.Settled)
    {j : Nat} {outcome : Except Exn Json} {ledger : Ledger}
    (hs : s.ledger.step Ledger.userService (.finish j outcome) = some ledger) :
    ∃ s', step π json s (.finish j) = some s' := by
  obtain ⟨deployment, hdep, _⟩ := Option.map_eq_some_iff.mp hs
  obtain ⟨job, hjob, hdep⟩ := Option.bind_eq_some_iff.mp hdep
  split at hdep
  swap
  · cases hdep
  rename_i p i handler hactive
  have hstarted : j ∈ s.ledger.executions.map (·.job) :=
    (h.kept.progress h.started.nodup).started j job hjob (hactive ▸ rfl)
  -- the body of the job is the call that its execution has made
  have hsome : (s.ledger.executions.findIdx? (·.job = j)).isSome := by
    obtain ⟨e, he, hej⟩ := List.mem_map.mp hstarted
    rw [List.findIdx?_isSome, List.any_eq_true]
    exact ⟨e, he, decide_eq_true hej⟩
  obtain ⟨k, hk⟩ := Option.isSome_iff_exists.mp hsome
  obtain ⟨hlt, _⟩ := List.findIdx?_eq_some_iff_getElem.mp hk
  have hb := List.getElem?_eq_getElem (h.length.symm ▸ hlt)
  obtain ⟨q, hq, _⟩ := h.body k _ _ (List.getElem?_eq_getElem hlt) hb
  rw [List.getElem?_map] at hq
  obtain ⟨c, hc, _⟩ := Option.map_eq_some_iff.mp hq
  obtain ⟨r, hr⟩ := hsettled c (List.mem_of_getElem? hc)
  have hcall : s.callOf j = some c := by
    simp only [callOf, hk, hb, Option.bind_eq_bind, Option.bind_some, hc]
  have houtcome : c.outcome = some r := by
    rw [Call.outcome, hr]
  have hfinish : (s.ledger.step Ledger.userService (.finish j (r.map json))).isSome := by
    simp [Ledger.step, Ledger.Event.toDeployment, Deployment.step, hjob, hactive]
  obtain ⟨ledger', hledger'⟩ := Option.isSome_iff_exists.mp hfinish
  refine ⟨{ s with ledger := ledger' }, ?_⟩
  simp only [UserQueue.step, hcall, houtcome, hledger', Option.bind_eq_bind, Option.bind_some]
  rfl

/-- Short of the answers some step is left: of a running call, or of the process and its worker. -/
theorem Linked.ready (h : s.Linked json Pr) (hw : s.world.InOrder UserKey.rank)
    (hno : ¬s.Answered) : ∃ e s', Event.Ready e ∧ step π json s e = some s' := by
  by_contra hstuck
  have hnone (e : Event P) (he : e.Ready) : step π json s e = none := by
    rw [Option.eq_none_iff_forall_ne_some]
    intro s' hs'
    exact hstuck ⟨e, s', he, hs'⟩
  have hsettled : ∀ c ∈ s.world.calls, c.Settled := by
    by_contra hrun
    obtain ⟨l, world, hl, hworld⟩ := hw.ready (π := π) hrun
    have hcall : ∀ q, l ≠ .call q := by
      rintro q rfl
      exact hl
    exact hstuck ⟨.service l, _, hl, (step_service hcall).mpr hworld⟩
  have hrest : s.ledger.AtRest Ledger.userService := by
    intro e he
    rw [Option.eq_none_iff_forall_ne_some]
    intro ledger hs
    cases e with
    | load | startup | call => cases he
    | dispatch d =>
      have hstep := hnone (.dispatch d) trivial
      rw [UserQueue.step, hs] at hstep
      cases hstep
    | take i =>
      obtain ⟨s', hs'⟩ := h.take_ready (π := π) hs
      cases (hnone (.take i) trivial).symm.trans hs'
    | finish j outcome =>
      obtain ⟨s', hs'⟩ := h.finish_ready (π := π) hsettled hs
      cases (hnone (.finish j) trivial).symm.trans hs'
  refine hno ⟨?_, hsettled⟩
  intro Pr' hPr' d hd
  cases h.kept.process.symm.trans hPr'
  obtain ⟨_, r, _, _, _, hresult⟩ :=
    (h.kept.drained h.started.nodup hrest).settled d _ (List.getElem?_eq_getElem hd)
  exact ⟨_, hresult⟩

/-! ### Finitely many steps are left -/

/-- What the process and the calls of the service still have to do. -/
def left (s : UserQueue P) : Nat × Multiset (Phase (userService P)) :=
  ((s.ledger.deployment.processes 0).elim 0 s.ledger.left, s.world.left)

theorem Linked.left_ledger (h : s.Linked json Pr) {e : Ledger.Event} (he : e.work = true)
    {ledger : Ledger} (hs : s.ledger.step Ledger.userService e = some ledger) :
    (ledger.deployment.processes 0).elim 0 ledger.left < s.left.1 := by
  obtain ⟨Pr', hkept, hlt⟩ := h.kept.left_step he hs
  rw [left, hkept.process, h.kept.process]
  exact hlt

/-- The less that is left to the process, the less is left; a running call leaves the process
alone. -/
theorem Linked.left_move (h : s.Linked json Pr) {e : Event P} (he : e.Moves)
    (hs : step π json s e = some s') :
    Prod.Lex (· < ·) (Relation.CutExpand Phase.Next) s'.left s.left := by
  cases e with
  | startup | request => cases he
  | dispatch d =>
    obtain ⟨ledger, hledger, rfl⟩ := Option.map_eq_some_iff.mp hs
    exact .left _ _ (h.left_ledger rfl hledger)
  | take i =>
    obtain ⟨ledger, hledger, htake⟩ := Option.bind_eq_some_iff.mp hs
    rcases take_cases htake with ⟨_, rfl⟩ | ⟨e, q, world, _, _, _, rfl⟩
    · exact .left _ _ (h.left_ledger rfl hledger)
    · exact .left _ _ (h.left_ledger rfl hledger)
  | service l =>
    have hl : l.Moves := he
    cases l with
    | call | tick | edit => cases hl
    | exec | finish | crash =>
      obtain ⟨world, hw, rfl⟩ := Option.map_eq_some_iff.mp hs
      exact .right _ (World.left_move hl hw)
  | finish job =>
    simp only [UserQueue.step, Option.bind_eq_bind, Option.bind_eq_some_iff] at hs
    obtain ⟨c, _, r, _, ledger, hledger, hs⟩ := hs
    cases hs
    exact .left _ _ (h.left_ledger rfl hledger)

theorem left_outside {e : Event P} (he : e.Outside) (hs : step π json s e = some s') :
    s'.left = s.left := by
  cases e with
  | startup | request | dispatch | take | finish => cases he
  | service l =>
    have hl : l.Outside := he
    cases l with
    | call | exec | finish | crash => cases hl
    | tick | edit =>
      obtain ⟨world, hw, rfl⟩ := Option.map_eq_some_iff.mp hs
      rw [left, left, World.left, World.left, World.left_outside hl hw]

/-- **Every request is answered**: from every state of every run of the process, its queue and its
database, when no more requests come, each dispatched request has got its answer and each call of
the service has settled after finitely many steps, however they are interleaved; and until then some
step is enabled that no fault strikes. -/
theorem answered (hP : P.Lawful) {ls : List (Event P)}
    (h : Run.exec (step π json) (start s₀) ls = some s) :
    Run.Inevitable (step π json) Event.Ready Event.Moves Event.Outside Answered s := by
  have hstep {s e s'} (hs : s.Inv π json s₀ ∧ s.world.InOrder UserKey.rank)
      (h : step π json s e = some s') : s'.Inv π json s₀ ∧ s'.world.InOrder UserKey.rank := by
    refine ⟨hs.1.step hP h, ?_⟩
    rcases step_world h with heq | ⟨l, hl⟩
    · exact heq ▸ hs.2
    · exact hs.2.step userService_inOrder hl
  have hinv : s.Inv π json s₀ ∧ s.world.InOrder UserKey.rank :=
    Run.invariant hstep h ⟨.start s₀, .init s₀⟩
  refine Run.inevitable (I := fun s => s.Inv π json s₀ ∧ s.world.InOrder UserKey.rank)
    (WellFounded.prod_lex Nat.lt_wfRel.wf Phase.Next.wf.cutExpand) left ?_ ?_ ?_ hinv
  · intro s e s' hs he h
    exact ⟨hstep hs h, left_outside he h⟩
  · intro s e s' hs he h
    obtain ⟨Pr, hlinked⟩ := hs.1.linked
    exact ⟨hstep hs h, hlinked.left_move he h⟩
  · intro s hs hno
    obtain ⟨Pr, hlinked⟩ := hs.1.linked
    exact hlinked.ready hs.2 hno

/-- The first of two jobs has been taken, and its body has begun. -/
def begunState : UserQueue symbolic :=
  (Run.exec (step (calm symbolic .repeatableRead) fun _ => .null) (start (sampleStore 5000))
    (turnLabels.take 13)).get (by decide +kernel)

theorem answered_sample :
    (begunState.ledger.deployment.processes 0).map (·.dispatches.length) = some 2 ∧
    begunState.ledger.results.map (·.1) = [] ∧
    Run.Inevitable (step (calm symbolic .repeatableRead) fun _ => .null) Event.Ready Event.Moves
      Event.Outside Answered begunState :=
  ⟨by decide +kernel, by decide +kernel, answered symbolic_lawful (Option.some_get _).symm⟩

end UserQueue

end NestHarness
