import NestHarness.Queue.Registry

/-!
# Handlers of taken jobs

A consumer's map of handlers holds just the methods that the same process has dispatched to it since
its start. Jobs outlive processes, so a worker can take a job its process has not dispatched yet.
-/

namespace NestHarness

/-- The consumer a dispatch has constructed or been given. -/
def DispatchState.index : DispatchState → Option Nat
  | .called | .ensured => none
  | .connecting i | .got i | .accepted i _ | .settled i => some i

theorem DispatchState.index_of_consumer {st : DispatchState} (h : st.consumer = some i) :
    st.index = some i := by
  cases st <;> first | exact h | cases h

namespace Process

/-- A dispatch of the method has got the consumer `i` from `getOrCreate`. -/
def Dispatched (P : Process) (i : Nat) (method : UseQueueMethod) : Prop :=
  ∃ c ∈ P.dispatches, c.method = method ∧ c.state.consumer = some i

instance (P : Process) (i : Nat) (method : UseQueueMethod) : Decidable (P.Dispatched i method) :=
  inferInstanceAs (Decidable (∃ c ∈ P.dispatches, _ ∧ _))

/-- The key a consumer was constructed for. -/
def keyOf (P : Process) (i : Nat) : Option String := P.built[i]?.map (·.consumerKey)

structure Inv (P : Process) : Prop where
  stored : ∀ key i, P.consumers.lookup key = some i → P.keyOf i = some key
  starting : ∀ n key i, P.startup = .connecting n key i → P.keyOf i = some key
  called : ∀ c ∈ P.dispatches, ∀ i, c.state.index = some i → P.keyOf i = some c.method.consumerKey
  handlers : ∀ i c, P.built[i]? = some c → ∀ jobKey,
    (c.handlers.lookup jobKey).isSome ↔ P.Dispatched i ⟨c.consumerKey, jobKey⟩

variable {P P' : Process} {i j d n : Nat} {key jobKey : String} {c : Dispatch} {st : DispatchState}
  {method : UseQueueMethod} {handler : JobHandler}

theorem Inv.start (methods : List UseQueueMethod) : (start methods).Inv where
  stored _ _ h := by cases h
  starting _ _ _ h := by cases h
  called _ h := by cases h
  handlers _ _ h := by cases h

theorem keyOf_lt (h : P.keyOf i = some key) : i < P.built.length := by
  obtain ⟨c, hc, _⟩ := Option.map_eq_some_iff.mp h
  exact (List.getElem?_eq_some_iff.mp hc).1

theorem mem_setState (hc : P.dispatches[d]? = some c) {c' : Dispatch} :
    c' ∈ (P.setState d st).dispatches ↔
      (∃ k, k ≠ d ∧ P.dispatches[k]? = some c') ∨ c' = { c with state := st } := by
  simp only [setState, List.mem_iff_getElem?, List.getElem?_modify]
  constructor
  · rintro ⟨k, hk⟩
    obtain ⟨c₀, hc₀, rfl⟩ := Option.map_eq_some_iff.mp hk
    by_cases hkd : d = k
    · subst hkd
      cases hc.symm.trans hc₀
      exact .inr (if_pos rfl)
    · rw [if_neg hkd]
      exact .inl ⟨k, Ne.symm hkd, hc₀⟩
  · rintro (⟨k, hk, hc'⟩ | rfl)
    · exact ⟨k, by simp [hc', Ne.symm hk]⟩
    · exact ⟨d, by simp [hc]⟩

/-- A step of a dispatch keeps what the others, and its own earlier steps, have got. -/
theorem dispatched_setState (hc : P.dispatches[d]? = some c)
    (hst : ∀ i, c.state.consumer = some i → st.consumer = some i) :
    (P.setState d st).Dispatched i method ↔
      P.Dispatched i method ∨ c.method = method ∧ st.consumer = some i := by
  simp only [Dispatched, mem_setState hc]
  constructor
  · rintro ⟨c', ⟨k, _, hk⟩ | rfl, hm, hi⟩
    · exact .inl ⟨c', List.mem_of_getElem? hk, hm, hi⟩
    · exact .inr ⟨hm, hi⟩
  · rintro (⟨c', hc', hm, hi⟩ | ⟨hm, hi⟩)
    · obtain ⟨k, hk⟩ := List.mem_iff_getElem?.mp hc'
      by_cases hkd : k = d
      · subst hkd
        cases hc.symm.trans hk
        exact ⟨_, .inr rfl, hm, hst i hi⟩
      · exact ⟨c', .inl ⟨k, hkd, hk⟩, hm, hi⟩
    · exact ⟨_, .inr rfl, hm, hi⟩

/-- The synchronous part of `ensureConsumer` keeps everything and may add an empty consumer. -/
theorem ensureConsumer_cases (P : Process) (key : String) :
    (P.ensureConsumer key = (P, none) ∧ (P.consumers.lookup key).isSome) ∨
      P.consumers.lookup key = none ∧ P.ensureConsumer key =
        ({ P with built := P.built ++ [⟨key, []⟩] }, some P.built.length) := by
  unfold ensureConsumer
  split
  · next h => exact .inl ⟨rfl, h⟩
  · next h => exact .inr ⟨Option.not_isSome_iff_eq_none.mp h, rfl⟩

theorem keyOf_append (h : P.keyOf i = some key) (cs : List ConsumerSet) :
    keyOf { P with built := P.built ++ cs } i = some key := by
  rw [keyOf, List.getElem?_append_left (keyOf_lt h)]
  exact h

theorem Inv.construct (h : P.Inv) (key : String) :
    Inv { P with built := P.built ++ [⟨key, []⟩] } where
  stored k i hk := keyOf_append (h.stored k i hk) _
  starting n k i hk := keyOf_append (h.starting n k i hk) _
  called c hc i hi := keyOf_append (h.called c hc i hi) _
  handlers i c hi jobKey := by
    by_cases hlt : i < P.built.length
    · rw [List.getElem?_append_left hlt] at hi
      exact h.handlers i c hi jobKey
    · have hlen := (List.getElem?_eq_some_iff.mp hi).1
      simp only [List.length_append, List.length_singleton] at hlen
      obtain rfl : i = P.built.length := by omega
      simp only [List.getElem?_concat_length, Option.some.injEq] at hi
      subst hi
      refine ⟨nofun, ?_⟩
      rintro ⟨c, hc, _, hi⟩
      exact absurd (keyOf_lt (h.called c hc _ (DispatchState.index_of_consumer hi)))
        (Nat.lt_irrefl _)

theorem Inv.store (h : P.Inv) (hi : P.keyOf i = some key) : (P.store key i).Inv where
  stored k j hk := by
    simp only [Process.store, List.lookup_cons] at hk
    split at hk
    · next heq =>
      cases hk
      rwa [eq_of_beq heq]
    · exact h.stored k j hk
  starting := h.starting
  called := h.called
  handlers := h.handlers

theorem Inv.setStartup (h : P.Inv) {startup : StartupState}
    (hi : ∀ n key i, startup = .connecting n key i → P.keyOf i = some key) :
    Inv { P with startup } where
  stored := h.stored
  starting := hi
  called := h.called
  handlers := h.handlers

theorem Inv.load (h : P.Inv) (method : UseQueueMethod) :
    Inv { P with methods := P.methods ++ [method] } where
  stored := h.stored
  starting := h.starting
  called := h.called
  handlers := h.handlers

theorem Inv.call (h : P.Inv) (method : UseQueueMethod) (handler : JobHandler) (args : List Json) :
    Inv { P with dispatches := P.dispatches ++ [⟨method, handler, args, .called⟩] } where
  stored := h.stored
  starting := h.starting
  called c hc i hi := by
    rcases List.mem_append.mp hc with hc | hc
    · exact h.called c hc i hi
    · cases List.mem_singleton.mp hc
      cases hi
  handlers i c hi jobKey := by
    rw [h.handlers i c hi jobKey, Dispatched, Dispatched]
    simp [DispatchState.consumer, or_and_right, exists_or]

/-- A step of a dispatch between two awaits that does not touch the handlers. -/
theorem Inv.setState (h : P.Inv) (hc : P.dispatches[d]? = some c)
    (hconsumer : st.consumer = c.state.consumer)
    (hindex : ∀ i, st.index = some i → P.keyOf i = some c.method.consumerKey) :
    (P.setState d st).Inv where
  stored := h.stored
  starting := h.starting
  called c' hc' i hi := by
    rcases (mem_setState hc).mp hc' with ⟨k, _, hk⟩ | rfl
    · exact h.called c' (List.mem_of_getElem? hk) i hi
    · exact hindex i hi
  handlers i c' hi jobKey := by
    rw [dispatched_setState hc fun i hi => hconsumer.trans hi, h.handlers i c' hi jobKey]
    refine (or_iff_left_of_imp ?_).symm
    rintro ⟨hm, hi⟩
    exact ⟨c, List.mem_of_getElem? hc, hm, hconsumer.symm.trans hi⟩

theorem getElem?_setHandler : (P.setHandler i jobKey handler).built[j]? = P.built[j]?.map fun c =>
    if i = j then { c with handlers := (jobKey, handler) :: c.handlers } else c := by
  simp only [setHandler, List.getElem?_modify]
  rfl

theorem keyOf_setHandler : (P.setHandler i jobKey handler).keyOf j = P.keyOf j := by
  rw [keyOf, getElem?_setHandler, keyOf, Option.map_map]
  congr 1
  funext c
  simp only [Function.comp]
  split <;> rfl

/-- `getOrCreate` registers the handler of its own call. -/
theorem Inv.getOrCreate (h : P.Inv) (hc : P.dispatches[d]? = some c)
    (hconsumer : c.state.consumer = none)
    (hi : P.consumers.lookup c.method.consumerKey = some i) :
    ((P.setHandler i c.method.jobKey c.handler).setState d (.got i)).Inv where
  stored k j hk := keyOf_setHandler.trans (h.stored k j hk)
  starting n k j hk := keyOf_setHandler.trans (h.starting n k j hk)
  called c' hc' j hj := by
    refine keyOf_setHandler.trans ?_
    rcases (mem_setState (P := P.setHandler i _ _) hc).mp hc' with ⟨k, _, hk⟩ | rfl
    · exact h.called c' (List.mem_of_getElem? hk) j hj
    · cases hj
      exact h.stored _ _ hi
  handlers j c' hj name := by
    have hdispatched : ((P.setHandler i c.method.jobKey c.handler).setState d (.got i)).Dispatched j
        ⟨c'.consumerKey, name⟩ ↔ P.Dispatched j ⟨c'.consumerKey, name⟩ ∨
          c.method = ⟨c'.consumerKey, name⟩ ∧ some i = some j :=
      dispatched_setState (P := P.setHandler i _ _) hc (by simp [hconsumer])
    obtain ⟨c₀, hc₀, heq⟩ := Option.map_eq_some_iff.mp (getElem?_setHandler.symm.trans hj)
    rw [hdispatched]
    by_cases hij : i = j
    · subst hij
      rw [if_pos rfl] at heq
      subst heq
      have hkey : c₀.consumerKey = c.method.consumerKey := by
        obtain ⟨c₁, hc₁, hkey⟩ := Option.map_eq_some_iff.mp (h.stored _ _ hi)
        cases hc₀.symm.trans hc₁
        exact hkey
      rw [← h.handlers i c₀ hc₀, hkey, List.lookup_cons]
      by_cases hname : name = c.method.jobKey
      · subst hname
        simp
      · rw [beq_eq_false_iff_ne.mpr hname]
        refine (or_iff_left ?_).symm
        rintro ⟨hm, _⟩
        exact hname (congrArg UseQueueMethod.jobKey hm).symm
    · rw [if_neg hij] at heq
      subst heq
      rw [h.handlers j c₀ hc₀]
      simp [hij]

theorem keyOf_construct (P : Process) (key : String) :
    keyOf { P with built := P.built ++ [⟨key, []⟩] } P.built.length = some key := by
  simp [keyOf]

/-- A step of `onModuleInit` goes on in its loop, constructs a consumer, or stores the one it has
constructed. -/
theorem onModuleInit_cases (h : P.onModuleInit = some P') :
    (∃ m startup, P.startup = .next m ∧ (∀ n key i, startup ≠ .connecting n key i) ∧
      P' = { P with startup }) ∨
    (∃ n key, P.startup = .next n ∧ P.registeredKeys[n]? = some key ∧
      P.consumers.lookup key = none ∧
      P' = { P with
        built := P.built ++ [⟨key, []⟩], startup := .connecting n key P.built.length }) ∨
    (∃ n key i, P.startup = .connecting n key i ∧
      P' = { P.store key i with startup := .next (n + 1) }) := by
  unfold Process.onModuleInit at h
  split at h
  · next n hn =>
    split at h
    · cases h
      exact .inl ⟨n, .done, hn, nofun, rfl⟩
    · next key hkey =>
      rcases ensureConsumer_cases P key with ⟨he, _⟩ | ⟨hnone, he⟩
      · rw [he] at h
        cases h
        exact .inl ⟨n, .next (n + 1), hn, nofun, rfl⟩
      · rw [he] at h
        cases h
        exact .inr (.inl ⟨n, key, hn, hkey, hnone, rfl⟩)
  · next n key i hs =>
    cases h
    exact .inr (.inr ⟨n, key, i, hs, rfl⟩)
  · cases h

theorem Inv.onModuleInit (h : P.Inv) (hP : P.onModuleInit = some P') : P'.Inv := by
  obtain ⟨_, _, _, hs, rfl⟩ | ⟨n, key, _, _, _, rfl⟩ | ⟨n, key, i, hs, rfl⟩ :=
    onModuleInit_cases hP
  · refine h.setStartup ?_
    intro n key i hn
    exact absurd hn (hs n key i)
  · refine (h.construct key).setStartup ?_
    rintro _ _ _ ⟨⟩
    exact keyOf_construct P key
  · exact (h.store (h.starting _ _ _ hs)).setStartup nofun

end Process

/-- What a dispatch can do next: the process afterwards, with the state it was in. -/
inductive DispatchMove (jobs : List Job) (P : Process) (d : Nat) (c : Dispatch) : Process → Prop
  | found : c.state = .called → (P.consumers.lookup c.method.consumerKey).isSome →
    DispatchMove jobs P d c (P.setState d .ensured)
  | construct : c.state = .called → P.consumers.lookup c.method.consumerKey = none →
    DispatchMove jobs P d c
      (Process.setState { P with built := P.built ++ [⟨c.method.consumerKey, []⟩] } d
        (.connecting P.built.length))
  | store {i : Nat} : c.state = .connecting i →
    DispatchMove jobs P d c ((P.store c.method.consumerKey i).setState d .ensured)
  | get {i : Nat} : c.state = .ensured → P.consumers.lookup c.method.consumerKey = some i →
    DispatchMove jobs P d c ((P.setHandler i c.method.jobKey c.handler).setState d (.got i))
  | add {i : Nat} : c.state = .got i →
    DispatchMove jobs P d c (P.setState d (.accepted i jobs.length))
  | settle {i j : Nat} {job : Job} : c.state = .accepted i j → jobs[j]? = some job →
    (job.state matches .completed | .failed | .noHandler _) →
    DispatchMove jobs P d c (P.setState d (.settled i))

/-- The job a dispatch adds in its next step. -/
def Dispatch.added (c : Dispatch) : List Job :=
  match c.state with
  | .got _ => [⟨c.method.consumerKey, c.method.jobKey, c.args, .waiting⟩]
  | _ => []

theorem DispatchMove.inv {jobs : List Job} {P P' : Process} {d : Nat} {c : Dispatch}
    (hm : DispatchMove jobs P d c P') (hP : P.Inv) (hc : P.dispatches[d]? = some c) : P'.Inv := by
  have hcalled := hP.called c (List.mem_of_getElem? hc)
  cases hm with
  | found hs => exact hP.setState hc (hs ▸ rfl) nofun
  | construct hs =>
    refine (hP.construct c.method.consumerKey).setState hc (hs ▸ rfl) ?_
    rintro _ ⟨⟩
    exact Process.keyOf_construct P _
  | store hs => exact (hP.store (hcalled _ (hs ▸ rfl))).setState hc (hs ▸ rfl) nofun
  | get hs hi => exact hP.getOrCreate hc (hs ▸ rfl) hi
  | add hs =>
    rw [hs] at hcalled
    exact hP.setState hc (hs ▸ rfl) hcalled
  | settle hs =>
    rw [hs] at hcalled
    exact hP.setState hc (hs ▸ rfl) hcalled

theorem Dispatch.waiting_of_added {c : Dispatch} {job : Job} (h : job ∈ c.added) :
    job.state = .waiting := by
  unfold added at h
  split at h
  · cases List.mem_singleton.mp h
    rfl
  · cases h

namespace Deployment

variable {s s' : Deployment} {p i d j : Nat} {P : Process} {c : Dispatch}

theorem dispatchStep_cases (h : dispatchStep s p P d c = some s') :
    ∃ P', DispatchMove s.jobs P d c P' ∧ s'.processes = Function.update s.processes p (some P') ∧
      s'.jobs = s.jobs ++ c.added := by
  obtain ⟨method, handler, args, state⟩ := c
  cases state with
  | called =>
    simp only [dispatchStep] at h
    rcases Process.ensureConsumer_cases P method.consumerKey with ⟨he, hsome⟩ | ⟨hnone, he⟩
    · rw [he] at h
      cases h
      exact ⟨_, .found rfl hsome, rfl, (List.append_nil _).symm⟩
    · rw [he] at h
      cases h
      exact ⟨_, .construct rfl hnone, rfl, (List.append_nil _).symm⟩
  | connecting i =>
    cases h
    exact ⟨_, .store rfl, rfl, (List.append_nil _).symm⟩
  | ensured =>
    obtain ⟨i, hi, rfl⟩ := Option.map_eq_some_iff.mp h
    exact ⟨_, .get rfl hi, rfl, (List.append_nil _).symm⟩
  | got i =>
    cases h
    exact ⟨_, .add rfl, rfl, rfl⟩
  | accepted i j =>
    simp only [dispatchStep] at h
    split at h
    · next hdone =>
      cases h
      obtain ⟨job, hjob, hdone⟩ := (Option.any_eq_true _ _).mp hdone
      exact ⟨_, .settle rfl hjob hdone, rfl, (List.append_nil _).symm⟩
    · cases h
  | settled i => cases h

/-- No job of a method that the process of its worker has loaded has failed for want of a
handler. -/
def AllHandled (s : Deployment) : Prop := ∀ job ∈ s.jobs, job.state ≠ .noHandler true

structure Inv (s : Deployment) : Prop where
  processes : ∀ p P, s.processes p = some P → P.Inv
  handled : s.AllHandled

/-- The process of a worker that takes a job of one of its methods has dispatched that method itself
since its start, and its `getOrCreate` has returned the consumer of the worker. -/
def Prepared (s : Deployment) : Event → Prop
  | .take p i => ∀ P ∈ s.processes p, ∀ c ∈ P.built[i]?, ∀ j ∈ s.oldest c.consumerKey,
    ∀ job ∈ s.jobs[j]?, ⟨c.consumerKey, job.name⟩ ∈ P.methods →
      P.Dispatched i ⟨c.consumerKey, job.name⟩
  | .start _ _ | .crash _ | .load _ _ | .startup _ | .call _ _ _ _ | .dispatch _ _ | .finish _ _
  | .requeue _ => True

theorem takenState_iff (hP : P.Inv) {c : ConsumerSet} (hc : P.built[i]? = some c) (job : Job) :
    takenState p i P c job ≠ .noHandler true ↔
      (⟨c.consumerKey, job.name⟩ ∈ P.methods → P.Dispatched i ⟨c.consumerKey, job.name⟩) := by
  rw [← hP.handlers i c hc, takenState]
  cases c.handlers.lookup job.name <;> simp

theorem step_take (h : step s (.take p i) = some s') :
    ∃ P c j job, s.processes p = some P ∧ P.built[i]? = some c ∧ s.oldest c.consumerKey = some j ∧
      s.jobs[j]? = some job ∧ s' = s.setJob j (takenState p i P c job) := by
  simp only [step, Option.bind_eq_bind, Option.bind_eq_some_iff] at h
  obtain ⟨P, hP, c, hc, j, hj, job, hjob, h⟩ := h
  split at h
  · cases h
  · cases h
    exact ⟨P, c, j, job, hP, hc, hj, hjob, rfl⟩

theorem Inv.init : init.Inv where
  processes _ _ h := by cases h
  handled _ h := by cases h

theorem Inv.setProcess (h : s.Inv) (hP : P.Inv) : (s.setProcess p P).Inv where
  processes q Q hQ := by
    simp only [Deployment.setProcess, Function.update_apply] at hQ
    split at hQ
    · cases hQ
      exact hP
    · exact h.processes q Q hQ
  handled := h.handled

theorem Inv.setJob (h : s.Inv) {state : JobState} (hs : state ≠ .noHandler true) :
    (s.setJob j state).Inv where
  processes := h.processes
  handled job hjob := by
    obtain ⟨k, hk⟩ := List.mem_iff_getElem?.mp hjob
    simp only [Deployment.setJob, List.getElem?_modify] at hk
    obtain ⟨job₀, hjob₀, rfl⟩ := Option.map_eq_some_iff.mp hk
    split
    · exact hs
    · exact h.handled job₀ (List.mem_of_getElem? hjob₀)

theorem Inv.crash (h : s.Inv) (hs : step s (.crash p) = some s') : s'.Inv := by
  cases hs
  constructor
  · intro q Q hQ
    simp only [Function.update_apply] at hQ
    split at hQ
    · cases hQ
    · exact h.processes q Q hQ
  · intro job hjob
    obtain ⟨job₀, hjob₀, rfl⟩ := List.mem_map.mp hjob
    split
    · split
      · exact nofun
      · exact h.handled job₀ hjob₀
    · exact h.handled job₀ hjob₀

theorem Inv.dispatch (h : s.Inv) (hs : step s (.dispatch p d) = some s') : s'.Inv := by
  simp only [step, Option.bind_eq_bind, Option.bind_eq_some_iff] at hs
  obtain ⟨P, hP, c, hc, hs⟩ := hs
  obtain ⟨P', hm, hprocesses, hjobs⟩ := dispatchStep_cases hs
  constructor
  · intro q Q hQ
    rw [hprocesses, Function.update_apply] at hQ
    split at hQ
    · cases hQ
      exact hm.inv (h.processes p P hP) hc
    · exact h.processes q Q hQ
  · intro job hjob
    rw [hjobs] at hjob
    rcases List.mem_append.mp hjob with hjob | hjob
    · exact h.handled job hjob
    · rw [Dispatch.waiting_of_added hjob]
      exact nofun

theorem Inv.step {e : Event} (h : s.Inv) (hC : Prepared s e) (hs : step s e = some s') :
    s'.Inv := by
  cases e with
  | start p methods =>
    simp only [Deployment.step, Option.ite_none_right_eq_some, Option.some.injEq] at hs
    exact hs.2 ▸ h.setProcess (.start methods)
  | crash p => exact h.crash hs
  | load p method =>
    obtain ⟨P, hP, hs⟩ := Option.bind_eq_some_iff.mp hs
    cases hs
    exact h.setProcess ((h.processes p P hP).load method)
  | startup p =>
    simp only [Deployment.step, Option.bind_eq_bind, Option.bind_eq_some_iff] at hs
    obtain ⟨P, hP, P', hP', hs⟩ := hs
    cases hs
    exact h.setProcess ((h.processes p P hP).onModuleInit hP')
  | call p method handler args =>
    obtain ⟨P, hP, hs⟩ := Option.bind_eq_some_iff.mp hs
    split at hs
    · cases hs
      exact h.setProcess ((h.processes p P hP).call method handler args)
    · cases hs
  | dispatch p d => exact h.dispatch hs
  | take p i =>
    obtain ⟨P, c, j, job, hP, hc, hj, hjob, rfl⟩ := step_take hs
    exact h.setJob ((takenState_iff (h.processes p P hP) hc job).mpr (hC P hP c hc j hj job hjob))
  | finish j success =>
    obtain ⟨job, _, hs⟩ := Option.bind_eq_some_iff.mp hs
    split at hs
    · cases hs
      refine h.setJob ?_
      split <;> exact nofun
    · cases hs
  | requeue j =>
    obtain ⟨job, _, hs⟩ := Option.bind_eq_some_iff.mp hs
    split at hs
    · cases hs
      exact h.setJob nofun
    · cases hs

/-- A job that is taken unprepared fails. -/
theorem Inv.prepared {e : Event} (h : s.Inv) (hs : Deployment.step s e = some s')
    (hall : s'.AllHandled) : Prepared s e := by
  cases e with
  | take p i =>
    intro P hP c hc j hj job hjob
    obtain ⟨P', c', j', job', hP', hc', hj', hjob', rfl⟩ := step_take hs
    cases hP.symm.trans hP'
    cases hc.symm.trans hc'
    cases hj.symm.trans hj'
    cases hjob.symm.trans hjob'
    refine (takenState_iff (p := p) (h.processes p P hP) hc job).mp ?_
    refine hall { job with state := takenState p i P c job } (List.mem_iff_getElem?.mpr ⟨j, ?_⟩)
    rw [Deployment.setJob, List.getElem?_modify, hjob']
    simp
  | start | crash | load | startup | call | dispatch | finish | requeue => trivial

/-- Along a run no job fails for want of a handler its process has loaded just when every job is
taken by a process that has dispatched its method before. -/
theorem handled_iff {ls : List Event} (h : Run.exec step init ls = some s) :
    Run.Always step AllHandled init ls ↔ Run.Along step Prepared init ls :=
  Run.always_iff_along Inv.handled Inv.step Inv.prepared h .init

/-! ### Sample runs -/

instance (s : Deployment) (e : Event) : Decidable (Prepared s e) :=
  match e with
  | .take p i => inferInstanceAs (Decidable (∀ P ∈ s.processes p, ∀ c ∈ P.built[i]?,
      ∀ j ∈ s.oldest c.consumerKey, ∀ job ∈ s.jobs[j]?, ⟨c.consumerKey, job.name⟩ ∈ P.methods →
        P.Dispatched i ⟨c.consumerKey, job.name⟩))
  | .start _ _ | .crash _ | .load _ _ | .startup _ | .call _ _ _ _ | .dispatch _ _ | .finish _ _
  | .requeue _ => isTrue trivial

def adminCreateMethod : UseQueueMethod := ⟨"user-consumer", "user-service-admin-create"⟩

def signInMethod : UseQueueMethod := ⟨"user-consumer", "user-service-sign-in"⟩

/-- A process starts, creates its consumer, and its dispatch of a sign-in is accepted. -/
def acceptedSignIn : List Event :=
  [.start 0 [adminCreateMethod, signInMethod], .startup 0, .startup 0,
    .call 0 signInMethod ⟨0, 1⟩ [.str "dto"], .dispatch 0 0, .dispatch 0 0, .dispatch 0 0]

def servedSignIn : Deployment :=
  (Run.exec step init (acceptedSignIn ++ [.take 0 0, .finish 0 true])).get (by decide +kernel)

theorem handled_iff_sample :
    Run.exec step init (acceptedSignIn ++ [.take 0 0, .finish 0 true]) = some servedSignIn ∧
      servedSignIn.jobs.map (·.state) = [.completed] ∧
      Run.Always step AllHandled init (acceptedSignIn ++ [.take 0 0, .finish 0 true]) := by
  have h : Run.exec step init (acceptedSignIn ++ [.take 0 0, .finish 0 true]) = some servedSignIn :=
    (Option.some_get _).symm
  exact ⟨h, by decide +kernel, (handled_iff h).mpr (by decide +kernel)⟩

/-- The process crashes before its worker takes the job, and starts again. -/
def restarted : Deployment :=
  (Run.exec step init (acceptedSignIn ++ [.crash 0,
    .start 0 [adminCreateMethod, signInMethod], .startup 0, .startup 0, .take 0 0])).get
    (by decide +kernel)

/-- The new worker takes the job before any sign-in of the new process: the job is lost. -/
theorem job_lost :
    Run.exec step init (acceptedSignIn ++ [.crash 0,
        .start 0 [adminCreateMethod, signInMethod], .startup 0, .startup 0, .take 0 0]) =
      some restarted ∧
      restarted.jobs.map (·.name) = ["user-service-sign-in"] ∧
      restarted.jobs.map (·.state) = [.noHandler true] ∧ ¬restarted.AllHandled := by
  have hstates : restarted.jobs.map (·.state) = [.noHandler true] := by decide +kernel
  refine ⟨(Option.some_get _).symm, by decide +kernel, hstates, ?_⟩
  intro hall
  have hmem : JobState.noHandler true ∈ restarted.jobs.map (·.state) := by simp [hstates]
  obtain ⟨job, hjob, hstate⟩ := List.mem_map.mp hmem
  exact hall job hjob hstate

end Deployment

end NestHarness
