import Mathlib.Data.List.Basic
import NestHarness.Queue.Handlers
import NestHarness.Queue.Shutdown

/-!
# One worker for each consumer key

`ensureConsumer` reads the map of consumers, awaits, and writes the map. Two calls of it for one key
that overlap construct two workers; calls that do not overlap share one, and `onModuleDestroy`
closes every worker unless a call still awaits when it ends.
-/

namespace NestHarness

/-- The consumer whose `waitUntilReady` `onModuleInit` awaits. -/
def StartupState.awaited : StartupState → Option Nat
  | .connecting _ _ i => some i
  | .next _ | .done => none

/-- The consumer whose `waitUntilReady` a dispatch awaits. -/
def DispatchState.awaited : DispatchState → Option Nat
  | .connecting i => some i
  | _ => none

namespace Process

/-- The consumers whose `waitUntilReady` the calls of a process await. -/
def awaited (P : Process) : List Nat :=
  P.startup.awaited.toList ++ P.dispatches.filterMap (·.state.awaited)

/-- `ensureConsumer(key)` constructs a consumer only while no other call of it awaits the one it has
constructed for the key. -/
def EnsuresAlone (P : Process) (key : String) : Prop :=
  P.consumers.lookup key = none → ∀ i ∈ P.awaited, P.keyOf i ≠ some key

instance (P : Process) (key : String) : Decidable (P.EnsuresAlone key) :=
  inferInstanceAs (Decidable (_ → _))

/-- The key `onModuleInit` ensures next. -/
def nextKey (P : Process) : Option String :=
  match P.startup with
  | .next n => P.registeredKeys[n]?
  | .connecting _ _ _ | .done => none

/-- `onModuleDestroy` has come to the end of the map. -/
def atEnd (P : Process) (D : Shutdown) : Bool :=
  match D.state with
  | .next n => P.values[n]?.isNone
  | .running | .closing _ _ _ | .ended _ => false

/-- Each key has one consumer, it is the one that is stored when its `ensureConsumer` has ended, it
has every handler that was registered for the key, and `onModuleDestroy` has closed the workers of
all consumers that were constructed before it ended. -/
structure OneWorker (P : Process) (D : Shutdown) : Prop where
  unique : (P.built.map (·.consumerKey)).Nodup
  stored : ∀ i b, P.built[i]? = some b → P.consumers.lookup b.consumerKey = some i ∨ i ∈ P.awaited
  visible : ∀ c ∈ P.dispatches, c.state.consumer.isSome → ∀ b ∈ P.built,
    b.consumerKey = c.method.consumerKey → (c.method.jobKey, c.handler) ∈ b.handlers
  closed : ∀ n, D.state = .ended n → ∀ i < n, i ∈ D.closed

variable {P P' : Process} {D D' : Shutdown} {i j d : Nat} {key : String} {c : Dispatch}
  {t : DispatchState}

/-! ## The values of the map -/

theorem mem_keys : key ∈ P.consumers.reverse.map (·.1) ↔ P.consumers.lookup key ≠ none := by
  rw [Option.ne_none_iff_isSome, List.lookup_isSome_iff]
  simp only [List.mem_map, List.mem_reverse, beq_iff_eq, eq_comm (a := key)]

theorem mem_values : i ∈ P.values ↔ ∃ key, P.consumers.lookup key = some i := by
  rw [values, List.mem_filterMap]
  constructor
  · rintro ⟨key, _, hi⟩
    exact ⟨key, hi⟩
  · rintro ⟨key, hi⟩
    refine ⟨key, List.mem_eraseDups.mpr (mem_keys.mpr ?_), hi⟩
    rw [hi]
    exact Option.some_ne_none i

/-- A new key is the last one of the map. -/
theorem values_store (h : ∀ j, P.consumers.lookup key = some j → j = i) :
    P.values <+: (P.store key i).values := by
  have hlookup : ∀ k ∈ (P.consumers.reverse.map (·.1)).eraseDups,
      (P.store key i).consumers.lookup k = P.consumers.lookup k := by
    intro k hk
    obtain ⟨j, hj⟩ := Option.ne_none_iff_exists'.mp (mem_keys.mp (List.mem_eraseDups.mp hk))
    by_cases hkey : k = key
    · subst hkey
      rw [Process.store, List.lookup_cons_self, hj, h j hj]
    · rw [Process.store, List.lookup_cons, beq_false_of_ne hkey]
  have hkeys : (P.store key i).consumers.reverse.map (·.1) =
      P.consumers.reverse.map (·.1) ++ [key] := by
    simp [Process.store]
  rw [values, values, hkeys, List.eraseDups_append, List.filterMap_append,
    List.filterMap_congr hlookup]
  exact List.prefix_append _ _

/-! ## The invariant of a process -/

/-- The workers `onModuleDestroy` has come to are told to close. -/
def Closes (P : Process) (D : Shutdown) : Prop :=
  match D.state with
  | .running => True
  | .next n => n ≤ P.values.length ∧ ∀ i ∈ P.values.take n, i ∈ D.closed
  | .closing _ n _ => n + 1 ≤ P.values.length ∧ ∀ i ∈ P.values.take (n + 1), i ∈ D.closed
  | .ended n => ∀ i < n, i ∈ D.closed

structure Sole (P : Process) (D : Shutdown) : Prop extends P.Inv where
  unique : (P.built.map (·.consumerKey)).Nodup
  complete : ∀ i key, P.keyOf i = some key → P.consumers.lookup key = some i ∨ i ∈ P.awaited
  registered : ∀ c ∈ P.dispatches, ∀ i, c.state.consumer = some i →
    ∀ b, P.built[i]? = some b → (c.method.jobKey, c.handler) ∈ b.handlers
  stored_closed : ∀ i ∈ D.closed, i ∈ P.values
  closes : P.Closes D

theorem keyOf_eq_some : P.keyOf i = some key ↔ ∃ b, P.built[i]? = some b ∧ b.consumerKey = key :=
  Option.map_eq_some_iff

/-- A consumer is the only one of its key. -/
theorem keyOf_inj (h : (P.built.map (·.consumerKey)).Nodup) (hi : P.keyOf i = some key)
    (hj : P.keyOf j = some key) : i = j := by
  refine (List.getElem?_inj ?_ h).mp ?_
  · rw [List.length_map]
    exact keyOf_lt hi
  · rw [List.getElem?_map, List.getElem?_map]
    exact hi.trans hj.symm

theorem Sole.oneWorker (h : P.Sole D) : P.OneWorker D where
  unique := h.unique
  stored i b hb := h.complete i _ (keyOf_eq_some.mpr ⟨b, hb, rfl⟩)
  visible c hc hgot b hb hkey := by
    obtain ⟨i, hi⟩ := Option.isSome_iff_exists.mp hgot
    obtain ⟨j, hj⟩ := List.mem_iff_getElem?.mp hb
    have hcalled := h.called c hc i (DispatchState.index_of_consumer hi)
    obtain rfl : i = j := keyOf_inj h.unique hcalled (keyOf_eq_some.mpr ⟨b, hj, hkey⟩)
    exact h.registered c hc i hi b hj
  closed n hn := by
    have hcloses := h.closes
    rwa [Closes, hn] at hcloses

theorem Closes.mono (h : P.Closes D) (hvalues : P.values <+: P'.values) : P'.Closes D := by
  obtain ⟨l, hl⟩ := hvalues
  have htake : ∀ n, n ≤ P.values.length → P'.values.take n = P.values.take n := by
    intro n hn
    rw [← hl, List.take_append_of_le_length hn]
  have hlength : P.values.length ≤ P'.values.length := by
    rw [← hl, List.length_append]
    exact Nat.le_add_right _ _
  unfold Closes at h ⊢
  split at h
  · trivial
  · rw [htake _ h.1]
    exact ⟨Nat.le_trans h.1 hlength, h.2⟩
  · rw [htake _ h.1]
    exact ⟨Nat.le_trans h.1 hlength, h.2⟩
  · exact h

theorem mem_awaited : i ∈ P.awaited ↔
    P.startup.awaited = some i ∨ ∃ c ∈ P.dispatches, c.state.awaited = some i := by
  rw [awaited, List.mem_append, Option.mem_toList, List.mem_filterMap]

theorem lt_of_awaited (hP : P.Inv) (h : i ∈ P.awaited) : i < P.built.length := by
  rcases mem_awaited.mp h with hi | ⟨c, hc, hi⟩
  · cases hs : P.startup with
    | connecting n key k =>
      rw [hs] at hi
      cases hi
      exact keyOf_lt (hP.starting n key _ hs)
    | next | done =>
      rw [hs] at hi
      cases hi
  · refine keyOf_lt (hP.called c hc i ?_)
    cases hs : c.state with
    | connecting k =>
      rw [hs] at hi
      exact hi
    | called | ensured | got | accepted | settled =>
      rw [hs] at hi
      cases hi

/-- What a dispatch of `P'` has got from `getOrCreate`, the same call has got in `P`. -/
def GotOnly (P P' : Process) : Prop :=
  ∀ c' ∈ P'.dispatches, ∀ i, c'.state.consumer = some i →
    ∃ c ∈ P.dispatches, c.method = c'.method ∧ c.handler = c'.handler ∧ c.state.consumer = some i

theorem gotOnly_setState (hc : P.dispatches[d]? = some c) (ht : t.consumer = c.state.consumer) :
    GotOnly P (P.setState d t) := by
  intro c' hc' i hi
  rcases (mem_setState hc).mp hc' with ⟨k, _, hk⟩ | rfl
  · exact ⟨c', List.mem_of_getElem? hk, rfl, rfl, hi⟩
  · exact ⟨c, List.mem_of_getElem? hc, rfl, rfl, ht.symm.trans hi⟩

theorem awaited_setState (h : i ∈ P.awaited) (hc : P.dispatches[d]? = some c)
    (hs : c.state.awaited ≠ some i) : i ∈ (P.setState d t).awaited := by
  rcases mem_awaited.mp h with h | ⟨c', hc', hi⟩
  · exact mem_awaited.mpr (.inl h)
  · obtain ⟨k, hk⟩ := List.mem_iff_getElem?.mp hc'
    refine mem_awaited.mpr (.inr ⟨c', (mem_setState hc).mpr (.inl ⟨k, ?_, hk⟩), hi⟩)
    rintro rfl
    cases hc.symm.trans hk
    exact hs hi

theorem awaited_of_dispatches (h : i ∈ P.awaited)
    (hs : P.startup.awaited ≠ some i) (hd : P'.dispatches = P.dispatches) : i ∈ P'.awaited := by
  refine mem_awaited.mpr (.inr ?_)
  rw [hd]
  exact (mem_awaited.mp h).resolve_left hs

theorem awaited_connecting (hc : P.dispatches[d]? = some c) :
    i ∈ (P.setState d (.connecting i)).awaited :=
  mem_awaited.mpr (.inr ⟨_, (mem_setState hc).mpr (.inr rfl), rfl⟩)

/-! ## Steps of a process -/

/-- A step that leaves the consumers alone. -/
theorem Sole.keep (h : P.Sole D) (hP : P'.Inv) (hbuilt : P'.built = P.built)
    (hconsumers : P'.consumers = P.consumers) (hawaits : ∀ i ∈ P.awaited, i ∈ P'.awaited)
    (hgot : GotOnly P P') : P'.Sole D := by
  have hkey : ∀ i, P'.keyOf i = P.keyOf i := by
    intro i
    rw [keyOf, keyOf, hbuilt]
  have hvalues : P'.values = P.values := by rw [values, values, hconsumers]
  refine ⟨hP, hbuilt ▸ h.unique, ?_, ?_, hvalues ▸ h.stored_closed, ?_⟩
  · intro i key hi
    rw [hconsumers]
    exact (h.complete i key ((hkey i).symm.trans hi)).imp_right (hawaits i)
  · intro c' hc' i hi b hb
    obtain ⟨c, hc, hm, hh, hci⟩ := hgot c' hc' i hi
    rw [← hm, ← hh]
    exact h.registered c hc i hci b (hbuilt ▸ hb)
  · exact h.closes.mono (hvalues ▸ List.prefix_rfl)

/-- `ensureConsumer` constructs a consumer and its caller awaits it. -/
theorem Sole.construct (h : P.Sole D) (hP : P'.Inv)
    (hbuilt : P'.built = P.built ++ [⟨key, []⟩]) (hconsumers : P'.consumers = P.consumers)
    (hawaits : ∀ i ∈ P.awaited, i ∈ P'.awaited) (hnew : P.built.length ∈ P'.awaited)
    (hgot : GotOnly P P') (hnone : P.consumers.lookup key = none) (halone : P.EnsuresAlone key) :
    P'.Sole D := by
  have hkey : ∀ i, P.keyOf i ≠ some key := by
    intro i hi
    rcases h.complete i key hi with hstored | hi'
    · cases hnone.symm.trans hstored
    · exact halone hnone i hi' hi
  have hget : ∀ i, i < P.built.length → P'.built[i]? = P.built[i]? := by
    intro i hi
    rw [hbuilt, List.getElem?_append_left hi]
  have hvalues : P'.values = P.values := by rw [values, values, hconsumers]
  refine ⟨hP, ?_, ?_, ?_, hvalues ▸ h.stored_closed, ?_⟩
  · rw [hbuilt, List.map_append, List.map_singleton, List.nodup_append]
    refine ⟨h.unique, List.pairwise_singleton _ _, ?_⟩
    intro k hk k' hk' heq
    cases List.mem_singleton.mp hk'
    obtain ⟨b, hb, rfl⟩ := List.mem_map.mp hk
    obtain ⟨i, hi⟩ := List.mem_iff_getElem?.mp hb
    exact hkey i (keyOf_eq_some.mpr ⟨b, hi, heq⟩)
  · intro i k hi
    rw [hconsumers]
    by_cases hlt : i < P.built.length
    · rw [keyOf, hget i hlt] at hi
      exact (h.complete i k hi).imp_right (hawaits i)
    · have hlen := keyOf_lt hi
      rw [hbuilt, List.length_append, List.length_singleton] at hlen
      obtain rfl : i = P.built.length := by omega
      exact .inr hnew
  · intro c' hc' i hi b hb
    obtain ⟨c, hc, hm, hh, hci⟩ := hgot c' hc' i hi
    rw [hget i (keyOf_lt (h.called c hc i (DispatchState.index_of_consumer hci)))] at hb
    rw [← hm, ← hh]
    exact h.registered c hc i hci b hb
  · exact h.closes.mono (hvalues ▸ List.prefix_rfl)

/-- `ensureConsumer` ends: its caller awaits no longer. -/
theorem Sole.store (h : P.Sole D) (hP : P'.Inv) (hi : P.keyOf i = some key)
    (hbuilt : P'.built = P.built) (hconsumers : P'.consumers = (key, i) :: P.consumers)
    (hawaits : ∀ j ∈ P.awaited, j ≠ i → j ∈ P'.awaited) (hgot : GotOnly P P') : P'.Sole D := by
  have hstored : ∀ k j, P.consumers.lookup k = some j → P'.consumers.lookup k = some j := by
    intro k j hk
    rw [hconsumers, List.lookup_cons]
    split
    · next heq =>
      rw [eq_of_beq heq] at hk
      rw [keyOf_inj h.unique hi (h.stored key j hk)]
    · exact hk
  have hvalues : P.values <+: P'.values := by
    have hv : P'.values = (P.store key i).values := by rw [values, values, hconsumers]; rfl
    rw [hv]
    refine values_store ?_
    intro j hj
    exact keyOf_inj h.unique (h.stored key j hj) hi
  refine ⟨hP, hbuilt ▸ h.unique, ?_, ?_, ?_, h.closes.mono hvalues⟩
  · intro j k hj
    rw [keyOf, hbuilt] at hj
    rcases h.complete j k hj with hlookup | hawait
    · exact .inl (hstored k j hlookup)
    · by_cases hji : j = i
      · subst hji
        obtain rfl : k = key := Option.some.inj (hj.symm.trans hi)
        rw [hconsumers, List.lookup_cons_self]
        exact .inl rfl
      · exact .inr (hawaits j hawait hji)
  · intro c' hc' j hj b hb
    obtain ⟨c, hc, hm, hh, hcj⟩ := hgot c' hc' j hj
    rw [← hm, ← hh]
    exact h.registered c hc j hcj b (hbuilt ▸ hb)
  · intro j hj
    exact hvalues.subset (h.stored_closed j hj)

/-- `getOrCreate` sets the handler of its call on the consumer of the key. -/
theorem Sole.get (h : P.Sole D) (hc : P.dispatches[d]? = some c) (hs : c.state = .ensured)
    (hi : P.consumers.lookup c.method.consumerKey = some i) :
    ((P.setHandler i c.method.jobKey c.handler).setState d (.got i)).Sole D := by
  have hP := h.toInv.getOrCreate hc (hs ▸ rfl) hi
  refine ⟨hP, ?_, ?_, ?_, h.stored_closed, h.closes⟩
  · have hkeys : (P.setHandler i c.method.jobKey c.handler).built.map (·.consumerKey) =
        P.built.map (·.consumerKey) := by
      refine List.ext_getElem? ?_
      intro j
      rw [List.getElem?_map, List.getElem?_map]
      exact keyOf_setHandler
    exact hkeys ▸ h.unique
  · intro j key hj
    refine (h.complete j key (keyOf_setHandler.symm.trans hj)).imp_right ?_
    intro hawait
    exact awaited_setState (P := P.setHandler i c.method.jobKey c.handler) hawait hc (hs ▸ nofun)
  · intro c' hc' j hj b hb
    obtain ⟨b₀, hb₀, rfl⟩ := Option.map_eq_some_iff.mp (getElem?_setHandler.symm.trans hb)
    rcases (mem_setState (P := P.setHandler i _ _) hc).mp hc' with ⟨k, _, hk⟩ | rfl
    · have hmem := h.registered c' (List.mem_of_getElem? hk) j hj b₀ hb₀
      split
      · exact List.mem_cons_of_mem _ hmem
      · exact hmem
    · cases hj
      rw [if_pos rfl]
      exact List.mem_cons_self

theorem Sole.onModuleInit (h : P.Sole D) (hP : P.onModuleInit = some P')
    (halone : ∀ key ∈ P.nextKey, P.EnsuresAlone key) : P'.Sole D := by
  have hinv := h.toInv.onModuleInit hP
  have hgot : ∀ {Q : Process}, Q.dispatches = P.dispatches → GotOnly P Q := by
    intro Q hQ c hc i hi
    exact ⟨c, hQ ▸ hc, rfl, rfl, hi⟩
  obtain ⟨m, startup, hm, _, rfl⟩ | ⟨n, key, hn, hkey, hnone, rfl⟩ | ⟨n, key, i, hs, rfl⟩ :=
    onModuleInit_cases hP
  · refine h.keep hinv rfl rfl ?_ (hgot rfl)
    intro i hi
    exact awaited_of_dispatches hi (hm ▸ nofun) rfl
  · refine h.construct hinv rfl rfl ?_ (mem_awaited.mpr (.inl rfl)) (hgot rfl) hnone
      (halone key ?_)
    · intro i hi
      exact awaited_of_dispatches hi (hn ▸ nofun) rfl
    · rw [nextKey, hn]
      exact hkey
  · refine h.store hinv (h.starting n key i hs) rfl rfl ?_ (hgot rfl)
    intro j hj hji
    refine awaited_of_dispatches hj ?_ rfl
    rw [hs]
    intro h
    cases h
    exact hji rfl

theorem Sole.load (h : P.Sole D) (method : UseQueueMethod) :
    Sole { P with methods := P.methods ++ [method] } D :=
  h.keep (h.toInv.load method) rfl rfl (fun _ hi => hi) fun c hc _ hi => ⟨c, hc, rfl, rfl, hi⟩

theorem Sole.call (h : P.Sole D) (method : UseQueueMethod) (handler : JobHandler)
    (args : List Json) :
    Sole { P with dispatches := P.dispatches ++ [⟨method, handler, args, .called⟩] } D := by
  refine h.keep (h.toInv.call method handler args) rfl rfl ?_ ?_
  · intro i hi
    refine mem_awaited.mpr ((mem_awaited.mp hi).imp_right ?_)
    rintro ⟨c, hc, hci⟩
    exact ⟨c, List.mem_append_left _ hc, hci⟩
  · intro c hc i hi
    rcases List.mem_append.mp hc with hc | hc
    · exact ⟨c, hc, rfl, rfl, hi⟩
    · cases List.mem_singleton.mp hc
      cases hi

theorem Sole.move {jobs : List Job} (h : P.Sole D) (hm : DispatchMove jobs P d c P')
    (hc : P.dispatches[d]? = some c)
    (halone : c.state = .called → P.EnsuresAlone c.method.consumerKey) : P'.Sole D := by
  have hP := hm.inv h.toInv hc
  cases hm with
  | found hs =>
    refine h.keep hP rfl rfl ?_ (gotOnly_setState hc (hs ▸ rfl))
    intro i hi
    exact awaited_setState hi hc (hs ▸ nofun)
  | construct hs hnone =>
    have hgot := gotOnly_setState
      (P := { P with built := P.built ++ [⟨c.method.consumerKey, []⟩] }) hc
      (t := .connecting P.built.length) (hs ▸ rfl)
    refine h.construct hP rfl rfl ?_ (awaited_connecting hc) hgot hnone (halone hs)
    intro i hi
    exact awaited_setState (P := { P with built := P.built ++ [⟨c.method.consumerKey, []⟩] })
      hi hc (hs ▸ nofun)
  | @store i hs =>
    have hi := h.called c (List.mem_of_getElem? hc) i (by rw [hs]; rfl)
    have hgot := gotOnly_setState (P := P.store c.method.consumerKey i) hc (t := .ensured)
      (hs ▸ rfl)
    refine h.store hP hi rfl rfl ?_ hgot
    intro j hj hji
    refine awaited_setState (P := P.store c.method.consumerKey i) hj hc ?_
    rw [hs]
    intro h
    cases h
    exact hji rfl
  | get hs hi => exact h.get hc hs hi
  | add hs =>
    refine h.keep hP rfl rfl ?_ (gotOnly_setState hc (hs ▸ rfl))
    intro i hi
    exact awaited_setState hi hc (hs ▸ nofun)
  | settle hs =>
    refine h.keep hP rfl rfl ?_ (gotOnly_setState hc (hs ▸ rfl))
    intro i hi
    exact awaited_setState hi hc (hs ▸ nofun)

theorem Sole.start (methods : List UseQueueMethod) :
    (start methods).Sole ⟨.running, []⟩ where
  toInv := .start methods
  unique := List.nodup_nil
  complete _ _ h := by cases h
  registered _ h := by cases h
  stored_closed _ h := by cases h
  closes := trivial

/-- A step of `onModuleDestroy` starts its loop, comes to a consumer, comes to the end of the map,
or goes on after a `close`. -/
theorem onModuleDestroy_cases {busy : Nat → Bool} (h : P.onModuleDestroy busy D = some D') :
    (D.state = .running ∧ D' = { D with state := .next 0 }) ∨
    (∃ n i, D.state = .next n ∧ P.values[n]? = some i ∧
      D' = ⟨.closing .worker n i, i :: D.closed⟩) ∨
    (∃ n, D.state = .next n ∧ P.values[n]? = none ∧
      D' = { D with state := .ended P.built.length }) ∨
    ∃ part n i, D.state = .closing part n i ∧
      ((∃ part', D' = { D with state := .closing part' n i }) ∨
        D' = { D with state := .next (n + 1) }) := by
  unfold Process.onModuleDestroy at h
  split at h
  · next hs =>
    cases h
    exact .inl ⟨hs, rfl⟩
  · next n hs =>
    split at h
    · next i hi =>
      cases h
      exact .inr (.inl ⟨n, i, hs, hi, rfl⟩)
    · next hnone =>
      cases h
      exact .inr (.inr (.inl ⟨n, hs, hnone, rfl⟩))
  · next n i hs =>
    split at h
    · cases h
    · cases h
      exact .inr (.inr (.inr ⟨_, n, i, hs, .inl ⟨_, rfl⟩⟩))
  · next n i hs =>
    cases h
    exact .inr (.inr (.inr ⟨_, n, i, hs, .inl ⟨_, rfl⟩⟩))
  · next n i hs =>
    cases h
    exact .inr (.inr (.inr ⟨_, n, i, hs, .inr rfl⟩))
  · cases h

/-- Every consumer that a call does not await is stored. -/
theorem Sole.mem_values (h : P.Sole D) (hsettled : ∀ i ∈ P.awaited, i ∈ P.values)
    (hi : i < P.built.length) : i ∈ P.values := by
  obtain ⟨b, hb⟩ : ∃ b, P.built[i]? = some b := ⟨_, List.getElem?_eq_getElem hi⟩
  rcases h.complete i _ (keyOf_eq_some.mpr ⟨b, hb, rfl⟩) with hstored | hawait
  · exact Process.mem_values.mpr ⟨_, hstored⟩
  · exact hsettled i hawait

/-- `onModuleDestroy` closes the stored consumers in their order. -/
theorem Sole.onModuleDestroy {busy : Nat → Bool} (h : P.Sole D)
    (hD : P.onModuleDestroy busy D = some D')
    (hsettled : P.atEnd D → ∀ i ∈ P.awaited, i ∈ P.values) :
    P.Sole D' := by
  have hcloses := h.closes
  unfold Closes at hcloses
  obtain ⟨hs, rfl⟩ | ⟨n, i, hs, hi, rfl⟩ | ⟨n, hs, hnone, rfl⟩ | ⟨part, n, i, hs, hD⟩ :=
    onModuleDestroy_cases hD
  · exact { h with closes := ⟨Nat.zero_le _, by simp⟩ }
  · rw [hs] at hcloses
    obtain ⟨hlt, hget⟩ := List.getElem?_eq_some_iff.mp hi
    refine { h with stored_closed := ?_, closes := ⟨hlt, ?_⟩ }
    · intro j hj
      rcases List.mem_cons.mp hj with rfl | hj
      · exact List.mem_of_getElem? hi
      · exact h.stored_closed j hj
    · intro j hj
      rw [List.take_add_one, hi, Option.toList_some, List.mem_append, List.mem_singleton] at hj
      rcases hj with hj | rfl
      · exact List.mem_cons_of_mem _ (hcloses.2 j hj)
      · exact List.mem_cons_self
  · rw [hs] at hcloses
    refine { h with closes := ?_ }
    intro i hi
    have hmem := h.mem_values (hsettled (by simp [atEnd, hs, hnone])) hi
    rw [← List.take_of_length_le (List.getElem?_eq_none_iff.mp hnone)] at hmem
    exact hcloses.2 i hmem
  · rw [hs] at hcloses
    rcases hD with ⟨part', rfl⟩ | rfl
    · exact { h with closes := hcloses }
    · exact { h with closes := hcloses }

end Process

namespace Servers

variable {s s' : Servers} {p d : Nat} {P : Process} {c : Dispatch}

def OneWorker (s : Servers) : Prop :=
  ∀ p P, s.deployment.processes p = some P → P.OneWorker (s.shutdowns p)

def Sole (s : Servers) : Prop :=
  ∀ p P, s.deployment.processes p = some P → P.Sole (s.shutdowns p)

/-- No two calls of `ensureConsumer` for one key overlap, and `onModuleDestroy` does not end while a
call awaits a consumer that is not stored. -/
def Alone (s : Servers) : Event → Prop
  | .run (.startup p) => ∀ P ∈ s.deployment.processes p, ∀ key ∈ P.nextKey, P.EnsuresAlone key
  | .run (.dispatch p d) => ∀ P ∈ s.deployment.processes p, ∀ c ∈ P.dispatches[d]?,
    c.state = .called → P.EnsuresAlone c.method.consumerKey
  | .onModuleDestroy p => ∀ P ∈ s.deployment.processes p, P.atEnd (s.shutdowns p) →
    ∀ i ∈ P.awaited, i ∈ P.values
  | _ => True

theorem step_run {e : Deployment.Event} (h : step s (.run e) = some s') :
    s.deployment.step e = some s'.deployment ∧
      ((∃ p methods, e = .start p methods ∧
          s'.shutdowns = Function.update s.shutdowns p ⟨.running, []⟩) ∨
        (∀ p methods, e ≠ .start p methods) ∧ s'.shutdowns = s.shutdowns) := by
  simp only [step, Option.bind_eq_bind, Option.bind_eq_some_iff] at h
  obtain ⟨deployment, hd, h⟩ := h
  split at h
  · cases h
    exact ⟨hd, .inl ⟨_, _, rfl, rfl⟩⟩
  · split at h
    · cases h
    · cases h
      exact ⟨hd, .inr ⟨nofun, rfl⟩⟩
  · next hstart _ =>
    cases h
    exact ⟨hd, .inr ⟨hstart, rfl⟩⟩

theorem step_onModuleDestroy (h : step s (.onModuleDestroy p) = some s') :
    ∃ P D, s.deployment.processes p = some P ∧
      P.onModuleDestroy (s.deployment.busy p) (s.shutdowns p) = some D ∧
      s' = s.setShutdown p D := by
  simp only [step, Option.bind_eq_bind, Option.bind_eq_some_iff] at h
  obtain ⟨P, hP, D, hD, h⟩ := h
  cases h
  exact ⟨P, D, hP, hD, rfl⟩

theorem Sole.init : init.Sole := nofun

theorem Sole.update (h : s.Sole)
    (hprocesses : s'.deployment.processes = Function.update s.deployment.processes p (some P))
    (hshutdowns : s'.shutdowns = s.shutdowns) (hP : P.Sole (s.shutdowns p)) : s'.Sole := by
  intro q Q hQ
  rw [hshutdowns]
  rw [hprocesses, Function.update_apply] at hQ
  split at hQ
  · next hq =>
    cases hQ
    exact hq ▸ hP
  · exact h q Q hQ

theorem Sole.of_processes_eq (h : s.Sole)
    (hprocesses : s'.deployment.processes = s.deployment.processes)
    (hshutdowns : s'.shutdowns = s.shutdowns) : s'.Sole := by
  intro q Q hQ
  rw [hshutdowns]
  exact h q Q (hprocesses ▸ hQ)

theorem Sole.start {methods : List UseQueueMethod} (h : s.Sole)
    (hs : step s (.run (.start p methods)) = some s') : s'.Sole := by
  obtain ⟨hd, ⟨_, _, he, hshutdowns⟩ | ⟨hne, _⟩⟩ := step_run hs
  · cases he
    simp only [Deployment.step, Option.ite_none_right_eq_some, Option.some.injEq] at hd
    intro q Q hQ
    rw [← hd.2] at hQ
    simp only [Deployment.setProcess, Function.update_apply] at hQ
    rw [hshutdowns, Function.update_apply]
    split at hQ
    · next hq =>
      cases hQ
      rw [if_pos hq]
      exact .start methods
    · next hq =>
      rw [if_neg hq]
      exact h q Q hQ
  · exact absurd rfl (hne p methods)

theorem Sole.crash (h : s.Sole) (hs : step s (.run (.crash p)) = some s') : s'.Sole := by
  obtain ⟨hd, ⟨_, _, he, _⟩ | ⟨_, hshutdowns⟩⟩ := step_run hs
  · cases he
  · intro q Q hQ
    rw [← Option.some.inj hd] at hQ
    rw [hshutdowns]
    simp only [Function.update_apply] at hQ
    split at hQ
    · cases hQ
    · exact h q Q hQ

theorem Sole.run {e : Deployment.Event} (h : s.Sole) (hC : Alone s (.run e))
    (hs : Servers.step s (.run e) = some s') : s'.Sole := by
  obtain ⟨hd, ⟨p, methods, rfl, _⟩ | ⟨hne, hshutdowns⟩⟩ := step_run hs
  · exact h.start hs
  cases e with
  | start p methods => exact absurd rfl (hne p methods)
  | crash p => exact h.crash hs
  | load p method =>
    obtain ⟨P, hP, hd⟩ := Option.bind_eq_some_iff.mp hd
    exact h.update (Option.some.inj hd ▸ rfl) hshutdowns ((h p P hP).load method)
  | startup p =>
    simp only [Deployment.step, Option.bind_eq_bind, Option.bind_eq_some_iff] at hd
    obtain ⟨P, hP, P', hP', hd⟩ := hd
    exact h.update (Option.some.inj hd ▸ rfl) hshutdowns ((h p P hP).onModuleInit hP' (hC P hP))
  | call p method handler args =>
    obtain ⟨P, hP, hd⟩ := Option.bind_eq_some_iff.mp hd
    split at hd
    · exact h.update (Option.some.inj hd ▸ rfl) hshutdowns ((h p P hP).call method handler args)
    · cases hd
  | dispatch p d =>
    simp only [Deployment.step, Option.bind_eq_bind, Option.bind_eq_some_iff] at hd
    obtain ⟨P, hP, c, hc, hd⟩ := hd
    obtain ⟨P', hm, hprocesses, _⟩ := Deployment.dispatchStep_cases hd
    exact h.update hprocesses hshutdowns ((h p P hP).move hm hc (hC P hP c hc))
  | take p i =>
    obtain ⟨P, c, j, job, _, _, _, _, hd⟩ := Deployment.step_take hd
    exact h.of_processes_eq (hd ▸ rfl) hshutdowns
  | finish j success =>
    obtain ⟨job, _, hd⟩ := Option.bind_eq_some_iff.mp hd
    split at hd
    · exact h.of_processes_eq (Option.some.inj hd ▸ rfl) hshutdowns
    · cases hd
  | requeue j =>
    obtain ⟨job, _, hd⟩ := Option.bind_eq_some_iff.mp hd
    split at hd
    · exact h.of_processes_eq (Option.some.inj hd ▸ rfl) hshutdowns
    · cases hd

theorem Sole.step {e : Event} (h : s.Sole) (hC : Alone s e) (hs : Servers.step s e = some s') :
    s'.Sole := by
  cases e with
  | run e => exact h.run hC hs
  | onModuleDestroy p =>
    obtain ⟨P, D, hP, hD, rfl⟩ := step_onModuleDestroy hs
    intro q Q hQ
    simp only [setShutdown, Function.update_apply]
    split
    · next hq =>
      subst hq
      cases hP.symm.trans hQ
      exact (h q P hP).onModuleDestroy hD (hC P hP)
    · exact h q Q hQ

/-- A second consumer of a key shows in the process. -/
theorem not_oneWorker {D : Shutdown} {P' : Process} {i : Nat} {key : String}
    (hi : P.keyOf i = some key) (hbuilt : P'.built = P.built ++ [⟨key, []⟩]) : ¬P'.OneWorker D := by
  intro h
  have hunique := h.unique
  obtain ⟨b, hb, hkey⟩ := Process.keyOf_eq_some.mp hi
  rw [hbuilt, List.map_append, List.nodup_append] at hunique
  refine hunique.2.2 key ?_ key (List.mem_singleton.mpr rfl) rfl
  exact List.mem_map.mpr ⟨b, List.mem_of_getElem? hb, hkey⟩

/-- A step that makes two calls overlap leaves a second worker or one that is never closed. -/
theorem Sole.alone {e : Event} (h : s.Sole) (hs : Servers.step s e = some s')
    (hone : s'.OneWorker) : Alone s e := by
  cases e with
  | run e =>
    obtain ⟨hd, _⟩ := step_run hs
    cases e with
    | startup p =>
      intro P hP key hkey hnone i _ hi
      simp only [Deployment.step, Option.bind_eq_bind, Option.bind_eq_some_iff] at hd
      obtain ⟨P₀, hP₀, P', hP', hd⟩ := hd
      cases hP.symm.trans hP₀
      have hbuilt : P'.built = P.built ++ [⟨key, []⟩] := by
        obtain ⟨n, hn, hkey⟩ : ∃ n, P.startup = .next n ∧ P.registeredKeys[n]? = some key := by
          unfold Process.nextKey at hkey
          split at hkey
          · exact ⟨_, by assumption, hkey⟩
          · cases hkey
          · cases hkey
        simp only [Process.onModuleInit, hn, hkey, Process.ensureConsumer, hnone,
          Option.isSome_none, Bool.false_eq_true, if_false, Option.some.injEq] at hP'
        rw [← hP']
      refine not_oneWorker hi hbuilt (hone p P' ?_)
      rw [← Option.some.inj hd]
      exact Function.update_self ..
    | dispatch p d =>
      intro P hP c hc hcalled hnone i _ hi
      simp only [Deployment.step, Option.bind_eq_bind, Option.bind_eq_some_iff] at hd
      obtain ⟨P₀, hP₀, c₀, hc₀, hd⟩ := hd
      cases hP.symm.trans hP₀
      cases (Option.mem_def.mp hc).symm.trans hc₀
      obtain ⟨P', hm, hprocesses, _⟩ := Deployment.dispatchStep_cases hd
      refine not_oneWorker hi (?_ : P'.built = _) (hone p P' ?_)
      · cases hm with
        | found _ hsome => simp [hnone] at hsome
        | construct => rfl
        | store hs | get hs | add hs | settle hs => cases hcalled.symm.trans hs
      · rw [hprocesses]
        exact Function.update_self ..
    | start | crash | load | call | take | finish | requeue => trivial
  | onModuleDestroy p =>
    intro P hP hend i hi
    obtain ⟨P₀, D, hP₀, hD, rfl⟩ := step_onModuleDestroy hs
    cases hP.symm.trans hP₀
    have hended : D = { s.shutdowns p with state := .ended P.built.length } := by
      unfold Process.atEnd at hend
      split at hend
      · next n hn =>
        simp only [Process.onModuleDestroy, hn, Option.isNone_iff_eq_none.mp hend,
          Option.some.injEq] at hD
        exact hD.symm
      all_goals cases hend
    have hclosed := (hone p P hP).closed
    simp only [setShutdown, Function.update_self, hended] at hclosed
    have hsole := h p P hP
    exact hsole.stored_closed i (hclosed _ rfl i (Process.lt_of_awaited hsole.toInv hi))

/-- Along a run each key has one worker, which sees every handler of the key and is closed at the
end, just when no two calls of `ensureConsumer` for a key overlap and none is underway at the end
of `onModuleDestroy`. -/
theorem one_worker_iff {ls : List Event} (h : Run.exec step init ls = some s) :
    Run.Always step OneWorker init ls ↔ Run.Along step Alone init ls := by
  refine Run.always_iff_along ?_ Sole.step Sole.alone h .init
  intro s hs p P hP
  exact (hs p P hP).oneWorker

/-! ### Sample runs -/

instance (s : Servers) (e : Event) : Decidable (Alone s e) :=
  match e with
  | .run (.startup p) => inferInstanceAs (Decidable (∀ P ∈ s.deployment.processes p,
      ∀ key ∈ P.nextKey, P.EnsuresAlone key))
  | .run (.dispatch p d) => inferInstanceAs (Decidable (∀ P ∈ s.deployment.processes p,
      ∀ c ∈ P.dispatches[d]?, c.state = .called → P.EnsuresAlone c.method.consumerKey))
  | .onModuleDestroy p => inferInstanceAs (Decidable (∀ P ∈ s.deployment.processes p,
      P.atEnd (s.shutdowns p) → ∀ i ∈ P.awaited, i ∈ P.values))
  | .run (.start _ _) | .run (.crash _) | .run (.load _ _) | .run (.call _ _ _ _)
  | .run (.take _ _) | .run (.finish _ _) | .run (.requeue _) => isTrue trivial

/-- A sign-in is dispatched, served and settled, and the process shuts down. -/
def servedAndClosed : List Event :=
  (Deployment.acceptedSignIn ++
    [Deployment.Event.take 0 0, .finish 0 true, .dispatch 0 0]).map .run ++
      List.replicate 6 (.onModuleDestroy 0)

def closedDown : Servers := (Run.exec step init servedAndClosed).get (by decide +kernel)

theorem one_worker_iff_sample :
    Run.exec step init servedAndClosed = some closedDown ∧
      closedDown.shutdowns 0 = ⟨.ended 1, [0]⟩ ∧
      Run.Always step OneWorker init servedAndClosed := by
  have h : Run.exec step init servedAndClosed = some closedDown := (Option.some_get _).symm
  exact ⟨h, by decide +kernel, (one_worker_iff h).mpr (by decide +kernel)⟩

/-- A method whose class is loaded after the start of the process. -/
def exportMethod : UseQueueMethod := ⟨"report-consumer", "report-service-export"⟩

/-- Two calls of the method overlap in `ensureConsumer`. -/
def overlapping : List Event :=
  [Deployment.Event.start 0 [Deployment.signInMethod], .startup 0, .startup 0, .startup 0,
    .load 0 exportMethod, .call 0 exportMethod ⟨1, 2⟩ [.str "dto"],
    .call 0 exportMethod ⟨1, 2⟩ [.str "dto"], .dispatch 0 0, .dispatch 0 1, .dispatch 0 0,
    .dispatch 0 1].map .run

def overlapped : Servers := (Run.exec step init overlapping).get (by decide +kernel)

def overlappedProcess : Process := (overlapped.deployment.processes 0).get (by decide +kernel)

/-- The key gets two workers, and the first of them is forgotten. -/
theorem two_workers :
    Run.exec step init overlapping = some overlapped ∧
      overlapped.deployment.processes 0 = some overlappedProcess ∧
      overlappedProcess.built.map (·.consumerKey) =
        ["user-consumer", "report-consumer", "report-consumer"] ∧
      overlappedProcess.values = [0, 2] ∧ overlappedProcess.awaited = [] ∧
      ¬overlapped.OneWorker := by
  have hprocess : overlapped.deployment.processes 0 = some overlappedProcess :=
    (Option.some_get _).symm
  have hkeys : overlappedProcess.built.map (·.consumerKey) =
      ["user-consumer", "report-consumer", "report-consumer"] := by decide +kernel
  refine ⟨(Option.some_get _).symm, hprocess, hkeys, by decide +kernel, by decide +kernel, ?_⟩
  intro hone
  have hunique := (hone 0 overlappedProcess hprocess).unique
  rw [hkeys] at hunique
  exact absurd hunique (by decide)

end Servers

end NestHarness
