import NestHarness.Lib.TxnRuns

/-!
# Serial runs

A run is serial when every call begins after all earlier ones have settled. The database then stands
still while a call runs, outside edits aside, and a call is never kept waiting: it settles.
-/

namespace Txn

variable {S : Schema} {π : Policy S} {V : Service S} {w w' : World V}

def Call.Settled (c : Call V) : Prop := ∃ r, c.phase = .settled r

instance : (c : Call V) → Decidable c.Settled
  | ⟨_, _, .running _ _⟩ => isFalse nofun
  | ⟨_, _, .settled r⟩ => isTrue ⟨r, rfl⟩

namespace World

/-- A call may begin when no other call is running. -/
def Serial (w : World V) : Label V → Prop
  | .call _ => ∀ c ∈ w.calls, c.Settled
  | _ => True

instance (w : World V) : (l : Label V) → Decidable (w.Serial l)
  | .call _ => inferInstanceAs (Decidable (∀ c ∈ w.calls, c.Settled))
  | .exec _ _ | .finish _ | .crash _ | .tick _ | .edit _ => isTrue trivial

/-- What holds in a serial run of the part `f` of the database that outside edits leave alone, and
of a relation `Q` between outcomes and databases that the outcomes of settled calls are in. -/
structure StandsStill (f : S.Db → β) (Q : Except V.Exn V.Reply → S.Db → Prop) (w : World V) :
    Prop where
  alone : ∀ {i : Nat} {c : Call V}, w.calls[i]? = some c → ¬ c.Settled → i + 1 = w.calls.length
  still : ∀ {c : Call V}, c ∈ w.calls →
    ∃ b, (∀ e ∈ c.trace, f e.store.db = b) ∧ (¬ c.Settled → f w.db = b)
  past : ∀ {i j : Nat} {c c' : Call V} {r}, w.calls[i]? = some c → w.calls[j]? = some c' → j < i →
    c'.phase = .settled r → ∀ e ∈ c.trace, Q r e.store.db

theorem StandsStill.init {f : S.Db → β} {Q : Except V.Exn V.Reply → S.Db → Prop} (s : Store S) :
    (init s : World V).StandsStill f Q where
  alone h := by cases h
  still h := by cases h
  past h := by cases h

variable {f : S.Db → β} {Q : Except V.Exn V.Reply → S.Db → Prop}

/-- The last call goes on: it keeps its trace, or performs an operation on the present store, and
the database changes only when it settles. -/
theorem StandsStill.set {s : Store S} {c c' : Call V} (h : w.StandsStill f Q)
    (hQ : ∀ c ∈ w.calls, ∀ r, c.phase = .settled r → Q r w.db) (hc : w.calls[i]? = some c)
    (hrun : ¬ c.Settled)
    (ht : ∀ e ∈ c'.trace, e ∈ c.trace ∨ e.store = w.toStore)
    (hdb : ¬ c'.Settled → f s.db = f w.db) :
    (⟨s, w.calls.set i c'⟩ : World V).StandsStill f Q where
  alone {j d} hj hd := by
    rw [List.length_set]
    rw [List.getElem?_set] at hj
    split at hj
    · rename_i hij
      exact hij ▸ h.alone hc hrun
    · exact h.alone hj hd
  still {d} hd := by
    obtain ⟨b, hb, hbw⟩ := h.still (List.mem_of_getElem? hc)
    have hlast := h.alone hc hrun
    obtain ⟨j, hj⟩ := List.mem_iff_getElem?.mp hd
    rw [List.getElem?_set] at hj
    split at hj
    · split at hj <;> cases hj
      refine ⟨b, ?_, fun hd => (hdb hd).trans (hbw hrun)⟩
      intro e he
      rcases ht e he with he | he
      · exact hb e he
      · exact he ▸ hbw hrun
    · rename_i hij
      obtain ⟨b', hb', _⟩ := h.still (List.mem_of_getElem? hj)
      refine ⟨b', hb', fun hd => absurd (h.alone hj hd) ?_⟩
      omega
  past {j k d d' r} hj hk hkj hr e he := by
    have hlast := h.alone hc hrun
    have hlt : j < w.calls.length := by
      have := (List.getElem?_eq_some_iff.mp hj).1
      rwa [List.length_set] at this
    rw [List.getElem?_set] at hj hk
    rw [if_neg (by omega)] at hk
    split at hj
    · split at hj <;> cases hj
      rename_i hij _
      rcases ht e he with he | he
      · exact h.past hc hk (hij ▸ hkj) hr e he
      · exact he ▸ hQ d' (List.mem_of_getElem? hk) r hr
    · exact h.past hj hk hkj hr e he

/-- A call that has just been made is the last one and has done nothing. -/
theorem getElem?_made {r : V.Req} {c : Call V}
    (hi : (w.calls ++ [⟨r, [], .running (V.serve r) .empty⟩])[i]? = some c) :
    w.calls[i]? = some c ∨ i = w.calls.length ∧ c.trace = [] := by
  rcases Nat.lt_or_ge i w.calls.length with hlt | hge
  · rw [List.getElem?_append_left hlt] at hi
    exact .inl hi
  · have hlt := (List.getElem?_eq_some_iff.mp hi).1
    rw [List.length_append, List.length_singleton] at hlt
    obtain rfl : i = w.calls.length := by omega
    rw [List.getElem?_append_right hge, Nat.sub_self] at hi
    cases hi
    exact .inr ⟨rfl, rfl⟩

theorem StandsStill.made (h : w.StandsStill f Q) (hl : ∀ c ∈ w.calls, c.Settled) (r : V.Req) :
    ({ w with calls := w.calls ++ [⟨r, [], .running (V.serve r) .empty⟩] } : World V).StandsStill
      f Q where
  alone {i c} hi hc := by
    rw [List.length_append, List.length_singleton]
    rcases getElem?_made hi with hi | ⟨rfl, _⟩
    · exact absurd (hl c (List.mem_of_getElem? hi)) hc
    · rfl
  still {c} hc := by
    obtain ⟨i, hi⟩ := List.mem_iff_getElem?.mp hc
    rcases getElem?_made hi with hi | ⟨_, ht⟩
    · exact h.still (List.mem_of_getElem? hi)
    · exact ⟨f w.db, by simp [ht], fun _ => rfl⟩
  past {i j c c' r'} hi hj hji hr e he := by
    rcases getElem?_made hi with hi | ⟨_, ht⟩
    · have hlt := (List.getElem?_eq_some_iff.mp hi).1
      rw [List.getElem?_append_left (by omega)] at hj
      exact h.past hi hj hji hr e he
    · rw [ht] at he
      cases he

theorem StandsStill.step (h : w.StandsStill f Q) (hf : ∀ e d, f (S.edit e d) = f d)
    (hQ : ∀ c ∈ w.calls, ∀ r, c.phase = .settled r → Q r w.db) (hl : w.Serial l)
    (hs : w.step π l = some w') : w'.StandsStill f Q := by
  cases l with
  | call r =>
    cases hs
    exact h.made hl r
  | exec i c =>
    obtain ⟨r, tr, o, k, t, x, t', hc, _, rfl⟩ := step_exec hs
    refine h.set (s := w.toStore) hQ hc ?_ ?_ fun _ => rfl
    · rintro ⟨_, hr⟩
      cases hr
    · intro e he
      rcases List.mem_append.mp he with he | he
      · exact .inl he
      · exact .inr (by rw [List.mem_singleton.mp he])
  | finish i =>
    obtain ⟨q, tr, r, t, hc, rfl⟩ := step_finish hs
    refine h.set hQ hc ?_ (fun e he => .inl he) fun hno => absurd ⟨r, rfl⟩ hno
    rintro ⟨_, hr⟩
    cases r <;> cases hr
  | crash i =>
    obtain ⟨_, r, tr, p, t, hc, rfl⟩ := step_crash hs
    refine h.set (s := w.toStore) hQ hc ?_ (fun e he => .inl he) fun hno => absurd ⟨_, rfl⟩ hno
    rintro ⟨_, hr⟩
    cases hr
  | tick t =>
    simp only [World.step] at hs
    split at hs <;> cases hs
    exact ⟨h.alone, h.still, h.past⟩
  | edit e =>
    simp only [World.step] at hs
    split at hs <;> cases hs
    refine ⟨h.alone, ?_, h.past⟩
    intro c hc
    obtain ⟨b, hb, hw⟩ := h.still hc
    exact ⟨b, hb, fun hno => (hf e w.db).trans (hw hno)⟩

/-- **A serial run stands still** around each of its calls. -/
theorem StandsStill.of_serial {A : Rely π} (hA : A.Keeps V) (hf : ∀ e d, f (S.edit e d) = f d)
    (hQ : ∀ {w : World V}, w.Sound A → ∀ c ∈ w.calls, ∀ r, c.phase = .settled r → Q r w.db)
    {s : Store S} (hs : A.inv s) {ls : List (Label V)}
    (hser : Run.Along (World.step π) Serial (World.init s) ls)
    (h : Run.exec (World.step π) (World.init s) ls = some w) : w.StandsStill f Q := by
  refine (Run.invariant_along (I := fun w => w.Sound A ∧ w.StandsStill f Q) ?_ h hser
    ⟨.init hs, .init s⟩).2
  intro w l w' ⟨hw, hst⟩ hl hs
  exact ⟨(hw.step hA hs).1, hst.step hf (hQ hw) hl hs⟩

/-! ## Calls settle -/

end World

/-- An operation that no lock blocks can be performed. -/
theorem exec_total (s : Store S) {blocked : S.Key → Bool} (h : ∀ k, blocked k = false) (t : Tx S)
    (o : Op S) : ∃ c x t', exec π s blocked t o c = some (x, t') := by
  cases o with
  | now => exact ⟨.proceed, _, _, rfl⟩
  | random => exact ⟨.pick "x", _, _, rfl⟩
  | query q => exact ⟨.proceed, _, _, rfl⟩
  | write w =>
    cases hr : S.refuse (t.onto s.db) w with
    | some n => exact ⟨.refuse, _, _, by simp only [exec, hr, Option.map_some]; rfl⟩
    | none =>
      by_cases hk : ∀ k ∈ S.keys w, S.taken (t.onto s.db) k = false
      · exact ⟨.proceed, _, _, if_pos ⟨hr, fun k hw => ⟨hk k hw, h k⟩⟩⟩
      · push Not at hk
        obtain ⟨k, hw, ht⟩ := hk
        exact ⟨.name k, _, _, if_pos ⟨hw, by simpa using ht⟩⟩

namespace World

/-- Settled calls hold no keys. -/
theorem blocked_eq_false {i : Nat} (h : ∀ c ∈ w.calls.eraseIdx i, c.Settled) (k : S.Key) :
    w.blocked i k = false := by
  rw [blocked, decide_eq_false_iff_not, List.mem_flatMap]
  rintro ⟨⟨_, _, _⟩, hc, hk⟩
  obtain ⟨r, hr⟩ := h _ hc
  cases hr
  cases hk

/-- **A call settles** when no other call is running. -/
theorem settles {i : Nat} {r : V.Req} {tr : List (Event S)} {p : Prog (effect S) V.Exn V.Reply}
    {t : Tx S} (hi : w.calls[i]? = some ⟨r, tr, .running p t⟩)
    (hothers : ∀ c ∈ w.calls.eraseIdx i, c.Settled) :
    ∃ ls w' c, (∀ l ∈ ls, l = .finish i ∨ ∃ c, l = .exec i c) ∧
      Run.exec (World.step π) w ls = some w' ∧ w'.calls[i]? = some c ∧ c.Settled := by
  have hlt := (List.getElem?_eq_some_iff.mp hi).1
  induction p generalizing w tr t with
  | ret a =>
    have hstep : w.step π (.finish i) = some { w with
        db := t.onto w.db, calls := w.calls.set i ⟨r, tr, .settled (.ok a)⟩ } := by
      simp only [World.step, hi]
    exact ⟨[.finish i], _, ⟨r, tr, .settled (.ok a)⟩, by simp,
      Run.exec_cons_iff.mpr ⟨_, hstep, rfl⟩, by simp [hlt], _, rfl⟩
  | raise e =>
    have hstep : w.step π (.finish i) = some { w with
        calls := w.calls.set i ⟨r, tr, .settled (.error e)⟩ } := by
      simp only [World.step, hi]
    exact ⟨[.finish i], _, ⟨r, tr, .settled (.error e)⟩, by simp,
      Run.exec_cons_iff.mpr ⟨_, hstep, rfl⟩, by simp [hlt], _, rfl⟩
  | call o k ih =>
    obtain ⟨c, x, t', hx⟩ := exec_total (π := π) w.toStore (blocked_eq_false hothers) t o
    have hstep : w.step π (.exec i c) = some { w with
        calls := w.calls.set i ⟨r, tr ++ [⟨o, x, w.toStore, t⟩], .running (k x) t'⟩ } := by
      simp only [World.step, hi, hx, Option.map_some]
    obtain ⟨ls, w', c', hls, hrun, hc'⟩ := ih x (w := { w with
        calls := w.calls.set i ⟨r, tr ++ [⟨o, x, w.toStore, t⟩], .running (k x) t'⟩ })
      (List.getElem?_set_self hlt) (by rwa [List.eraseIdx_set_eq]) (by simpa using hlt)
    refine ⟨.exec i c :: ls, w', c', ?_, Run.exec_cons_iff.mpr ⟨_, hstep, hrun⟩, hc'⟩
    simpa using hls

end World

/-! ## A call on its own -/

/-- `Plays π s held p t l r t'`: on the store `s`, which nobody else changes, and while others hold
at most the unique keys `held`, the program `p` performs the operations `l` from the transaction `t`
and ends with `r` and the transaction `t'`. -/
inductive Plays (π : Policy S) (s : Store S) (held : S.Key → Bool) {ε α : Type} :
    Prog (effect S) ε α → Tx S → List (Event S) → Except ε α → Tx S → Prop
  | ended (r : Except ε α) : Plays π s held (.ended r) t [] r t
  | op {o : Op S} {k : o.Ans → Prog (effect S) ε α} {x : o.Ans} (c : Choice S) :
    exec π s held t o c = some (x, t₁) → Plays π s held (k x) t₁ l r t' →
    Plays π s held (.call o k) t (⟨o, x, s, t⟩ :: l) r t'

variable {held : S.Key → Bool}

theorem Plays.map {p : Prog (effect S) ε α} {s : Store S} {t t' : Tx S} {l : List (Event S)}
    {r : Except ε α} (f : α → γ) (h : Plays π s held p t l r t') :
    Plays π s held (p.bind fun a => .ret (f a)) t l (r.map f) t' := by
  induction h with
  | ended r =>
    cases r with
    | ok a => exact .ended (.ok (f a))
    | error e => exact .ended (.error e)
  | op c hx _ ih => exact .op c hx ih

theorem Plays.bind_error {p : Prog (effect S) ε α} {s : Store S} {t t' : Tx S} {l : List (Event S)}
    {e : ε} {f : α → Prog (effect S) ε γ} (h : Plays π s held p t l (.error e) t') :
    Plays π s held (p.bind f) t l (.error e) t' := by
  generalize hr : (Except.error e : Except ε α) = r at h
  induction h with
  | ended r =>
    subst hr
    exact .ended (.error e)
  | op c hx _ ih => exact .op c hx (ih hr)

namespace World

theorem Reaches.head {l : Label V} {w₁ : World V} (h : w.step π l = some w₁)
    (h' : w₁.Reaches π w') : w.Reaches π w' :=
  let ⟨ls, hls⟩ := h'
  ⟨l :: ls, Run.exec_cons_iff.mpr ⟨w₁, h, hls⟩⟩

theorem Reaches.trans {w₁ : World V} (h : w.Reaches π w₁) (h' : w₁.Reaches π w') :
    w.Reaches π w' := by
  obtain ⟨ls, hls⟩ := h
  induction ls generalizing w with
  | nil =>
    cases hls
    exact h'
  | cons l ls ih =>
    obtain ⟨w₂, hl, hls⟩ := Run.exec_cons_iff.mp hls
    exact .head hl (ih hls)

variable {s : Store S} {cs : List (Call V)} {r : V.Req} {l l₀ : List (Event S)} {t t' : Tx S}

theorem step_last {o : Op S} {k : o.Ans → Prog (effect S) V.Exn V.Reply} {c : Choice S} {x : o.Ans}
    (hcs : ∀ k ∈ cs.flatMap Call.keys, held k = true) (h : exec π s held t o c = some (x, t')) :
    World.step π ⟨s, cs ++ [⟨r, l₀, .running (.call o k) t⟩]⟩ (.exec cs.length c) =
      some ⟨s, cs ++ [⟨r, l₀ ++ [⟨o, x, s, t⟩], .running (k x) t'⟩]⟩ := by
  have hx : exec π s (World.blocked ⟨s, cs ++ [⟨r, l₀, .running (.call o k) t⟩]⟩ cs.length) t o c =
      some (x, t') := by
    refine exec_mono h ?_
    intro k hk
    rw [World.blocked, decide_eq_false_iff_not]
    intro hmem
    refine absurd (hcs k ?_) (by simp [hk])
    simpa [List.eraseIdx_append_of_length_le] using hmem
  simp [World.step, hx]

/-- The last call goes on while all others stand still. -/
theorem plays_last {p : Prog (effect S) V.Exn V.Reply} {x : Except V.Exn V.Reply}
    (hcs : ∀ k ∈ cs.flatMap Call.keys, held k = true) (h : Plays π s held p t l x t') :
    (⟨s, cs ++ [⟨r, l₀, .running p t⟩]⟩ : World V).Reaches π
      ⟨s.after t' x, cs ++ [⟨r, l₀ ++ l, .settled x⟩]⟩ := by
  induction h generalizing l₀ with
  | @ended t x =>
    have hstep : (⟨s, cs ++ [⟨r, l₀, .running (.ended x) t⟩]⟩ : World V).step π
        (.finish cs.length) = some ⟨s.after t x, cs ++ [⟨r, l₀, .settled x⟩]⟩ := by
      cases x <;> simp [World.step, Prog.ended, Store.after]
    rw [List.append_nil]
    exact .head hstep ⟨[], rfl⟩
  | op c hx _ ih =>
    rw [List.append_cons l₀]
    exact .head (step_last hcs hx) ih

/-- **A call on its own** is made, plays its program and settles, whatever calls are under way. -/
theorem plays {x : Except V.Exn V.Reply} (hw : ∀ k ∈ w.calls.flatMap Call.keys, held k = true)
    (h : Plays π w.toStore held (V.serve r) .empty l x t) :
    w.Reaches π ⟨w.toStore.after t x, w.calls ++ [⟨r, l, .settled x⟩]⟩ :=
  .head (l := .call r) rfl (plays_last hw h)

/-! ## The stores that calls have met -/

/-- A step records at most one operation, in the store that it starts in. -/
theorem step_trace {l : Label V} (hs : w.step π l = some w') {c : Call V} (hc : c ∈ w'.calls)
    {e : Event S} (he : e ∈ c.trace) :
    (∃ c₀ ∈ w.calls, e ∈ c₀.trace) ∨ e.store = w.toStore := by
  have hset {i : Nat} {c₀ c₁ : Call V} (hi : w.calls[i]? = some c₀) (hc : c ∈ w.calls.set i c₁)
      (htrace : e ∈ c₁.trace → e ∈ c₀.trace ∨ e.store = w.toStore) :
      (∃ c₀ ∈ w.calls, e ∈ c₀.trace) ∨ e.store = w.toStore := by
    rcases List.mem_or_eq_of_mem_set hc with hc | rfl
    · exact .inl ⟨c, hc, he⟩
    · exact (htrace he).imp_left fun he => ⟨c₀, List.mem_of_getElem? hi, he⟩
  cases l with
  | call r =>
    cases hs
    rcases List.mem_append.mp hc with hc | hc
    · exact .inl ⟨c, hc, he⟩
    · cases List.mem_singleton.mp hc
      cases he
  | exec i choice =>
    obtain ⟨r, l, o, k, t, x, t', hi, _, rfl⟩ := step_exec hs
    refine hset hi hc fun he => ?_
    refine (List.mem_append.mp he).imp_right fun he => ?_
    rw [List.mem_singleton.mp he]
  | finish i =>
    obtain ⟨q, l, r, t, hi, rfl⟩ := step_finish hs
    exact hset hi hc fun he => .inl he
  | crash i =>
    obtain ⟨_, r, l, p, t, hi, rfl⟩ := step_crash hs
    exact hset hi hc fun he => .inl he
  | tick t =>
    simp only [World.step] at hs
    split at hs <;> cases hs
    exact .inl ⟨c, hc, he⟩
  | edit e' =>
    simp only [World.step] at hs
    split at hs <;> cases hs
    exact .inl ⟨c, hc, he⟩

/-- Every operation that a call has performed met the store of a world that the run went through. -/
theorem met_store {s : Store S} (h : (World.init s).Reaches π w) {c : Call V} (hc : c ∈ w.calls)
    {e : Event S} (he : e ∈ c.trace) :
    ∃ w' : World V, (World.init s).Reaches π w' ∧ w'.toStore = e.store := by
  obtain ⟨ls, hls⟩ := h
  have hinv := Run.invariant (I := fun w : World V => (World.init s).Reaches π w ∧
    ∀ c ∈ w.calls, ∀ e ∈ c.trace, ∃ w' : World V, (World.init s).Reaches π w' ∧
      w'.toStore = e.store) ?_ hls ⟨⟨[], rfl⟩, fun c hc => absurd hc List.not_mem_nil⟩
  · exact hinv.2 c hc e he
  · rintro w l w' ⟨hr, hw⟩ hs
    refine ⟨hr.trans (.head hs ⟨[], rfl⟩), fun c hc e he => ?_⟩
    rcases step_trace hs hc he with ⟨c₀, hc₀, he⟩ | he
    · exact hw c₀ hc₀ e he
    · exact ⟨w, hr, he.symm⟩

end World

end Txn
