import NestHarness.Lib.TxnSerial

/-!
# Calls that take turns

The calls of a class take turns when each of them begins after the earlier ones of the class have
settled; other calls run whenever they like. When these leave a part of the database alone, it
stands still while a call of the class runs. In the order in which they were made, the calls of the
class are then an execution of a sequential machine on that part.
-/

namespace Txn

variable {S : Schema} {π : Policy S} {V : Service S} {w w' : World V} {A : Rely π}

/-! ## Sequential machines -/

/-- `Executes M b l b'`: from `b`, the machine `M` takes the requests of `l` one after the other,
with these outcomes, and is left at `b'`. -/
inductive Executes {Q R β : Type} (M : β → Q → R → β → Prop) (b : β) : List (Q × R) → β → Prop
  | nil : Executes M b [] b
  | snoc : Executes M b l b₁ → M b₁ q r b₂ → Executes M b (l ++ [(q, r)]) b₂

section
variable {Q R β : Type} {M : β → Q → R → β → Prop} {b b' : β}

/-- An execution goes through a state between any two parts of it. -/
theorem Executes.split (h : Executes M b (l ++ l') b') :
    ∃ b₁, Executes M b l b₁ ∧ Executes M b₁ l' b' := by
  generalize hl : l ++ l' = ls at h
  induction h generalizing l' with
  | nil =>
    obtain ⟨rfl, rfl⟩ := List.append_eq_nil_iff.mp hl
    exact ⟨b, .nil, .nil⟩
  | @snoc ls b₁ q r b₂ h hM ih =>
    rcases List.eq_nil_or_concat l' with rfl | ⟨init, x, rfl⟩
    · rw [List.append_nil] at hl
      subst hl
      exact ⟨b₂, .snoc h hM, .nil⟩
    · rw [List.concat_eq_append, ← List.append_assoc] at hl
      obtain ⟨rfl, hx⟩ := List.append_inj' hl rfl
      obtain ⟨b₀, hl, hinit⟩ := ih rfl
      rw [List.concat_eq_append, hx]
      exact ⟨b₀, hl, .snoc hinit hM⟩

/-- What each request keeps, an execution keeps. -/
theorem Executes.invariant {I : β → Prop} (hM : ∀ {b q r b'}, I b → M b q r b' → I b')
    (h : Executes M b l b') (hb : I b) : I b' := by
  induction h with
  | nil => exact hb
  | snoc _ hstep ih => exact hM ih hstep

/-- One request of an execution, with the states before and after it. -/
theorem Executes.mem (h : Executes M b l b') (hx : (q, r) ∈ l) :
    ∃ l₁ l₂ b₁ b₂, l = l₁ ++ (q, r) :: l₂ ∧ Executes M b l₁ b₁ ∧ M b₁ q r b₂ ∧
      Executes M b₂ l₂ b' := by
  obtain ⟨l₁, l₂, rfl⟩ := List.append_of_mem hx
  rw [List.append_cons] at h
  obtain ⟨b₂, hfirst, hrest⟩ := h.split
  generalize hl : l₁ ++ [(q, r)] = ls at hfirst
  cases hfirst with
  | nil => simp at hl
  | snoc h hM =>
    obtain ⟨rfl, hx⟩ := List.append_inj' hl rfl
    cases hx
    exact ⟨l₁, l₂, _, b₂, rfl, h, hM, hrest⟩

end

/-! ## A part of the database that stands still -/

section
variable {β : Type} {f : S.Db → β} {hf : ∀ e d, f (S.edit e d) = f d} {b : β}

/-- `A`, in stores in which the part `f` of the database is `b`. -/
def Rely.fixing (A : Rely π) (f : S.Db → β) (hf : ∀ e d, f (S.edit e d) = f d) (b : β) :
    Rely π where
  inv s := A.inv s ∧ f s.db = b
  grow := A.grow
  refl := A.refl
  trans := A.trans
  tick h ht := ⟨⟨(A.tick h.1 ht).1, h.2⟩, (A.tick h.1 ht).2⟩
  edit h he := ⟨⟨(A.edit h.1 he).1, (hf _ _).trans h.2⟩, (A.edit h.1 he).2⟩

theorem Runs.fixing {ε α : Type} {p p' : Prog (effect S) ε α} (h : Runs A p s t l p' s' t')
    (hb : ∀ e ∈ l, f e.store.db = b) : Runs (A.fixing f hf b) p s t l p' s' t' := by
  induction h with
  | rest hg => exact .rest hg
  | op hg hi hx _ ih =>
    refine .op hg ⟨hi, hb _ List.mem_cons_self⟩ hx (ih ?_)
    intro e he
    exact hb e (List.mem_cons_of_mem _ he)

end

/-! ## Turns -/

def Call.outcome (c : Call V) : Option (Except V.Exn V.Reply) :=
  match c.phase with
  | .running _ _ => none
  | .settled r => some r

namespace World

/-- A call of the class `K` may begin when no other call of the class is running. -/
def Turns (K : V.Req → Bool) (w : World V) : Label V → Prop
  | .call q => K q = true → ∀ c ∈ w.calls, K c.req = true → c.Settled
  | _ => True

/-- The settled calls of a class with their outcomes, in the order in which they were made. -/
def settledOf (K : V.Req → Bool) (cs : List (Call V)) : List (V.Req × Except V.Exn V.Reply) :=
  cs.filterMap fun c => if K c.req then c.outcome.map (c.req, ·) else none

/-- What a service owes to the machine `M` on the part `f` of the database: a call of the class ends
as the machine takes its request, and other calls leave the part alone. -/
structure Obeys (A : Rely π) (V : Service S) (K : V.Req → Bool) {β : Type} (f : S.Db → β)
    (hf : ∀ e d, f (S.edit e d) = f d)
    (M : β → V.Req → Except V.Exn V.Reply → β → Prop) : Prop where
  ends : ∀ {q r b s₀ s l t}, K q = true → A.inv s → f s.db = b →
    Runs (A.fixing f hf b) (V.serve q) s₀ .empty l (.ended r) s t → M b q r (f (s.after t r).db)
  crashes : ∀ {q b}, π.faults = true → K q = true → M b q (.error V.crashed) b
  others : ∀ {q r s₀ s l t}, K q = false → Runs A (V.serve q) s₀ .empty l (.ended r) s t →
    f (s.after t r).db = f s.db

variable {K : V.Req → Bool} {β : Type} {f : S.Db → β} {hf : ∀ e d, f (S.edit e d) = f d}
  {M : β → V.Req → Except V.Exn V.Reply → β → Prop} {b : β}

/-- Calls of the class have taken turns from the state `b`. -/
structure InTurn (K : V.Req → Bool) (f : S.Db → β)
    (M : β → V.Req → Except V.Exn V.Reply → β → Prop) (b : β) (w : World V) : Prop where
  turns : w.calls.Pairwise fun c c' => K c.req = true → K c'.req = true → c.Settled
  still : ∀ c ∈ w.calls, K c.req = true → ¬ c.Settled → ∀ e ∈ c.trace, f e.store.db = f w.db
  executed : Executes M b (settledOf K w.calls) (f w.db)

theorem InTurn.init (s : Store S) : (init s : World V).InTurn K f M (f s.db) where
  turns := .nil
  still _ hc := by cases hc
  executed := .nil

theorem not_settled_running {q : V.Req} {l : List (Event S)} {p : Prog (effect S) V.Exn V.Reply}
    {t : Tx S} : ¬ (⟨q, l, .running p t⟩ : Call V).Settled := by
  intro h
  obtain ⟨_, hr⟩ := h
  cases hr

theorem outcome_eq_none {c : Call V} (h : ¬ c.Settled) : c.outcome = none := by
  obtain ⟨q, l, phase⟩ := c
  cases phase with
  | running => rfl
  | settled r => exact absurd ⟨r, rfl⟩ h

/-- What has settled before a running call of the class is all that has settled. -/
theorem InTurn.settledOf_eq (h : w.InTurn K f M b) {c : Call V} {l₁ l₂ : List (Call V)}
    (hw : w.calls = l₁ ++ c :: l₂) (hK : K c.req = true) (hrun : ¬ c.Settled) :
    settledOf K w.calls = settledOf K l₁ ∧ settledOf K l₂ = [] := by
  have hturns := h.turns
  rw [hw, List.pairwise_append, List.pairwise_cons] at hturns
  obtain ⟨_, ⟨hlast, _⟩, _⟩ := hturns
  have hnone : settledOf K l₂ = [] := by
    refine List.filterMap_eq_nil_iff.mpr ?_
    intro c' hc'
    rw [if_neg]
    intro hK'
    exact hrun (hlast c' hc' hK hK')
  refine ⟨?_, hnone⟩
  rw [hw, settledOf, List.filterMap_append, List.filterMap_cons]
  simp only [outcome_eq_none hrun, Option.map_none, ite_self]
  exact (congrArg (settledOf K l₁ ++ ·) hnone).trans (List.append_nil _)

theorem length_settledOf {cs : List (Call V)} (h : ∀ c ∈ cs, K c.req = true → c.Settled) :
    (settledOf K cs).length = (cs.filter fun c => K c.req).length := by
  induction cs with
  | nil => rfl
  | cons c cs ih =>
    have hrest := ih fun c' hc' => h c' (List.mem_cons_of_mem _ hc')
    cases hK : K c.req with
    | false => simpa [settledOf, hK] using hrest
    | true =>
      obtain ⟨r, hr⟩ := h c List.mem_cons_self hK
      have hsome : c.outcome = some r := by rw [Call.outcome, hr]
      simpa [settledOf, hK, hsome] using hrest

/-- The outcome of a call stands at the place of the call among those of its class. -/
theorem InTurn.getElem?_settledOf (h : w.InTurn K f M b) {c : Call V} {l₁ l₂ : List (Call V)}
    (hw : w.calls = l₁ ++ c :: l₂) (hK : K c.req = true) (hr : c.phase = .settled r) :
    (settledOf K w.calls)[(l₁.filter fun c => K c.req).length]? = some (c.req, r) := by
  have hturns := h.turns
  rw [hw, List.pairwise_append] at hturns
  have hfirst := length_settledOf fun c' hc' hK' =>
    hturns.2.2 c' hc' c List.mem_cons_self hK' hK
  have hsome : c.outcome = some r := by rw [Call.outcome, hr]
  rw [hw, settledOf, List.filterMap_append, ← hfirst]
  change (settledOf K l₁ ++ _)[(settledOf K l₁).length]? = _
  rw [List.getElem?_append_right (Nat.le_refl _), Nat.sub_self]
  simp [hK, hsome]

/-- A running call goes on to `c'`, which keeps its request. -/
theorem InTurn.pairwise_set (h : w.InTurn K f M b) (c' : Call V) {c : Call V}
    {l₁ l₂ : List (Call V)} (hw : w.calls = l₁ ++ c :: l₂) (hrun : ¬ c.Settled)
    (hreq : c'.req = c.req) :
    (l₁ ++ c' :: l₂).Pairwise fun c c' => K c.req = true → K c'.req = true → c.Settled := by
  have hturns := h.turns
  rw [hw, List.pairwise_append, List.pairwise_cons] at hturns
  obtain ⟨hl₁, ⟨hlast, hl₂⟩, hcross⟩ := hturns
  refine List.pairwise_append.mpr ⟨hl₁, List.pairwise_cons.mpr ⟨?_, hl₂⟩, ?_⟩
  · intro d hd hK hK'
    exact absurd (hlast d hd (hreq ▸ hK) hK') hrun
  · intro a ha d hd
    rcases List.mem_cons.mp hd with rfl | hd
    · rw [hreq]
      exact hcross a ha c List.mem_cons_self
    · exact hcross a ha d (List.mem_cons_of_mem _ hd)

/-- A running call of the class is the only one. -/
theorem InTurn.alone (h : w.InTurn K f M b) {c d : Call V} {l₁ l₂ : List (Call V)}
    (hw : w.calls = l₁ ++ c :: l₂) (hK : K c.req = true) (hrun : ¬ c.Settled)
    (hd : d ∈ l₁ ++ l₂) (hK' : K d.req = true) : d.Settled := by
  have hturns := h.turns
  rw [hw, List.pairwise_append, List.pairwise_cons] at hturns
  obtain ⟨_, ⟨hlast, _⟩, hcross⟩ := hturns
  rcases List.mem_append.mp hd with hd | hd
  · exact hcross d hd c List.mem_cons_self hK' hK
  · exact absurd (hlast d hd hK hK') hrun

/-- A call settles with the outcome `r` and leaves the store `s`. -/
theorem InTurn.settle (h : w.InTurn K f M b) {s : Store S} {q : V.Req} {l : List (Event S)}
    {p : Prog (effect S) V.Exn V.Reply} {t : Tx S} {r : Except V.Exn V.Reply}
    (hc : w.calls[i]? = some ⟨q, l, .running p t⟩)
    (hM : K q = true → M (f w.db) q r (f s.db)) (hother : K q = false → f s.db = f w.db) :
    (⟨s, w.calls.set i ⟨q, l, .settled r⟩⟩ : World V).InTurn K f M b := by
  have hrun : ¬ (⟨q, l, .running p t⟩ : Call V).Settled := not_settled_running
  obtain ⟨l₁, l₂, hw, _, hset⟩ := exists_split hc
  have hpairwise := h.pairwise_set ⟨q, l, .settled r⟩ hw hrun rfl
  rw [hset]
  refine ⟨hpairwise, ?_, ?_⟩
  · intro c hmem hK hno e he
    have hmem : c ∈ l₁ ++ l₂ := by
      rcases List.mem_append.mp hmem with hmem | hmem
      · exact List.mem_append_left _ hmem
      · rcases List.mem_cons.mp hmem with rfl | hmem
        · exact absurd ⟨r, rfl⟩ hno
        · exact List.mem_append_right _ hmem
    cases hq : K q with
    | true => exact absurd (h.alone hw hq hrun hmem hK) hno
    | false =>
      refine (h.still c ?_ hK hno e he).trans (hother hq).symm
      rw [hw]
      rcases List.mem_append.mp hmem with hmem | hmem
      · exact List.mem_append_left _ hmem
      · exact List.mem_append_right _ (List.mem_cons_of_mem _ hmem)
  · have hexec := h.executed
    cases hq : K q with
    | true =>
      obtain ⟨hold, hnone⟩ := h.settledOf_eq hw hq hrun
      rw [hold] at hexec
      have hnew : settledOf K (l₁ ++ ⟨q, l, .settled r⟩ :: l₂) = settledOf K l₁ ++ [(q, r)] := by
        rw [settledOf, List.filterMap_append, List.filterMap_cons]
        simp only [hq, if_true, Call.outcome, Option.map_some]
        exact congrArg (fun x => settledOf K l₁ ++ (q, r) :: x) hnone
      rw [hnew]
      exact .snoc hexec (hM hq)
    | false =>
      have hnew : settledOf K (l₁ ++ ⟨q, l, .settled r⟩ :: l₂) = settledOf K w.calls := by
        rw [hw]
        simp [settledOf, hq]
      rw [hnew, hother hq]
      exact hexec

theorem InTurn.call (h : w.InTurn K f M b) {q : V.Req} (hl : w.Turns K (.call q)) :
    ({ w with calls := w.calls ++ [⟨q, [], .running (V.serve q) .empty⟩] } : World V).InTurn
      K f M b where
  turns := by
    refine List.pairwise_append.mpr ⟨h.turns, List.pairwise_singleton _ _, ?_⟩
    intro c hc c' hc' hK hK'
    rw [List.mem_singleton.mp hc'] at hK'
    exact hl hK' c hc hK
  still c hc hK hno e he := by
    rcases List.mem_append.mp hc with hc | hc
    · exact h.still c hc hK hno e he
    · rw [List.mem_singleton.mp hc] at he
      cases he
  executed := by
    have hexec := h.executed
    simpa [settledOf, Call.outcome] using hexec

/-- A running call performs an operation. -/
theorem InTurn.exec (h : w.InTurn K f M b) (hs : w.step π (.exec i c) = some w') :
    w'.InTurn K f M b := by
  obtain ⟨q, l, o, k, t, x, t', hc, _, rfl⟩ := step_exec hs
  have hrun : ¬ (⟨q, l, .running (.call o k) t⟩ : Call V).Settled := not_settled_running
  obtain ⟨l₁, l₂, hw, _, hset⟩ := exists_split hc
  have hpairwise := h.pairwise_set ⟨q, l ++ [⟨o, x, w.toStore, t⟩], .running (k x) t'⟩ hw hrun rfl
  have hold : ∀ d ∈ l₁ ++ l₂, d ∈ w.calls := by
    intro d hd
    rw [hw]
    rcases List.mem_append.mp hd with hd | hd
    · exact List.mem_append_left _ hd
    · exact List.mem_append_right _ (List.mem_cons_of_mem _ hd)
  refine ⟨hset _ ▸ hpairwise, ?_, ?_⟩
  · intro d hd hK hno e he
    rw [hset] at hd
    rcases List.mem_append.mp hd with hd | hd
    · exact h.still d (hold d (List.mem_append_left _ hd)) hK hno e he
    rcases List.mem_cons.mp hd with rfl | hd
    · rcases List.mem_append.mp he with he | he
      · exact h.still _ (List.mem_of_getElem? hc) hK hrun e he
      · rw [List.mem_singleton.mp he]
    · exact h.still d (hold d (List.mem_append_right _ hd)) hK hno e he
  · have hexec := h.executed
    rw [hw] at hexec
    rw [hset]
    simpa [settledOf, Call.outcome] using hexec

/-- **Calls that take turns execute the machine**, whatever runs in between. -/
theorem InTurn.step (hV : Obeys A V K f hf M) (hA : w.Sound A) (h : w.InTurn K f M b)
    (hl : w.Turns K l) (hs : w.step π l = some w') : w'.InTurn K f M b := by
  cases l with
  | call q =>
    cases hs
    exact h.call hl
  | exec i c => exact h.exec hs
  | finish i =>
    obtain ⟨q, tr, r, t, hc, rfl⟩ := step_finish hs
    obtain ⟨s₀, _, hrun⟩ := hA.calls _ (List.mem_of_getElem? hc)
    refine h.settle hc ?_ ?_
    · intro hK
      have hstill := h.still _ (List.mem_of_getElem? hc) hK not_settled_running
      exact hV.ends hK hA.inv rfl (hrun.fixing hstill)
    · intro hK
      exact hV.others hK hrun
  | crash i =>
    obtain ⟨hfaults, q, tr, p, t, hc, rfl⟩ := step_crash hs
    exact h.settle (s := w.toStore) hc (hV.crashes hfaults) fun _ => rfl
  | tick t =>
    simp only [World.step] at hs
    split at hs <;> cases hs
    exact ⟨h.turns, h.still, h.executed⟩
  | edit e =>
    simp only [World.step] at hs
    split at hs <;> cases hs
    refine ⟨h.turns, ?_, ?_⟩
    · intro c hc hK hno ev hev
      exact (h.still c hc hK hno ev hev).trans (hf e w.db).symm
    · have hexec := h.executed
      rwa [← hf e w.db] at hexec

end World

end Txn
