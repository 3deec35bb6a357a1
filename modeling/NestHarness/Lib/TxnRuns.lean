import NestHarness.Lib.Txn

/-!
# What a call of a service has seen

`Runs` is the run of one program as the call that runs it sees it: between two of its operations
the store grows in ways the proof relies on (`Rely`), and each operation is answered from the store
at that moment. The main result, `World.Sound.step`, says that in a world of any number of calls
every call is always in such a run, and that a settled call has completed one, provided that every
commit keeps what the others rely on.
-/

namespace Txn

variable {S : Schema} {π : Policy S} {V : Service S} {ε ε' α β : Type}

/-- What a call relies on: an invariant of the store, and a preorder along which the store moves
while other calls commit, the clock ticks and outside edits happen. -/
structure Rely (π : Policy S) where
  inv : Store S → Prop
  grow : Store S → Store S → Prop
  refl : ∀ s, grow s s
  trans : ∀ {a b c}, grow a b → grow b c → grow a c
  tick : ∀ {s t}, inv s → π.tick s.clock t = true →
    inv { s with clock := t } ∧ grow s { s with clock := t }
  edit : ∀ {s e}, inv s → π.edits e = true →
    inv { s with db := S.edit e s.db } ∧ grow s { s with db := S.edit e s.db }

/-- `A` guarantees all that `B` does. -/
structure Rely.Implies (A B : Rely π) : Prop where
  inv : ∀ {s}, A.inv s → B.inv s
  grow : ∀ {s s'}, A.grow s s' → B.grow s s'

theorem Rely.Implies.rfl {A : Rely π} : A.Implies A := ⟨id, id⟩

/-- `Runs A p s t l p' s' t'`: from the store `s` and the transaction `t` the program `p` performs
the operations `l` and is left with `p'`, the transaction `t'` and the store `s'`. -/
inductive Runs (A : Rely π) : Prog (effect S) ε α → Store S → Tx S → List (Event S) →
    Prog (effect S) ε α → Store S → Tx S → Prop
  | rest : A.grow s s' → Runs A p s t [] p s' t
  | op {o : Op S} {k : o.Ans → Prog (effect S) ε α} {x : o.Ans} :
    A.grow s s₁ → A.inv s₁ → exec π s₁ (fun _ => false) t o c = some (x, t₁) →
    Runs A (k x) s₁ t₁ l p' s' t' → Runs A (.call o k) s t (⟨o, x, s₁, t⟩ :: l) p' s' t'

namespace Runs

variable {A : Rely π}

theorem grows {p p' : Prog (effect S) ε α} (h : Runs A p s t l p' s' t') : A.grow s s' := by
  induction h with
  | rest h => exact h
  | op h _ _ _ ih => exact A.trans h ih

/-- Every operation of a run met the invariant, in a store that has grown since. -/
theorem events {p p' : Prog (effect S) ε α} (h : Runs A p s t l p' s' t') :
    ∀ e ∈ l, A.inv e.store ∧ A.grow e.store s' := by
  induction h with
  | rest => nofun
  | op _ hi _ hr ih =>
    intro e he
    rcases List.mem_cons.mp he with rfl | he
    · exact ⟨hi, hr.grows⟩
    · exact ih e he

/-- The store may grow after the last operation. -/
theorem weaken {p p' : Prog (effect S) ε α} (h : Runs A p s t l p' s' t')
    (hg : A.grow s' s'') : Runs A p s t l p' s'' t' := by
  induction h with
  | rest h => exact .rest (A.trans h hg)
  | op h hi hx _ ih => exact .op h hi hx (ih hg)

/-- One more operation at the end. -/
theorem snoc {p : Prog (effect S) ε α} {o : Op S} {k : o.Ans → Prog (effect S) ε α} {x : o.Ans}
    (h : Runs A p s t l (.call o k) s₁ t₁) (hi : A.inv s₁)
    (hx : exec π s₁ (fun _ => false) t₁ o c = some (x, t₂)) :
    Runs A p s t (l ++ [⟨o, x, s₁, t₁⟩]) (k x) s₁ t₂ := by
  generalize hp : (Prog.call o k : Prog (effect S) ε α) = p' at h
  induction h with
  | rest h => subst hp; exact .op h hi hx (.rest (A.refl _))
  | op h hi' hx' _ ih => exact .op h hi' hx' (ih hi hx hp)

theorem raise_inv {e : ε} (h : Runs A (.raise e : Prog (effect S) ε α) s t l p' s' t') :
    l = [] ∧ p' = .raise e ∧ t' = t ∧ A.grow s s' := by
  cases h with
  | rest h => exact ⟨rfl, rfl, rfl, h⟩

theorem ended_inv (r₀ : Except ε α) {r : Except ε α}
    (h : Runs A (.ended r₀ : Prog (effect S) ε α) s t l (.ended r) s' t') :
    l = [] ∧ r = r₀ ∧ t' = t ∧ A.grow s s' := by
  generalize hp : (Prog.ended r₀ : Prog (effect S) ε α) = p at h
  generalize hp' : (Prog.ended r : Prog (effect S) ε α) = p' at h
  cases h with
  | rest h => exact ⟨rfl, Prog.ended_injective (hp'.trans hp.symm), rfl, h⟩
  | op => cases r₀ <;> cases hp

/-- A run that ends with an exception ends with one of the program. -/
theorem raises {p : Prog (effect S) ε α} {C : ε → Prop} {e : ε} (hp : p.Raises C)
    (h : Runs A p s t l (.ended (.error e)) s' t') : C e := by
  generalize hp' : (Prog.ended (.error e) : Prog (effect S) ε α) = p' at h
  induction h with
  | rest =>
    subst hp'
    exact hp
  | op _ _ _ _ ih => exact ih (hp _) hp'

/-- A completed run of an operation and its continuation. -/
theorem call_inv {o : Op S} {k : o.Ans → Prog (effect S) ε α} {r : Except ε α}
    (h : Runs A (.call o k) s t l (.ended r) s' t') :
    ∃ s₁ c x t₁ l', l = ⟨o, x, s₁, t⟩ :: l' ∧ A.grow s s₁ ∧ A.inv s₁ ∧
      exec π s₁ (fun _ => false) t o c = some (x, t₁) ∧ Runs A (k x) s₁ t₁ l' (.ended r) s' t' := by
  generalize hp : Prog.ended r = p' at h
  cases h with
  | rest h => cases r <;> cases hp
  | op h hi hx hr => subst hp; exact ⟨_, _, _, _, _, rfl, h, hi, hx, hr⟩

/-- A completed run of `p` followed by `f` completes `p` first; an exception of `p` ends it. -/
theorem bind_inv {p : Prog (effect S) ε α} {f : α → Prog (effect S) ε β} {r : Except ε β}
    (h : Runs A (p.bind f) s t l (.ended r) s' t') :
    (∃ a s₁ t₁ l₁ l₂, l = l₁ ++ l₂ ∧ Runs A p s t l₁ (.ended (.ok a)) s₁ t₁ ∧
      Runs A (f a) s₁ t₁ l₂ (.ended r) s' t') ∨
    ∃ e, r = .error e ∧ Runs A p s t l (.ended (.error e)) s' t' := by
  induction p generalizing s t l with
  | ret a => exact .inl ⟨a, s, t, [], l, rfl, .rest (A.refl s), h⟩
  | raise e =>
    obtain ⟨rfl, he, rfl, hg⟩ := raise_inv h
    cases r with
    | ok b => cases he
    | error e' => cases he; exact .inr ⟨e, rfl, .rest hg⟩
  | call o k ih =>
    obtain ⟨s₁, c, x, t₁, l', rfl, hg, hi, hx, hr⟩ := call_inv h
    rcases ih x hr with ⟨a, s₂, t₂, l₁, l₂, rfl, h₁, h₂⟩ | ⟨e, rfl, h₁⟩
    · exact .inl ⟨a, s₂, t₂, _, l₂, rfl, .op hg hi hx h₁, h₂⟩
    · exact .inr ⟨e, rfl, .op hg hi hx h₁⟩

/-- A completed run of `p` whose result is only wrapped. -/
theorem map_inv {p : Prog (effect S) ε α} {f : α → β} {r : Except ε β}
    (h : Runs A (p.bind fun a => .ret (f a)) s t l (.ended r) s' t') :
    ∃ r₀, r = r₀.map f ∧ Runs A p s t l (.ended r₀) s' t' := by
  rcases h.bind_inv with ⟨a, s₁, t₁, l₁, l₂, rfl, h₁, h₂⟩ | ⟨e, rfl, h₁⟩
  · obtain ⟨rfl, rfl, rfl, hg⟩ := ended_inv (.ok _) h₂
    exact ⟨.ok a, rfl, by simpa using h₁.weaken hg⟩
  · exact ⟨.error e, rfl, h₁⟩

end Runs

/-- What can be performed can be performed as well while fewer keys are held. -/
theorem exec_mono {s : Store S} {held blocked : S.Key → Bool} {t : Tx S} {o : Op S} {c : Choice S}
    {r : o.Ans × Tx S} (h : exec π s held t o c = some r)
    (hb : ∀ k, held k = false → blocked k = false) : exec π s blocked t o c = some r := by
  cases o <;> cases c <;> simp only [exec] at h ⊢ <;> try exact h
  split at h <;> try contradiction
  rename_i hw
  rw [if_pos ⟨hw.1, fun k hk => ⟨(hw.2 k hk).1, hb k (hw.2 k hk).2⟩⟩]
  exact h

/-- Locks only restrict what an operation may do. -/
theorem exec_unblocked {s : Store S} {blocked : S.Key → Bool} {t : Tx S} {o : Op S} {c : Choice S}
    {r : o.Ans × Tx S} (h : exec π s blocked t o c = some r) :
    exec π s (fun _ => false) t o c = some r := exec_mono h fun _ _ => rfl

/-- The keys of an operation's transaction afterwards: those it held, and for a row change that
went through those of the row, none of which was taken or held by another transaction. -/
theorem exec_keys {s : Store S} {blocked : S.Key → Bool} {t t' : Tx S} {o : Op S} {c : Choice S}
    {x : o.Ans} (h : exec π s blocked t o c = some (x, t')) :
    t'.keys = t.keys ∨ ∃ w, t'.keys = t.keys ++ S.keys w ∧
      ∀ k ∈ S.keys w, S.taken s.db k = false ∧ k ∉ t.keys ∧ blocked k = false := by
  cases o <;> cases c <;> simp only [exec] at h <;> try contradiction
  case write.proceed w =>
    split at h <;> try contradiction
    rename_i hw
    cases h
    refine .inr ⟨w, by simp [Tx.keys], fun k hk => ?_⟩
    have := (hw.2 k hk).1
    rw [Tx.taken_onto, Bool.or_eq_false_iff] at this
    exact ⟨this.1, by simpa using this.2, (hw.2 k hk).2⟩
  all_goals
    first
    | (cases h; exact .inl rfl)
    | (split at h <;> cases h; exact .inl rfl)
    | (obtain ⟨_, _, h⟩ := Option.map_eq_some_iff.mp h; cases h; exact .inl rfl)

theorem exec_now {s : Store S} {blocked : S.Key → Bool} {t t' : Tx S} {c : Choice S}
    {x : (Op.now : Op S).Ans} (h : exec π s blocked t .now c = some (x, t')) :
    x = s.clock ∧ t' = t := by
  cases c <;> cases h
  exact ⟨rfl, rfl⟩

theorem exec_random {s : Store S} {blocked : S.Key → Bool} {t t' : Tx S} {c : Choice S}
    {x : (Op.random : Op S).Ans} (h : exec π s blocked t .random c = some (x, t')) :
    x ≠ "" ∧ t' = t := by
  cases c <;> simp only [exec] at h <;> try contradiction
  split at h <;> cases h
  exact ⟨by assumption, rfl⟩

theorem exec_query {s : Store S} {blocked : S.Key → Bool} {t t' : Tx S} {q : S.Query}
    {c : Choice S} {x : (Op.query q).Ans} (h : exec π s blocked t (.query q) c = some (x, t')) :
    (x = .ok (S.ask q ((t.opened s.db).view π.isolation s.db) s.clock) ∧ t' = t.opened s.db) ∨
    π.faults = true ∧ x = .error .lost ∧ t' = t := by
  cases c <;> simp only [exec] at h <;> try contradiction
  · cases h; exact .inl ⟨rfl, rfl⟩
  · split at h <;> cases h
    exact .inr ⟨by assumption, rfl, rfl⟩

/-- A row change goes through, or fails because of a taken key, another constraint, or a fault. -/
theorem exec_write {s : Store S} {t t' : Tx S} {w : S.Write} {c : Choice S}
    {x : (Op.write w).Ans} (h : exec π s (fun _ => false) t (.write w) c = some (x, t')) :
    (x = .ok () ∧ t' = { t with writes := t.writes ++ [w] } ∧ S.refuse (t.onto s.db) w = none ∧
      ∀ k ∈ S.keys w, S.taken (t.onto s.db) k = false) ∨
    t' = t ∧ ((∃ k ∈ S.keys w, S.taken (t.onto s.db) k = true ∧ x = .error (.duplicate k)) ∨
      (∃ n, S.refuse (t.onto s.db) w = some n ∧ x = .error (.refused n)) ∨
      π.faults = true ∧ x = .error .lost) := by
  cases c <;> simp only [exec] at h <;> try contradiction
  case proceed =>
    split at h <;> cases h
    rename_i hw
    exact .inl ⟨rfl, rfl, hw.1, fun k hk => (hw.2 k hk).1⟩
  case name k =>
    split at h <;> cases h
    rename_i hk
    exact .inr ⟨rfl, .inl ⟨k, hk.1, hk.2, rfl⟩⟩
  case refuse =>
    obtain ⟨n, hn, h⟩ := Option.map_eq_some_iff.mp h
    cases h
    exact .inr ⟨rfl, .inr (.inl ⟨n, hn, rfl⟩)⟩
  case fault =>
    split at h <;> cases h
    exact .inr ⟨rfl, .inr (.inr ⟨by assumption, rfl⟩)⟩

/-- A transaction's snapshot is an earlier store. -/
def Tx.Past (A : Rely π) (t : Tx S) (s : Store S) : Prop :=
  ∀ d, t.snapshot = some d → ∃ s₀, s₀.db = d ∧ A.inv s₀ ∧ A.grow s₀ s

theorem Tx.Past.empty (A : Rely π) (s : Store S) : Tx.empty.Past A s := nofun

theorem Tx.Past.opened {A : Rely π} {t : Tx S} (h : t.Past A s) (hi : A.inv s) :
    (t.opened s.db).Past A s := by
  intro d hd
  cases hs : t.snapshot with
  | none =>
    simp only [Tx.opened, hs, Option.getD_none, Option.some.injEq] at hd
    exact ⟨s, hd, hi, A.refl s⟩
  | some d' =>
    simp only [Tx.opened, hs, Option.getD_some, Option.some.injEq] at hd
    exact h d (hd ▸ hs)

theorem Tx.Past.grow {A : Rely π} {t : Tx S} (h : t.Past A s) (hg : A.grow s s') :
    t.Past A s' :=
  fun d hd => let ⟨s₀, h₀, hi, hg₀⟩ := h d hd; ⟨s₀, h₀, hi, A.trans hg₀ hg⟩

theorem Tx.Past.exec {A : Rely π} {t t' : Tx S} {o : Op S} {x : o.Ans} (h : t.Past A s)
    (hi : A.inv s) (hx : Txn.exec π s (fun _ => false) t o c = some (x, t')) : t'.Past A s := by
  cases o with
  | query q =>
    rcases exec_query hx with ⟨_, rfl⟩ | ⟨_, _, rfl⟩
    · exact h.opened hi
    · exact h
  | write w => rcases exec_write hx with ⟨_, rfl, _⟩ | ⟨rfl, _⟩ <;> exact h
  | now => exact (exec_now hx).2 ▸ h
  | random => exact (exec_random hx).2 ▸ h

/-- A read of a transaction without row changes sees an earlier store, or the present one. -/
theorem Tx.Past.view {A : Rely π} {t : Tx S} (h : t.Past A s) (hi : A.inv s)
    (hw : t.writes = []) : ∃ s₀, A.inv s₀ ∧ A.grow s₀ s ∧
      (t.opened s.db).view π.isolation s.db = s₀.db := by
  rw [Tx.view_nil (t.opened_writes s.db ▸ hw)]
  cases π.isolation with
  | readCommitted => exact ⟨s, hi, A.refl s, rfl⟩
  | repeatableRead =>
    obtain ⟨s₀, h₀, hi₀, hg⟩ := h.opened hi _ rfl
    exact ⟨s₀, hi₀, hg, by simpa using h₀.symm⟩

/-- The transaction's rows can be committed: none of their unique keys is taken. -/
def Tx.Fresh (t : Tx S) (d : S.Db) : Prop := t.keys.Nodup ∧ ∀ k ∈ t.keys, S.taken d k = false

/-- The obligation of a service: each of its commits keeps the invariant and lets the store grow. -/
def Rely.Keeps (A : Rely π) (V : Service S) : Prop :=
  ∀ {r a s₀ s l t}, A.inv s₀ → A.inv s → Runs A (V.serve r) s₀ .empty l (.ret a) s t →
    t.Fresh s.db →
    A.inv { s with db := t.onto s.db } ∧ A.grow s { s with db := t.onto s.db }

/-- The store a call leaves when it settles with `r`: a transaction that ends well is committed. -/
def Store.after (s : Store S) (t : Tx S) : Except ε α → Store S
  | .ok _ => { s with db := t.onto s.db }
  | .error _ => s

/-- A call that settled with `r` completed a run of its program, and the store has grown since. -/
def Call.Completed (A : Rely π) (V : Service S) (req : V.Req) (l : List (Event S))
    (r : Except V.Exn V.Reply) (s : Store S) : Prop :=
  ∃ s₀ s₁ t, A.inv s₀ ∧ A.inv s₁ ∧ Runs A (V.serve req) s₀ .empty l (.ended r) s₁ t ∧
    A.inv (s₁.after t r) ∧ A.grow (s₁.after t r) s

/-- What a call relies on has held since it began. -/
def Call.Sound (A : Rely π) (s : Store S) (c : Call V) : Prop :=
  match c.phase with
  | .running p t => ∃ s₀, A.inv s₀ ∧ Runs A (V.serve c.req) s₀ .empty c.trace p s t
  | .settled r => Call.Completed A V c.req c.trace r s ∨ π.faults = true ∧ r = .error V.crashed

theorem Call.Sound.grow {A : Rely π} {c : Call V} (h : c.Sound A s) (hg : A.grow s s') :
    c.Sound A s' := by
  obtain ⟨r, l, p | r⟩ := c
  · obtain ⟨s₀, hi, h⟩ := h
    exact ⟨s₀, hi, h.weaken hg⟩
  · rcases h with ⟨s₀, s₁, t, h₀, h₁, h, hi, hg'⟩ | h
    · exact .inl ⟨s₀, s₁, t, h₀, h₁, h, hi, A.trans hg' hg⟩
    · exact .inr h

/-- An entry of a list splits it, and both removing and replacing it keep the two parts. -/
theorem exists_split {cs : List α} {c : α} (h : cs[i]? = some c) :
    ∃ l₁ l₂, cs = l₁ ++ c :: l₂ ∧ cs.eraseIdx i = l₁ ++ l₂ ∧
      ∀ c', cs.set i c' = l₁ ++ c' :: l₂ := by
  obtain ⟨hi, rfl⟩ := List.getElem?_eq_some_iff.mp h
  refine ⟨cs.take i, cs.drop (i + 1), by simp, List.eraseIdx_eq_take_drop_succ .., fun c' => ?_⟩
  rw [List.set_eq_take_append_cons_drop, if_pos hi]

namespace World

variable {A : Rely π} {w w' : World V}

/-- The unique keys of uncommitted rows. -/
def held (cs : List (Call V)) : List S.Key := cs.flatMap Call.keys

/-- No unique key is held twice, and none that is held is taken. -/
def Locked (cs : List (Call V)) (d : S.Db) : Prop :=
  (held cs).Nodup ∧ ∀ k ∈ held cs, S.taken d k = false

/-- The locks of one call beside those of the others. -/
theorem locked_split {l₁ l₂ : List (Call V)} {c : Call V} {d : S.Db} :
    Locked (l₁ ++ c :: l₂) d ↔ (c.keys ++ held (l₁ ++ l₂)).Nodup ∧
      ∀ k ∈ c.keys ++ held (l₁ ++ l₂), S.taken d k = false := by
  have hp : (held (l₁ ++ c :: l₂)).Perm (c.keys ++ held (l₁ ++ l₂)) := by
    exact List.perm_middle.flatMap_right Call.keys
  rw [Locked, hp.nodup_iff]
  exact and_congr_right fun _ => forall_congr' fun k => imp_congr_left hp.mem_iff

structure Sound (A : Rely π) (w : World V) : Prop where
  inv : A.inv w.toStore
  locked : Locked w.calls w.db
  calls : ∀ c ∈ w.calls, c.Sound A w.toStore

theorem Sound.init {s : Store S} (hs : A.inv s) : (init s : World V).Sound A where
  inv := hs
  locked := by simp [Locked, held, World.init]
  calls := by simp [World.init]

/-! ## What each step can do -/

theorem step_exec (hs : w.step π (.exec i c) = some w') :
    ∃ r l o k t x t', w.calls[i]? = some ⟨r, l, .running (.call o k) t⟩ ∧
      Txn.exec π w.toStore (w.blocked i) t o c = some (x, t') ∧
      w' = { w with
        calls := w.calls.set i ⟨r, l ++ [⟨o, x, w.toStore, t⟩], .running (k x) t'⟩ } := by
  simp only [World.step] at hs
  split at hs <;> try contradiction
  rename_i r l o k t hc
  obtain ⟨⟨x, t'⟩, hx, rfl⟩ := Option.map_eq_some_iff.mp hs
  exact ⟨r, l, o, k, t, x, t', hc, hx, rfl⟩

theorem step_finish (hs : w.step π (.finish i) = some w') :
    ∃ q l r t, w.calls[i]? = some ⟨q, l, .running (.ended r) t⟩ ∧
      w' = ⟨w.toStore.after t r, w.calls.set i ⟨q, l, .settled r⟩⟩ := by
  simp only [World.step] at hs
  split at hs <;> try contradiction
  · rename_i q l a t hc
    cases hs
    exact ⟨q, l, .ok a, t, hc, rfl⟩
  · rename_i q l e t hc
    cases hs
    exact ⟨q, l, .error e, t, hc, rfl⟩

theorem step_crash (hs : w.step π (.crash i) = some w') :
    π.faults = true ∧ ∃ r l p t, w.calls[i]? = some ⟨r, l, .running p t⟩ ∧
      w' = { w with calls := w.calls.set i ⟨r, l, .settled (.error V.crashed)⟩ } := by
  simp only [World.step] at hs
  split at hs <;> try contradiction
  rename_i r l p t hc
  split at hs <;> cases hs
  exact ⟨by assumption, r, l, p, t, hc, rfl⟩

/-! ## Preservation -/

/-- Replacing one call keeps the world sound when the new call is sound and the locks are. -/
theorem Sound.set {c' : Call V} {s : Store S} (h : w.Sound A) (hi : A.inv s)
    (hg : A.grow w.toStore s) (hc' : c'.Sound A s) (hl : Locked (w.calls.set i c') s.db) :
    (⟨s, w.calls.set i c'⟩ : World V).Sound A where
  inv := hi
  locked := hl
  calls c hc := by
    rcases List.mem_or_eq_of_mem_set hc with hc | rfl
    · exact (h.calls c hc).grow hg
    · exact hc'

theorem Sound.exec (h : w.Sound A) (hs : w.step π (.exec i c) = some w') :
    w'.Sound A ∧ w'.toStore = w.toStore := by
  obtain ⟨r, l, o, k, t, x, t', hc, hx, rfl⟩ := step_exec hs
  obtain ⟨s₀, hi₀, hr⟩ := h.calls _ (List.mem_of_getElem? hc)
  refine ⟨h.set h.inv (A.refl _) ⟨s₀, hi₀, hr.snoc h.inv (exec_unblocked hx)⟩ ?_, rfl⟩
  obtain ⟨l₁, l₂, hw, he, hset⟩ := exists_split hc
  have hl := h.locked
  rw [hw, locked_split] at hl
  rw [hset, locked_split]
  rcases exec_keys hx with hk | ⟨wr, hk, hfree⟩
  · simpa only [Call.keys, hk] using hl
  have hblocked : ∀ k ∈ S.keys wr, k ∉ held (l₁ ++ l₂) := fun k hk => by
    have := (hfree k hk).2.2
    rw [blocked, he, decide_eq_false_iff_not] at this
    exact this
  simp only [Call.keys, hk, List.append_assoc, List.nodup_append', List.mem_append] at hl ⊢
  obtain ⟨⟨hn, hH, hd⟩, ht⟩ := hl
  refine ⟨⟨hn, ⟨S.keys_nodup wr, hH, fun k hk hk' => hblocked k hk hk'⟩, fun k hk hk' => ?_⟩, ?_⟩
  · rcases List.mem_append.mp hk' with hk' | hk'
    · exact (hfree k hk').2.1 hk
    · exact hd hk hk'
  · rintro k (hk | hk | hk)
    · exact ht k (.inl hk)
    · exact (hfree k hk).1
    · exact ht k (.inr hk)

theorem Sound.finish (hA : A.Keeps V) (h : w.Sound A) (hs : w.step π (.finish i) = some w') :
    w'.Sound A ∧ A.grow w.toStore w'.toStore := by
  obtain ⟨q, l, r, t, hc, rfl⟩ := step_finish hs
  obtain ⟨s₀, hi₀, hr⟩ := h.calls _ (List.mem_of_getElem? hc)
  obtain ⟨l₁, l₂, hw, he, hset⟩ := exists_split hc
  have hl := h.locked
  rw [hw, locked_split] at hl
  obtain ⟨hn, ht⟩ := hl
  have hn' : (held (l₁ ++ l₂)).Nodup := (List.nodup_append'.mp hn).2.1
  have hd := (List.nodup_append'.mp hn).2.2
  have hfresh : t.Fresh w.db :=
    ⟨(List.nodup_append'.mp hn).1, fun k hk => ht k (List.mem_append_left _ hk)⟩
  have hgrow : A.inv (w.toStore.after t r) ∧ A.grow w.toStore (w.toStore.after t r) := by
    cases r with
    | ok a => exact hA hi₀ h.inv hr hfresh
    | error e => exact ⟨h.inv, A.refl _⟩
  refine ⟨h.set hgrow.1 hgrow.2 ?_ ?_, hgrow.2⟩
  · exact .inl ⟨s₀, w.toStore, t, hi₀, h.inv, hr, hgrow.1, A.refl _⟩
  · rw [hset, locked_split]
    refine ⟨by simpa [Call.keys] using hn', fun k hk => ?_⟩
    have hk : k ∈ held (l₁ ++ l₂) := by simpa [Call.keys] using hk
    have hold := ht k (List.mem_append_right _ hk)
    cases r with
    | error e => exact hold
    | ok a =>
      have : k ∉ t.keys := fun hk' => hd hk' hk
      simpa [Store.after, Tx.taken_onto, this] using hold

theorem Sound.crash (h : w.Sound A) (hs : w.step π (.crash i) = some w') :
    w'.Sound A ∧ w'.toStore = w.toStore := by
  obtain ⟨hf, r, l, p, t, hc, rfl⟩ := step_crash hs
  refine ⟨h.set h.inv (A.refl _) (.inr ⟨hf, rfl⟩) ?_, rfl⟩
  obtain ⟨l₁, l₂, hw, he, hset⟩ := exists_split hc
  have hl := h.locked
  rw [hw, locked_split] at hl
  rw [hset, locked_split]
  refine ⟨by simpa [Call.keys] using (List.nodup_append'.mp hl.1).2.1, fun k hk => ?_⟩
  exact hl.2 k (List.mem_append_right _ (by simpa [Call.keys] using hk))

/-- **Every step keeps the world sound**, and the store moves along what calls rely on. -/
theorem Sound.step (hA : A.Keeps V) (h : w.Sound A) (hs : w.step π l = some w') :
    w'.Sound A ∧ A.grow w.toStore w'.toStore := by
  cases l with
  | call r =>
    cases hs
    refine ⟨⟨h.inv, by simpa [Locked, held, Call.keys] using h.locked, fun c hc => ?_⟩, A.refl _⟩
    rcases List.mem_append.mp hc with hc | hc
    · exact h.calls c hc
    · cases List.mem_singleton.mp hc
      exact ⟨_, h.inv, .rest (A.refl _)⟩
  | exec i c => exact ⟨(h.exec hs).1, (h.exec hs).2 ▸ A.refl _⟩
  | finish i => exact h.finish hA hs
  | crash i => exact ⟨(h.crash hs).1, (h.crash hs).2 ▸ A.refl _⟩
  | tick t =>
    simp only [World.step] at hs
    split at hs <;> cases hs
    rename_i ht
    obtain ⟨hi, hg⟩ := A.tick h.inv ht
    exact ⟨⟨hi, h.locked, fun c hc => (h.calls c hc).grow hg⟩, hg⟩
  | edit e =>
    simp only [World.step] at hs
    split at hs <;> cases hs
    rename_i he
    obtain ⟨hi, hg⟩ := A.edit h.inv he
    refine ⟨⟨hi, ⟨h.locked.1, fun k hk => ?_⟩, fun c hc => (h.calls c hc).grow hg⟩, hg⟩
    rw [S.taken_edit]
    exact h.locked.2 k hk

theorem Sound.reaches (hA : A.Keeps V) (h : w.Sound A) (hr : w.Reaches π w') :
    w'.Sound A ∧ A.grow w.toStore w'.toStore := by
  obtain ⟨ls, hls⟩ := hr
  have hstep {w l w'} (h : Sound A w) (hs : World.step π w l = some w') := h.step (V := V) hA hs
  exact ⟨Run.invariant (fun h hs => (hstep h hs).1) hls h,
    Run.relates (R := fun w w' => A.grow w.toStore w'.toStore) (fun w => A.refl _) A.trans hstep
      hls h⟩

/-- **Only a call that ends well changes the database**: every other step of a call leaves it. -/
theorem step_db {i : Nat} (hl : l = .finish i ∨ l = .crash i ∨ ∃ c, l = .exec i c)
    (hs : w.step π l = some w') :
    w'.db = w.db ∨ ∃ q tr a, w'.calls[i]? = some ⟨q, tr, .settled (.ok a)⟩ := by
  rcases hl with rfl | rfl | ⟨c, rfl⟩
  · obtain ⟨q, l, r, t, hc, rfl⟩ := step_finish hs
    cases r with
    | error e => exact .inl rfl
    | ok a =>
      have hi := (List.getElem?_eq_some_iff.mp hc).1
      exact .inr ⟨q, l, a, by simp [hi]⟩
  · obtain ⟨_, r, l, p, t, _, rfl⟩ := step_crash hs
    exact .inl rfl
  · obtain ⟨r, l, o, k, t, x, t', _, _, rfl⟩ := step_exec hs
    exact .inl rfl

end World

end Txn
