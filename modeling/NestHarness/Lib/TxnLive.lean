import Mathlib.Logic.Hydra
import NestHarness.Lib.TxnLog
import NestHarness.Lib.TxnSerial
import NestHarness.Lib.Wp

/-!
# Transactions that never wait in a circle

A row change waits while another call holds one of its unique keys. When every program takes its
keys in the order of a rank, the call that holds the key of the greatest rank never waits: all calls
settle, however they are interleaved.
-/

namespace Txn

variable {S : Schema} {π : Policy S} {V : Service S} {w w' : World V}

/-! ## Taking keys in order -/

/-- The keys that an operation has taken when it has been answered so. -/
def Op.took : (o : Op S) → o.Ans → List S.Key
  | .write w, x =>
    match x with
    | .ok _ => S.keys w
    | .error _ => []
  | .now, _ | .random, _ | .query _, _ => []

theorem exec_took {s : Store S} {blocked : S.Key → Bool} {t t' : Tx S} {o : Op S} {c : Choice S}
    {x : o.Ans} (h : exec π s blocked t o c = some (x, t')) : t'.keys = t.keys ++ o.took x := by
  cases o with
  | now => exact (exec_now h).2 ▸ (List.append_nil _).symm
  | random => exact (exec_random h).2 ▸ (List.append_nil _).symm
  | query q =>
    rcases exec_query h with ⟨rfl, rfl⟩ | ⟨_, rfl, rfl⟩
    · exact (t.opened_keys s.db).trans (List.append_nil _).symm
    · exact (List.append_nil _).symm
  | write w =>
    rcases exec_write (exec_unblocked h) with ⟨rfl, rfl, _⟩ | ⟨rfl, h⟩
    · simp [Tx.keys, Op.took]
    · obtain ⟨_, _, _, rfl⟩ | ⟨_, _, rfl⟩ | ⟨_, rfl⟩ := h <;> exact (List.append_nil _).symm

variable {ρ : Type} [LinearOrder ρ]

/-- A row change asks only for keys above all that the transaction holds; the state is the list of
them. -/
def inOrder (rank : S.Key → ρ) : Env (effect S) (List S.Key) where
  needs held o := ∀ w, o = .write w → ∀ k ∈ S.keys w, ∀ h ∈ held, rank h < rank k
  answers held o x held' := held' = held ++ o.took x

section
variable {rank : S.Key → ρ} {ε α β : Type} {p : Prog (effect S) ε α} {f : α → Prog (effect S) ε β}
  {held : List S.Key}

/-- A program that takes no keys. -/
theorem inOrder_of_only (hp : p.Only (E := effect S) (Op.Writes fun w => S.keys w = [])) :
    p.wp (inOrder rank) (fun held' _ => held' = held) held := by
  refine hp.wp (I := (· = held)) ?_ ?_ rfl fun _ _ h => h
  · rintro _ o _ ho w rfl k hk
    rw [show S.keys w = [] from ho] at hk
    cases hk
  · rintro held' o x _ rfl ho rfl
    cases o with
    | now | random | query => exact List.append_nil _
    | write w =>
      cases x with
      | error => exact List.append_nil _
      | ok => exact (congrArg (held' ++ ·) ho).trans (List.append_nil _)

theorem inOrder_bind (hp : p.Only (E := effect S) (Op.Writes fun w => S.keys w = []))
    (hf : ∀ a, (f a).wp (inOrder rank) (fun _ _ => True) held) :
    (p.bind f).wp (inOrder rank) (fun _ _ => True) held := by
  refine Prog.wp_bind ((inOrder_of_only hp).mono ?_)
  rintro _ r rfl
  cases r with
  | ok a => exact hf a
  | error => trivial

/-- After its last row change a program only has to end. -/
theorem inOrder_then (hp : p.wp (inOrder rank) (fun _ _ => True) held)
    (hf : ∀ a, (f a).Only (E := effect S) (Op.Writes fun w => S.keys w = [])) :
    (p.bind f).wp (inOrder rank) (fun _ _ => True) held := by
  refine Prog.wp_bind (hp.mono ?_)
  intro held r _
  cases r with
  | ok a => exact (inOrder_of_only (hf a)).mono fun _ _ _ => trivial
  | error => trivial

end

/-- Every program of the service takes its keys in the order of their rank. -/
def Service.InOrder (V : Service S) (rank : S.Key → ρ) : Prop :=
  ∀ r, (V.serve r).wp (inOrder rank) (fun _ _ => True) []

namespace World

def InOrder (rank : S.Key → ρ) (w : World V) : Prop :=
  ∀ c ∈ w.calls, ∀ p t, c.phase = .running p t → p.wp (inOrder rank) (fun _ _ => True) t.keys

variable {rank : S.Key → ρ}

theorem InOrder.init (s : Store S) : (init s : World V).InOrder rank := by
  intro c hc
  cases hc

theorem InOrder.set {s : Store S} {i : Nat} {c' : Call V} (h : w.InOrder rank)
    (hc' : ∀ p t, c'.phase = .running p t → p.wp (inOrder rank) (fun _ _ => True) t.keys) :
    (⟨s, w.calls.set i c'⟩ : World V).InOrder rank := by
  intro c hc
  rcases List.mem_or_eq_of_mem_set hc with hc | rfl
  · exact h c hc
  · exact hc'

theorem InOrder.step {l : Label V} (hV : V.InOrder rank) (h : w.InOrder rank)
    (hs : w.step π l = some w') : w'.InOrder rank := by
  cases l with
  | call r =>
    cases hs
    intro c hc
    rcases List.mem_append.mp hc with hc | hc
    · exact h c hc
    · cases List.mem_singleton.mp hc
      rintro _ _ ⟨⟩
      exact hV r
  | exec i c =>
    obtain ⟨r, l, o, k, t, x, t', hc, hx, rfl⟩ := step_exec hs
    obtain ⟨_, hnext⟩ := h _ (List.mem_of_getElem? hc) _ _ rfl
    refine h.set ?_
    rintro _ _ ⟨⟩
    exact hnext x _ (exec_took hx)
  | finish i =>
    obtain ⟨q, l, r, t, hc, rfl⟩ := step_finish hs
    exact h.set fun p t hp => by cases hp
  | crash i =>
    obtain ⟨_, r, l, p, t, hc, rfl⟩ := step_crash hs
    exact h.set fun p t hp => by cases hp
  | tick t =>
    simp only [World.step] at hs
    split at hs <;> cases hs
    exact h
  | edit e =>
    simp only [World.step] at hs
    split at hs <;> cases hs
    exact h

end World

/-! ## Some call can go on -/

/-- The database answers without a fault of its own. -/
def Choice.Plain : Choice S → Prop
  | .proceed | .pick _ | .name _ | .refuse => True
  | .fault => False

/-- An operation that waits for none of its keys can be performed without a fault. -/
theorem exec_ready (s : Store S) (blocked : S.Key → Bool) (t : Tx S) (o : Op S)
    (h : ∀ w, o = .write w → ∀ k ∈ S.keys w, blocked k = false) :
    ∃ c x t', c.Plain ∧ exec π s blocked t o c = some (x, t') := by
  cases o with
  | now => exact ⟨.proceed, _, _, trivial, rfl⟩
  | random => exact ⟨.pick "x", _, _, trivial, rfl⟩
  | query q => exact ⟨.proceed, _, _, trivial, rfl⟩
  | write w =>
    cases hr : S.refuse (t.onto s.db) w with
    | some n =>
      refine ⟨.refuse, .error (.refused n), t, trivial, ?_⟩
      simp only [exec, hr, Option.map_some]
    | none =>
      by_cases hk : ∀ k ∈ S.keys w, S.taken (t.onto s.db) k = false
      · exact ⟨.proceed, _, _, trivial, if_pos ⟨hr, fun k hw => ⟨hk k hw, h w rfl k hw⟩⟩⟩
      · push Not at hk
        obtain ⟨k, hw, ht⟩ := hk
        exact ⟨.name k, _, _, trivial, if_pos ⟨hw, by simpa using ht⟩⟩

/-- A call goes on, and no fault strikes it. -/
def Label.Ready : Label V → Prop
  | .exec _ c => c.Plain
  | .finish _ => True
  | .call _ | .crash _ | .tick _ | .edit _ => False

/-- A call goes on or dies. -/
def Label.Moves : Label V → Prop
  | .exec _ _ | .finish _ | .crash _ => True
  | .call _ | .tick _ | .edit _ => False

/-- The clock ticks, or the database is edited from outside. -/
def Label.Outside : Label V → Prop
  | .tick _ | .edit _ => True
  | .call _ | .exec _ _ | .finish _ | .crash _ => False

namespace World

variable {rank : S.Key → ρ} {i : Nat}

theorem mem_held_of_blocked {key : S.Key} (h : w.blocked i key = true) : key ∈ held w.calls := by
  obtain ⟨c, hc, hkey⟩ := List.mem_flatMap.mp (of_decide_eq_true h)
  exact List.mem_flatMap.mpr ⟨c, List.mem_of_mem_eraseIdx hc, hkey⟩

/-- A running call that waits for no key can go on. -/
theorem ready_of_unblocked {r : V.Req} {tr : List (Event S)} {p : Prog (effect S) V.Exn V.Reply}
    {t : Tx S} (hi : w.calls[i]? = some ⟨r, tr, .running p t⟩)
    (h : ∀ wr k, p = .call (.write wr) k → ∀ key ∈ S.keys wr, w.blocked i key = false) :
    ∃ l w', Label.Ready l ∧ w.step π l = some w' := by
  cases p with
  | ret | raise =>
    have hstep : (w.step π (.finish i)).isSome := by
      simp only [World.step, hi, Option.isSome_some]
    obtain ⟨w', hw'⟩ := Option.isSome_iff_exists.mp hstep
    exact ⟨.finish i, w', trivial, hw'⟩
  | call o k =>
    obtain ⟨c, x, t', hc, hx⟩ := exec_ready (π := π) w.toStore (w.blocked i) t o
      fun wr hwr => by
        subst hwr
        exact h wr k rfl
    have hstep : (w.step π (.exec i c)).isSome := by
      simp only [World.step, hi, hx, Option.map_some, Option.isSome_some]
    obtain ⟨w', hw'⟩ := Option.isSome_iff_exists.mp hstep
    exact ⟨.exec i c, w', hc, hw'⟩

/-- **Some call can go on** as long as one is running: the one that holds the key of the greatest
rank, or any of them when no key is held. -/
theorem InOrder.ready (h : w.InOrder rank) (hrun : ¬∀ c ∈ w.calls, c.Settled) :
    ∃ l w', Label.Ready l ∧ w.step π l = some w' := by
  by_cases hheld : held w.calls = []
  · push Not at hrun
    obtain ⟨⟨r, tr, phase⟩, hc, hns⟩ := hrun
    obtain ⟨i, hi⟩ := List.mem_iff_getElem?.mp hc
    cases phase with
    | settled x => exact absurd ⟨x, rfl⟩ hns
    | running p t =>
      refine ready_of_unblocked hi ?_
      intro wr k _ key _
      rw [← Bool.not_eq_true]
      intro hblocked
      have hmem := mem_held_of_blocked hblocked
      rw [hheld] at hmem
      cases hmem
  · obtain ⟨top, htop, hmax⟩ := (held w.calls).toFinset.exists_max_image rank
      (List.toFinset_nonempty_iff _ |>.mpr hheld)
    obtain ⟨⟨r, tr, phase⟩, hc, hkey⟩ := List.mem_flatMap.mp (List.mem_toFinset.mp htop)
    obtain ⟨i, hi⟩ := List.mem_iff_getElem?.mp hc
    cases phase with
    | settled => cases hkey
    | running p t =>
      refine ready_of_unblocked hi ?_
      rintro wr k rfl key hw
      obtain ⟨hneeds, _⟩ := h _ hc _ _ rfl
      have hlt : rank top < rank key := hneeds wr rfl key hw top hkey
      rw [← Bool.not_eq_true]
      intro hblocked
      have hle := hmax key (List.mem_toFinset.mpr (mem_held_of_blocked hblocked))
      exact absurd hle (not_le.mpr hlt)

end World

/-! ## Finitely many steps -/

/-- What a call still has to do gets less with each of its steps. -/
inductive Phase.Next : Phase V → Phase V → Prop
  | op {o : Op S} {k : o.Ans → Prog (effect S) V.Exn V.Reply} {t t' : Tx S} (x : o.Ans) :
    Next (.running (k x) t') (.running (.call o k) t)
  | settle {r : Except V.Exn V.Reply} {p : Prog (effect S) V.Exn V.Reply} {t : Tx S} :
    Next (.settled r) (.running p t)

theorem Phase.Next.acc_settled (r : Except V.Exn V.Reply) :
    Acc Next (Phase.settled r : Phase V) := by
  constructor
  intro _ h
  cases h

theorem Phase.Next.wf : WellFounded (Next : Phase V → Phase V → Prop) := by
  constructor
  intro phase
  cases phase with
  | settled r => exact acc_settled r
  | running p t =>
    induction p generalizing t with
    | ret a =>
      constructor
      rintro _ ⟨⟩
      exact acc_settled _
    | raise e =>
      constructor
      rintro _ ⟨⟩
      exact acc_settled _
    | call o k ih =>
      constructor
      rintro _ (⟨x⟩ | _)
      · exact ih x _
      · exact acc_settled _

namespace World

variable {rank : S.Key → ρ} {i : Nat}

/-- What the calls still have to do. -/
def left (w : World V) : Multiset (Phase V) := (w.calls.map Call.phase : List (Phase V))

theorem left_set {c c' : Call V} (hi : w.calls[i]? = some c) (hnext : Phase.Next c'.phase c.phase)
    (s : Store S) :
    Relation.CutExpand Phase.Next (left ⟨s, w.calls.set i c'⟩ : Multiset (Phase V)) w.left := by
  obtain ⟨l₁, l₂, hw, _, hset⟩ := exists_split hi
  have hsplit (d : Call V) (cs : List (Call V)) (hcs : cs = l₁ ++ d :: l₂) :
      ((cs.map Call.phase : List (Phase V)) : Multiset (Phase V)) =
        {d.phase} + ((l₁ ++ l₂).map Call.phase : List (Phase V)) := by
    subst hcs
    simp [← Multiset.coe_add, Multiset.singleton_add, ← Multiset.cons_coe]
  rw [left, left, hsplit c _ hw, hsplit c' _ (hset c')]
  exact Relation.cutExpand_single_add hnext _

theorem left_move {l : Label V} (hl : l.Moves) (hs : w.step π l = some w') :
    Relation.CutExpand Phase.Next w'.left w.left := by
  cases l with
  | exec i c =>
    obtain ⟨r, l, o, k, t, x, t', hc, _, rfl⟩ := step_exec hs
    exact left_set hc (.op x) _
  | finish i =>
    obtain ⟨q, l, r, t, hc, rfl⟩ := step_finish hs
    exact left_set hc .settle _
  | crash i =>
    obtain ⟨_, r, l, p, t, hc, rfl⟩ := step_crash hs
    exact left_set hc .settle _
  | call | tick | edit => cases hl

theorem left_outside {l : Label V} (hl : l.Outside) (hs : w.step π l = some w') :
    w'.calls = w.calls := by
  cases l with
  | tick | edit =>
    simp only [World.step] at hs
    split at hs <;> cases hs
    rfl
  | call | exec | finish | crash => cases hl

/-- **All calls settle**: in a service that takes its keys in order no call waits for ever. However
the running calls are interleaved, with ticks and edits between their steps, they all settle after
finitely many of them; and as long as one is running, some call can take a step without a fault. -/
theorem InOrder.settles (hV : V.InOrder rank) (h : w.InOrder rank) :
    Run.Inevitable (World.step π) Label.Ready Label.Moves Label.Outside
      (fun w => ∀ c ∈ w.calls, c.Settled) w := by
  refine Run.inevitable Phase.Next.wf.cutExpand left ?_ ?_ ?_ h
  · intro w l w' hw hl hs
    refine ⟨hw.step hV hs, ?_⟩
    rw [left, left_outside hl hs]
    rfl
  · intro w l w' hw hl hs
    exact ⟨hw.step hV hs, left_move hl hs⟩
  · intro w hw hrun
    exact hw.ready hrun

end World

end Txn
