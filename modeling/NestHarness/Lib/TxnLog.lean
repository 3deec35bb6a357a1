import NestHarness.Lib.TxnRuns
import NestHarness.Lib.Wp

/-!
# What has changed the database

The log of a run: the commits and the outside edits in the order in which they happened. The
database of a reached world is the first one with the log applied, and the log has exactly one
commit for each call that has ended well. A part of the database that row changes only append to is
then the first one followed by what those calls appended, each once.

The second half is about the calls that begin after a point of a run. They can rely on more than the
earlier calls, when every commit keeps it.
-/

namespace Txn

variable {S : Schema} {π : Policy S} {V : Service S} {A B : Rely π} {ε α β γ : Type}

/-! ## Two relies -/

theorem Runs.imp {p p' : Prog (effect S) ε α} (hAB : A.Implies B)
    (h : Runs A p s t l p' s' t') : Runs B p s t l p' s' t' := by
  induction h with
  | rest hg => exact .rest (hAB.grow hg)
  | op hg hi hx _ ih => exact .op (hAB.grow hg) (hAB.inv hi) hx ih

def Rely.both (A B : Rely π) : Rely π where
  inv s := A.inv s ∧ B.inv s
  grow s s' := A.grow s s' ∧ B.grow s s'
  refl s := ⟨A.refl s, B.refl s⟩
  trans h h' := ⟨A.trans h.1 h'.1, B.trans h.2 h'.2⟩
  tick h ht :=
    have hA := A.tick h.1 ht
    have hB := B.tick h.2 ht
    ⟨⟨hA.1, hB.1⟩, hA.2, hB.2⟩
  edit h he :=
    have hA := A.edit h.1 he
    have hB := B.edit h.2 he
    ⟨⟨hA.1, hB.1⟩, hA.2, hB.2⟩

theorem Rely.both_left : (A.both B).Implies A := ⟨And.left, And.left⟩

theorem Rely.both_right : (A.both B).Implies B := ⟨And.right, And.right⟩

theorem Rely.Keeps.both (hA : A.Keeps V) (hB : B.Keeps V) : (A.both B).Keeps V := by
  intro r a s₀ s l t hi₀ hi h hf
  obtain ⟨hinv, hgrow⟩ := hA hi₀.1 hi.1 (h.imp both_left) hf
  obtain ⟨hinv', hgrow'⟩ := hB hi₀.2 hi.2 (h.imp both_right) hf
  exact ⟨⟨hinv, hinv'⟩, hgrow, hgrow'⟩

/-! ## Values and row changes of a program -/

/-- A run ends with a value that its program may return. -/
theorem Runs.returns {p : Prog (effect S) ε α} {C : α → Prop} {a : α} (hp : p.Returns C)
    (h : Runs A p s t l (.ended (.ok a)) s' t') : C a := by
  generalize hp' : (Prog.ended (.ok a) : Prog (effect S) ε α) = p' at h
  induction h with
  | rest =>
    subst hp'
    exact hp
  | op _ _ _ _ ih => exact ih (hp _) hp'

/-- Operations of which only the readings of the clock matter: none of them is after `n`. -/
def clockAtMost (S : Schema) (n : Nat) : Env (effect S) PUnit where
  needs _ _ := True
  answers _ o x _ := match o, x with
    | .now, (now : Nat) => now ≤ n
    | _, _ => True

/-- A run that has not read the clock after `n` ends as its program does in such an environment. -/
theorem Runs.wp {p : Prog (effect S) ε α} {Q : PUnit → Except ε α → Prop}
    (hp : p.wp (clockAtMost S n) Q ⟨⟩) {r : Except ε α}
    (h : Runs A p s t l (.ended r) s' t') (hn : ∀ e ∈ l, e.store.clock ≤ n) : Q ⟨⟩ r := by
  generalize hp' : (Prog.ended r : Prog (effect S) ε α) = p' at h
  induction h with
  | rest =>
    subst hp'
    exact Prog.wp_ended.mp hp
  | op hg hi hx hr ih =>
    rename_i o _ x
    refine ih (hp.2 x ⟨⟩ ?_) (fun e he => hn e (List.mem_cons_of_mem _ he)) hp'
    cases o with
    | now => exact (exec_now hx).1 ▸ hn _ List.mem_cons_self
    | random | query | write => trivial

/-- The operation is no row change, or one that meets `C`. -/
def Op.Writes (C : S.Write → Prop) : Op S → Prop
  | .write w => C w
  | .now | .random | .query _ => True

/-- A transaction has only the row changes that its program may perform. -/
theorem Runs.writes {p p' : Prog (effect S) ε α} {C : S.Write → Prop}
    (hp : p.Only (E := effect S) (Op.Writes C)) (h : Runs A p s t l p' s' t') :
    ∀ w ∈ t'.writes, w ∈ t.writes ∨ C w := by
  induction h with
  | rest => exact fun w hw => .inl hw
  | op hg hi hx hr ih =>
    rename_i o _ _
    intro w hw
    rcases ih (hp.2 _) w hw with hw | hw
    swap
    · exact .inr hw
    cases o with
    | now => exact .inl ((exec_now hx).2 ▸ hw)
    | random => exact .inl ((exec_random hx).2 ▸ hw)
    | query q =>
      rcases exec_query hx with ⟨_, rfl⟩ | ⟨_, _, rfl⟩
      · exact .inl hw
      · exact .inl hw
    | write w₀ =>
      rcases exec_write hx with ⟨_, rfl, _⟩ | ⟨rfl, _⟩
      · rcases List.mem_append.mp hw with hw | hw
        · exact .inl hw
        · exact .inr (List.mem_singleton.mp hw ▸ hp.1)
      · exact .inl hw

/-- Every operation of a run was performed in a transaction whose snapshot is of the past and that
has only row changes of the program. -/
theorem Runs.events_tx {p p' : Prog (effect S) ε α} {C : S.Write → Prop}
    (hp : p.Only (E := effect S) (Op.Writes C)) (h : Runs A p s t l p' s' t') (ht : t.Past A s) :
    ∀ e ∈ l, e.tx.Past A e.store ∧ ∀ w ∈ e.tx.writes, w ∈ t.writes ∨ C w := by
  induction h with
  | rest => exact fun e he => by cases he
  | op hg hi hx hr ih =>
    have hnext := (ht.grow hg).exec hi hx
    have hwrites := (Runs.op hg hi hx (.rest (A.refl _))).writes (C := C) hp
    intro e he
    rcases List.mem_cons.mp he with rfl | he
    · exact ⟨ht.grow hg, fun w hw => .inl hw⟩
    · obtain ⟨hpast, hold⟩ := ih (hp.2 _) hnext e he
      refine ⟨hpast, fun w hw => ?_⟩
      rcases hold w hw with hw | hw
      · exact hwrites w hw
      · exact .inr hw

/-! ## The log -/

inductive Entry (S : Schema) where
  | commit (i : Nat) (writes : List S.Write)
  | edit (e : S.Edit)

namespace Entry

def apply (d : S.Db) : Entry S → S.Db
  | .commit _ ws => ws.foldl S.apply d
  | .edit e => S.edit e d

/-- The call of a commit, and its row changes. -/
def commit? : Entry S → Option (Nat × List S.Write)
  | .commit i ws => some (i, ws)
  | .edit _ => none

end Entry

def replay (d : S.Db) (log : List (Entry S)) : S.Db := log.foldl Entry.apply d

def commits (log : List (Entry S)) : List (Nat × List S.Write) := log.filterMap Entry.commit?

@[simp] theorem replay_snoc (d : S.Db) (log : List (Entry S)) (x : Entry S) :
    replay d (log ++ [x]) = x.apply (replay d log) := by
  simp [replay]

@[simp] theorem commits_commit (log : List (Entry S)) (i : Nat) (ws : List S.Write) :
    commits (log ++ [.commit i ws]) = commits log ++ [(i, ws)] := by
  simp [commits, Entry.commit?]

@[simp] theorem commits_edit (log : List (Entry S)) (e : S.Edit) :
    commits (log ++ [.edit e]) = commits log := by
  simp [commits, Entry.commit?]

/-- A part of the database that row changes append to and edits leave alone. -/
structure Appends (f : S.Db → List β) (g : S.Write → List β) : Prop where
  apply : ∀ d w, f (S.apply d w) = f d ++ g w
  edit : ∀ e d, f (S.edit e d) = f d

section
variable {f : S.Db → List β} {g : S.Write → List β} (h : Appends f g)
include h

theorem Appends.foldl (d : S.Db) (ws : List S.Write) :
    f (ws.foldl S.apply d) = f d ++ ws.flatMap g := by
  induction ws generalizing d with
  | nil => exact (List.append_nil _).symm
  | cons w ws ih => rw [List.foldl_cons, ih, h.apply, List.append_assoc, List.flatMap_cons]

theorem Appends.replay (d : S.Db) (log : List (Entry S)) :
    f (replay d log) = f d ++ (commits log).flatMap fun c => c.2.flatMap g := by
  induction log generalizing d with
  | nil => exact (List.append_nil _).symm
  | cons x log ih =>
    refine (ih (x.apply d)).trans ?_
    cases x with
    | commit i ws =>
      rw [Entry.apply, h.foldl, List.append_assoc]
      rfl
    | edit e => exact congrArg (· ++ _) (h.edit e d)

end

/-- What the commits append, each with its call. -/
def appended (g : S.Write → List β) (log : List (Entry S)) : List (Nat × β) :=
  (commits log).flatMap fun c => (c.2.flatMap g).map fun b => (c.1, b)

theorem map_snd_appended (g : S.Write → List β) (log : List (Entry S)) :
    (appended g log).map Prod.snd = (commits log).flatMap fun c => c.2.flatMap g := by
  rw [appended, List.map_flatMap]
  refine List.flatMap_congr ?_
  intro c _
  rw [List.map_map]
  exact List.map_id _

theorem mem_appended {g : S.Write → List β} {log : List (Entry S)} {i : Nat} {b : β} :
    (i, b) ∈ appended g log ↔ ∃ ws, (i, ws) ∈ commits log ∧ b ∈ ws.flatMap g := by
  rw [appended, List.mem_flatMap]
  constructor
  · intro h
    obtain ⟨⟨i', ws⟩, hc, hb⟩ := h
    obtain ⟨b', hb, he⟩ := List.mem_map.mp hb
    cases he
    exact ⟨ws, hc, hb⟩
  · intro h
    obtain ⟨ws, hc, hb⟩ := h
    exact ⟨(i, ws), hc, List.mem_map_of_mem hb⟩

/-- A list that takes each call at most once. -/
theorem nodup_flatMap {cs : List (Nat × γ)} (hn : (cs.map Prod.fst).Nodup) {k : Nat × γ → List β}
    (h : ∀ c ∈ cs, (k c).length ≤ 1) :
    ((cs.flatMap fun c => (k c).map fun b => (c.1, b)).map Prod.fst).Nodup := by
  induction cs with
  | nil => exact List.nodup_nil
  | cons c cs ih =>
    obtain ⟨hc, hn⟩ := List.nodup_cons.mp hn
    have ih := ih hn fun c hc => h c (List.mem_cons_of_mem _ hc)
    have hlen := h c List.mem_cons_self
    rw [List.flatMap_cons, List.map_append]
    match hk : k c with
    | [] => simpa [hk] using ih
    | [b] =>
      refine List.nodup_cons.mpr ⟨?_, ih⟩
      intro hmem
      obtain ⟨x, hx, he⟩ := List.mem_map.mp hmem
      obtain ⟨c', hc', hx⟩ := List.mem_flatMap.mp hx
      obtain ⟨_, _, rfl⟩ := List.mem_map.mp hx
      exact hc (List.mem_map.mpr ⟨c', hc', he⟩)
    | _ :: _ :: _ =>
      rw [hk] at hlen
      simp at hlen

namespace World

variable {w w' : World V} {i j : Nat} {ws : List S.Write}

/-- The `i`-th call was made with `q` and has ended well with `a`. -/
def Succeeded (w : World V) (i : Nat) (q : V.Req) (a : V.Reply) : Prop :=
  ∃ l, w.calls[i]? = some ⟨q, l, .settled (.ok a)⟩

/-- The row changes `ws` are those of the `i`-th call, which has ended well, and the store has grown
since. -/
def Committed (A : Rely π) (w : World V) (i : Nat) (ws : List S.Write) : Prop :=
  ∃ q l a, w.calls[i]? = some ⟨q, l, .settled (.ok a)⟩ ∧ ∃ s₀ s₁ t, A.inv s₀ ∧ A.inv s₁ ∧
    Runs A (V.serve q) s₀ .empty l (.ended (.ok a)) s₁ t ∧ t.Fresh s₁.db ∧ t.writes = ws ∧
    A.grow (s₁.after t (.ok a : Except V.Exn V.Reply)) w.toStore

/-- A commit stays one when its call is still there and the store grows. -/
theorem Committed.later {q : V.Req} {l : List (Event S)} {a : V.Reply}
    (hi : w.calls[i]? = some ⟨q, l, .settled (.ok a)⟩ →
      w'.calls[i]? = some ⟨q, l, .settled (.ok a)⟩)
    (hg : A.grow w.toStore w'.toStore) (h : w.calls[i]? = some ⟨q, l, .settled (.ok a)⟩)
    (hrest : ∃ s₀ s₁ t, A.inv s₀ ∧ A.inv s₁ ∧
      Runs A (V.serve q) s₀ .empty l (.ended (.ok a)) s₁ t ∧ t.Fresh s₁.db ∧ t.writes = ws ∧
      A.grow (s₁.after t (.ok a : Except V.Exn V.Reply)) w.toStore) : w'.Committed A i ws := by
  obtain ⟨s₀, s₁, t, h₀, h₁, hr, hf, ht, hg'⟩ := hrest
  exact ⟨q, l, a, hi h, s₀, s₁, t, h₀, h₁, hr, hf, ht, A.trans hg' hg⟩

/-- The log of a run from the store `s`. -/
structure Logged (A : Rely π) (s : Store S) (log : List (Entry S)) (w : World V) : Prop where
  db : w.db = replay s.db log
  once : ((commits log).map Prod.fst).Nodup
  committed : ∀ c ∈ commits log, w.Committed A c.1 c.2
  complete : ∀ {i q a}, w.Succeeded i q a → i ∈ (commits log).map Prod.fst

theorem Logged.init (s : Store S) : (init s : World V).Logged A s [] where
  db := rfl
  once := List.nodup_nil
  committed c hc := by cases hc
  complete h := by
    obtain ⟨l, h⟩ := h
    cases h

/-- The same calls have ended well in `w'` as in `w`. -/
structure SameSettled (w w' : World V) : Prop where
  settled : ∀ {i : Nat} {q : V.Req} {l : List (Event S)} {a : V.Reply},
    w'.calls[i]? = some ⟨q, l, .settled (.ok a)⟩ ↔ w.calls[i]? = some ⟨q, l, .settled (.ok a)⟩

theorem SameSettled.set {s : Store S} {c c' : Call V} (hi : w.calls[i]? = some c)
    (hc : ∀ a, c.phase ≠ .settled (.ok a)) (hc' : ∀ a, c'.phase ≠ .settled (.ok a)) :
    w.SameSettled ⟨s, w.calls.set i c'⟩ where
  settled {j q l a} := by
    have hlt := (List.getElem?_eq_some_iff.mp hi).1
    by_cases hij : i = j
    · subst hij
      rw [List.getElem?_set_self hlt, hi]
      constructor
      · intro h
        exact absurd (congrArg Call.phase (Option.some.inj h)) (hc' a)
      · intro h
        exact absurd (congrArg Call.phase (Option.some.inj h)) (hc a)
    · rw [List.getElem?_set_ne hij]

theorem SameSettled.call (w : World V) (r : V.Req) :
    w.SameSettled { w with calls := w.calls ++ [⟨r, [], .running (V.serve r) .empty⟩] } where
  settled {j q l a} := by
    rw [List.getElem?_append]
    split
    · rfl
    · rename_i hj
      rw [List.getElem?_eq_none (Nat.le_of_not_lt hj)]
      constructor
      · intro h
        have hmem := List.mem_singleton.mp (List.mem_of_getElem? h)
        cases hmem
      · intro h
        cases h

/-- A step after which the same calls have ended well, and that leaves the database. -/
theorem Logged.keep {s : Store S} {log : List (Entry S)} (h : w.Logged A s log)
    (hk : w.SameSettled w') (hg : A.grow w.toStore w'.toStore) (hd : w'.db = replay s.db log) :
    w'.Logged A s log where
  db := hd
  once := h.once
  committed c hc := by
    obtain ⟨q, l, a, hi, hrest⟩ := h.committed c hc
    exact .later hk.settled.mpr hg hi hrest
  complete hs := by
    obtain ⟨l, hi⟩ := hs
    exact h.complete ⟨l, hk.settled.mp hi⟩

/-- The rows of a running transaction can be committed. -/
theorem Sound.fresh (h : w.Sound A) {q : V.Req} {l : List (Event S)}
    {p : Prog (effect S) V.Exn V.Reply} {t : Tx S}
    (hi : w.calls[i]? = some ⟨q, l, .running p t⟩) : t.Fresh w.db := by
  obtain ⟨l₁, l₂, hw, _, _⟩ := exists_split hi
  have hl := h.locked
  rw [hw, locked_split] at hl
  exact ⟨(List.nodup_append'.mp hl.1).1, fun k hk => hl.2 k (List.mem_append_left _ hk)⟩

theorem Logged.commit {s : Store S} {log : List (Entry S)} (h : w.Logged A s log) (hw : w.Sound A)
    {q : V.Req} {l : List (Event S)} {a : V.Reply} {t : Tx S}
    (hi : w.calls[i]? = some ⟨q, l, .running (.ended (.ok a)) t⟩)
    (hg : A.grow w.toStore (w.toStore.after t (.ok a : Except V.Exn V.Reply))) :
    (⟨w.toStore.after t (.ok a : Except V.Exn V.Reply),
      w.calls.set i ⟨q, l, .settled (.ok a)⟩⟩ : World V).Logged A s
      (log ++ [.commit i t.writes]) := by
  have hlt := (List.getElem?_eq_some_iff.mp hi).1
  have hnew : i ∉ (commits log).map Prod.fst := by
    intro hmem
    obtain ⟨c, hc, rfl⟩ := List.mem_map.mp hmem
    obtain ⟨q', l', a', hi', _⟩ := h.committed c hc
    cases hi.symm.trans hi'
  have hother {j : Nat} (hj : j ≠ i) :
      (w.calls.set i ⟨q, l, .settled (.ok a)⟩)[j]? = w.calls[j]? :=
    List.getElem?_set_ne hj.symm
  obtain ⟨s₀, hi₀, hr⟩ := hw.calls _ (List.mem_of_getElem? hi)
  constructor
  · rw [replay_snoc, ← h.db]
    rfl
  · rw [commits_commit, List.map_append]
    refine List.nodup_append'.mpr ⟨h.once, List.nodup_singleton _, ?_⟩
    simpa [List.disjoint_singleton] using hnew
  · intro c hc
    rw [commits_commit] at hc
    rcases List.mem_append.mp hc with hc | hc
    · obtain ⟨q', l', a', hi', hrest⟩ := h.committed c hc
      refine .later ((hother ?_).trans ·) hg hi' hrest
      intro hci
      exact hnew (hci ▸ List.mem_map_of_mem hc)
    · cases List.mem_singleton.mp hc
      exact ⟨q, l, a, List.getElem?_set_self hlt, s₀, w.toStore, t, hi₀, hw.inv, hr,
        hw.fresh hi, rfl, A.refl _⟩
  · intro j q' a' hs
    obtain ⟨l', hj⟩ := hs
    rw [commits_commit, List.map_append]
    by_cases hji : j = i
    · exact List.mem_append_right _ (by simp [hji])
    · exact List.mem_append_left _ (h.complete ⟨l', (hother hji).symm.trans hj⟩)

/-- Every step extends the log by what it does to the database. -/
theorem Logged.step {s : Store S} {log : List (Entry S)} (hw : w.Sound A)
    (hg : A.grow w.toStore w'.toStore) (h : w.Logged A s log) (hs : w.step π l = some w') :
    ∃ log', w'.Logged A s log' := by
  cases l with
  | call r =>
    cases hs
    exact ⟨log, h.keep (.call w r) hg h.db⟩
  | exec i c =>
    obtain ⟨r, l, o, k, t, x, t', hc, _, rfl⟩ := step_exec hs
    exact ⟨log, h.keep (.set hc (fun a => by simp) fun a => by simp) hg h.db⟩
  | finish i =>
    obtain ⟨q, l, r, t, hc, rfl⟩ := step_finish hs
    cases r with
    | ok a => exact ⟨_, h.commit hw hc hg⟩
    | error e => exact ⟨log, h.keep (.set hc (fun a => by simp) fun a => by simp) hg h.db⟩
  | crash i =>
    obtain ⟨_, r, l, p, t, hc, rfl⟩ := step_crash hs
    exact ⟨log, h.keep (.set hc (fun a => by simp) fun a => by simp) hg h.db⟩
  | tick t =>
    simp only [World.step] at hs
    split at hs <;> cases hs
    exact ⟨log, h.keep ⟨Iff.rfl⟩ hg h.db⟩
  | edit e =>
    simp only [World.step] at hs
    split at hs <;> cases hs
    refine ⟨log ++ [.edit e], ⟨?_, ?_, ?_, ?_⟩⟩
    · rw [replay_snoc, ← h.db]
      rfl
    · rw [commits_edit]
      exact h.once
    · rw [commits_edit]
      intro c hc
      obtain ⟨q, l, a, hi, hrest⟩ := h.committed c hc
      exact .later (w := w) id hg hi hrest
    · rw [commits_edit]
      exact h.complete

/-- **A run has a log**: one commit for each call that has ended well. -/
theorem exists_log (hA : A.Keeps V) {s : Store S} (hs : A.inv s)
    (h : (init s : World V).Reaches π w) : ∃ log, w.Logged A s log := by
  obtain ⟨ls, hls⟩ := h
  refine (Run.invariant (I := fun w => w.Sound A ∧ ∃ log, w.Logged A s log) ?_ hls
    ⟨.init hs, [], .init s⟩).2
  intro w l w' hI hstep
  obtain ⟨hw, log, hlog⟩ := hI
  obtain ⟨hw', hg⟩ := hw.step hA hstep
  exact ⟨hw', hlog.step hw hg hstep⟩

/-- **What the calls of a run have appended** to a part of the database, when every call appends one
element that meets `D` or none: those that have ended well, each once; the ones that meet `E` have
appended one. -/
theorem exists_appended (hA : A.Keeps V) {s : Store S} (hs : A.inv s)
    (h : (init s : World V).Reaches π w) {f : S.Db → List β} {g : S.Write → List β}
    (hf : Appends f g) {D : Nat → β → Prop} {E : Nat → Prop}
    (hcall : ∀ {i ws}, w.Committed A i ws →
      (∃ b, ws.flatMap g = [b] ∧ D i b) ∨ ws.flatMap g = [] ∧ ¬ E i) :
    ∃ new : List (Nat × β), (new.map Prod.fst).Nodup ∧ f w.db = f s.db ++ new.map Prod.snd ∧
      (∀ i b, (i, b) ∈ new → D i b) ∧
      ∀ i q a, w.Succeeded i q a → E i → ∃ b, (i, b) ∈ new := by
  obtain ⟨log, hlog⟩ := exists_log hA hs h
  refine ⟨appended g log, ?_, ?_, ?_, ?_⟩
  · refine nodup_flatMap hlog.once fun c hc => ?_
    rcases hcall (hlog.committed c hc) with ⟨b, hb, _⟩ | ⟨hb, _⟩
    · rw [hb]
      exact Nat.le_refl 1
    · rw [hb]
      exact Nat.zero_le 1
  · rw [map_snd_appended, hlog.db, hf.replay]
  · intro i b hmem
    obtain ⟨ws, hc, hb⟩ := mem_appended.mp hmem
    rcases hcall (hlog.committed _ hc) with ⟨b', hb', hD⟩ | ⟨hnone, _⟩
    · rw [hb'] at hb
      exact List.mem_singleton.mp hb ▸ hD
    · rw [hnone] at hb
      cases hb
  · intro i q a hq hE
    obtain ⟨⟨i', ws⟩, hc, rfl⟩ := List.mem_map.mp (hlog.complete hq)
    rcases hcall (hlog.committed _ hc) with ⟨b, hb, _⟩ | ⟨_, hno⟩
    · refine ⟨b, mem_appended.mpr ⟨ws, hc, ?_⟩⟩
      rw [hb]
      exact List.mem_singleton_self b
    · exact absurd hE hno

/-! ## The calls of a run -/

theorem map_req_set {cs : List (Call V)} {c : Call V} (hi : cs[i]? = some c) (l : List (Event S))
    (phase : Phase V) : (cs.set i ⟨c.req, l, phase⟩).map Call.req = cs.map Call.req := by
  obtain ⟨l₁, l₂, hcs, _, hset⟩ := exists_split hi
  rw [hset, hcs, List.map_append, List.map_append]
  rfl

theorem getElem?_set_settled {cs : List (Call V)} {q : V.Req} {l : List (Event S)}
    {p : Prog (effect S) V.Exn V.Reply} {tx : Tx S} (hi : cs[i]? = some ⟨q, l, .running p tx⟩)
    (c' : Call V) {c : Call V} {r : Except V.Exn V.Reply} (hj : cs[j]? = some c)
    (hc : c.phase = .settled r) : (cs.set i c')[j]? = some c := by
  by_cases hij : i = j
  · subst hij
    cases hi.symm.trans hj
    cases hc
  · rw [List.getElem?_set_ne hij, hj]

/-- What a step makes of the calls: a label other than `.call` keeps their requests, and no label
changes a call that has settled. -/
theorem step_calls (hs : w.step π l = some w') :
    (w'.calls.map Call.req = w.calls.map Call.req ++ match l with
      | .call q => [q]
      | _ => []) ∧
    ∀ {j : Nat} {c : Call V} {r : Except V.Exn V.Reply}, w.calls[j]? = some c →
      c.phase = .settled r → w'.calls[j]? = some c := by
  cases l with
  | call q =>
    cases hs
    refine ⟨List.map_append, ?_⟩
    intro j c r hj _
    exact List.getElem?_append_left (List.getElem?_eq_some_iff.mp hj).1 ▸ hj
  | exec i c =>
    obtain ⟨q, l, o, k, t, x, t', hc, _, rfl⟩ := step_exec hs
    exact ⟨by rw [map_req_set hc, List.append_nil], getElem?_set_settled hc _⟩
  | finish i =>
    obtain ⟨q, l, r, t, hc, rfl⟩ := step_finish hs
    exact ⟨by rw [map_req_set hc, List.append_nil], getElem?_set_settled hc _⟩
  | crash i =>
    obtain ⟨_, q, l, p, t, hc, rfl⟩ := step_crash hs
    exact ⟨by rw [map_req_set hc, List.append_nil], getElem?_set_settled hc _⟩
  | tick t =>
    simp only [World.step] at hs
    split at hs <;> cases hs
    exact ⟨(List.append_nil _).symm, fun hj _ => hj⟩
  | edit e =>
    simp only [World.step] at hs
    split at hs <;> cases hs
    exact ⟨(List.append_nil _).symm, fun hj _ => hj⟩

/-- A run keeps the calls that have settled. -/
theorem Reaches.settled (h : w.Reaches π w') {c : Call V} {r : Except V.Exn V.Reply}
    (hi : w.calls[i]? = some c) (hc : c.phase = .settled r) : w'.calls[i]? = some c := by
  obtain ⟨ls, hls⟩ := h
  refine Run.invariant (I := fun w' => w'.calls[i]? = some c) ?_ hls hi
  intro w₁ l w₂ h hstep
  exact (step_calls hstep).2 h hc

/-- A run keeps the calls that have ended well, and never takes a call back. -/
theorem Reaches.calls (h : w.Reaches π w') :
    w.calls.length ≤ w'.calls.length ∧
      ∀ {i : Nat} {q : V.Req} {a : V.Reply}, w.Succeeded i q a → w'.Succeeded i q a := by
  refine ⟨?_, ?_⟩
  · obtain ⟨ls, hls⟩ := h
    refine Run.invariant (I := fun w' => w.calls.length ≤ w'.calls.length) ?_ hls (Nat.le_refl _)
    intro w₁ l w₂ hle hstep
    have hlen := congrArg List.length (step_calls hstep).1
    simp only [List.length_append, List.length_map] at hlen
    exact Nat.le_trans hle (hlen ▸ Nat.le_add_right _ _)
  · intro i q a hsucc
    obtain ⟨tr, hi⟩ := hsucc
    exact ⟨tr, h.settled hi rfl⟩

end World

/-- Row changes that can be committed keep a column without duplicates, when each of its values has
one unique-index entry. -/
theorem Tx.Fresh.nodup {t : Tx S} {d : S.Db} (ht : t.Fresh d) {f : S.Db → List β}
    {column : S.Key → Option β} (hinj : ∀ k k' b, b ∈ column k → b ∈ column k' → k = k')
    (honto : f (t.onto d) = f d ++ t.keys.filterMap column)
    (htaken : ∀ k b, b ∈ column k → S.taken d k = false → b ∉ f d) (hd : (f d).Nodup) :
    (f (t.onto d)).Nodup := by
  rw [honto]
  refine List.nodup_append'.mpr ⟨hd, ht.1.filterMap hinj, ?_⟩
  intro b hold hnew
  obtain ⟨k, hk, hb⟩ := List.mem_filterMap.mp hnew
  exact htaken k b hb (ht.2 k hk) hold

/-! ## Later calls -/

/-- Every commit of a call that relies on `A` keeps what the later calls rely on. -/
def Rely.KeptBy (B A : Rely π) (V : Service S) : Prop :=
  ∀ {r a s₀ s l t}, A.inv s₀ → A.inv s → B.inv s → Runs A (V.serve r) s₀ .empty l (.ret a) s t →
    t.Fresh s.db →
    B.inv { s with db := t.onto s.db } ∧ B.grow s { s with db := t.onto s.db }

namespace World

variable {w w' : World V} {i n : Nat}

/-- All calls rely on `A`, and those from the `n`-th on rely on `B`. -/
structure SoundFrom (A B : Rely π) (n : Nat) (w : World V) : Prop where
  sound : w.Sound A
  inv : B.inv w.toStore
  later : ∀ {i c}, n ≤ i → w.calls[i]? = some c → c.Sound B w.toStore

theorem Sound.from (h : w.Sound A) (hi : B.inv w.toStore) : w.SoundFrom A B w.calls.length where
  sound := h
  inv := hi
  later hle hc := by
    rw [List.getElem?_eq_none hle] at hc
    cases hc

/-- A step that moves the store along what the later calls rely on and replaces one call. -/
theorem SoundFrom.set {s : Store S} {c' : Call V} (h : w.SoundFrom A B n)
    (hw : (⟨s, w.calls.set i c'⟩ : World V).Sound A) (hi : B.inv s) (hg : B.grow w.toStore s)
    (hc' : n ≤ i → c'.Sound B s) : (⟨s, w.calls.set i c'⟩ : World V).SoundFrom A B n where
  sound := hw
  inv := hi
  later {j c} hle hc := by
    by_cases hij : i = j
    · subst hij
      have hlt := (List.getElem?_eq_some_iff.mp hc).1
      rw [List.length_set] at hlt
      cases (List.getElem?_set_self hlt).symm.trans hc
      exact hc' hle
    · exact (h.later hle ((List.getElem?_set_ne hij).symm.trans hc)).grow hg

theorem SoundFrom.finish (hB : B.KeptBy A V) (h : w.SoundFrom A B n) {q : V.Req}
    {l : List (Event S)} {r : Except V.Exn V.Reply} {t : Tx S}
    (hi : w.calls[i]? = some ⟨q, l, .running (.ended r) t⟩)
    (hw : (⟨w.toStore.after t r, w.calls.set i ⟨q, l, .settled r⟩⟩ : World V).Sound A) :
    (⟨w.toStore.after t r, w.calls.set i ⟨q, l, .settled r⟩⟩ : World V).SoundFrom A B n := by
  obtain ⟨s₀, hi₀, hr⟩ := h.sound.calls _ (List.mem_of_getElem? hi)
  have hafter : B.inv (w.toStore.after t r) ∧ B.grow w.toStore (w.toStore.after t r) := by
    cases r with
    | ok a => exact hB hi₀ h.sound.inv h.inv hr (h.sound.fresh hi)
    | error e => exact ⟨h.inv, B.refl _⟩
  refine h.set hw hafter.1 hafter.2 ?_
  intro hle
  obtain ⟨s₁, hi₁, hr₁⟩ := h.later hle hi
  exact .inl ⟨s₁, w.toStore, t, hi₁, h.inv, hr₁, hafter.1, B.refl _⟩

/-- **Every step keeps what the later calls rely on.** -/
theorem SoundFrom.step (hA : A.Keeps V) (hB : B.KeptBy A V) (h : w.SoundFrom A B n)
    (hs : w.step π l = some w') : w'.SoundFrom A B n := by
  have hw := (h.sound.step hA hs).1
  cases l with
  | call r =>
    cases hs
    refine ⟨hw, h.inv, ?_⟩
    intro j c hle hc
    rw [List.getElem?_append] at hc
    split at hc
    · exact h.later hle hc
    · cases List.mem_singleton.mp (List.mem_of_getElem? hc)
      exact ⟨_, h.inv, .rest (B.refl _)⟩
  | exec i c =>
    obtain ⟨r, l, o, k, t, x, t', hc, hx, rfl⟩ := step_exec hs
    refine h.set (s := w.toStore) hw h.inv (B.refl _) ?_
    intro hle
    obtain ⟨s₀, hi₀, hr⟩ := h.later hle hc
    exact ⟨s₀, hi₀, hr.snoc h.inv (exec_unblocked hx)⟩
  | finish i =>
    obtain ⟨q, l, r, t, hc, rfl⟩ := step_finish hs
    exact h.finish hB hc hw
  | crash i =>
    obtain ⟨hf, r, l, p, t, hc, rfl⟩ := step_crash hs
    exact h.set (s := w.toStore) hw h.inv (B.refl _) fun _ => .inr ⟨hf, rfl⟩
  | tick t =>
    simp only [World.step] at hs
    split at hs <;> cases hs
    rename_i ht
    obtain ⟨hi, hg⟩ := B.tick h.inv ht
    exact ⟨hw, hi, fun hle hc => (h.later hle hc).grow hg⟩
  | edit e =>
    simp only [World.step] at hs
    split at hs <;> cases hs
    rename_i he
    obtain ⟨hi, hg⟩ := B.edit h.inv he
    exact ⟨hw, hi, fun hle hc => (h.later hle hc).grow hg⟩

theorem SoundFrom.reaches (hA : A.Keeps V) (hB : B.KeptBy A V) (h : w.SoundFrom A B n)
    (hr : w.Reaches π w') : w'.SoundFrom A B n := by
  obtain ⟨ls, hls⟩ := hr
  have hstep {w l w'} (h : SoundFrom A B n w) (hs : World.step π w l = some w') :=
    h.step (V := V) hA hB hs
  exact Run.invariant hstep hls h

/-- A call made after the point from which `B` holds, and that has ended well, has completed a run
that relies on `B`. -/
theorem SoundFrom.completed (h : w.SoundFrom A B n) (hle : n ≤ i) {q : V.Req} {a : V.Reply}
    (hi : w.Succeeded i q a) : ∃ s₀ s₁ t l, B.inv s₀ ∧ B.inv s₁ ∧
      Runs B (V.serve q) s₀ .empty l (.ended (.ok a)) s₁ t ∧
      B.inv (s₁.after t (.ok a : Except V.Exn V.Reply)) := by
  obtain ⟨l, hi⟩ := hi
  rcases h.later hle hi with ⟨s₀, s₁, t, hi₀, hi₁, hr, hafter, _⟩ | ⟨_, he⟩
  · exact ⟨s₀, s₁, t, l, hi₀, hi₁, hr, hafter⟩
  · cases he

end World

end Txn
