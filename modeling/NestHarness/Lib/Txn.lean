import NestHarness.Lib.Prog
import NestHarness.Lib.Run
import Mathlib.Data.List.Nodup

/-!
# Programs run as transactions over a store with unique keys

Calls arrive at any time, each runs its program as one transaction, and calls are interleaved at
single operations. Row changes stay with the transaction until it commits. An insert is checked
against the latest committed contents, whatever the isolation level, and waits while another
transaction holds one of its unique keys. Reads see the latest committed contents under
`readCommitted`, those at the transaction's first read under `repeatableRead`, and in both cases
the transaction's own changes.

Clocks are read through one cell that a `tick` moves; a policy says how far. A policy without
bounds therefore covers processes whose clocks disagree.
-/

namespace Txn

inductive Isolation
  | readCommitted
  | repeatableRead
deriving DecidableEq

/-- What a database is to its transactions. `Edit` is a change made from outside. -/
structure Schema where
  Db : Type
  Query : Type
  Answer : Query → Type
  Write : Type
  Key : Type
  Edit : Type
  [keyEq : DecidableEq Key]
  /-- The answer to a query on given contents at a given time. -/
  ask : (q : Query) → Db → Nat → Answer q
  apply : Db → Write → Db
  /-- The unique-index entries a row change takes. -/
  keys : Write → List Key
  taken : Db → Key → Bool
  /-- The error number of a constraint, other than a unique key, that a row change violates. -/
  refuse : Db → Write → Option Nat
  edit : Edit → Db → Db
  keys_nodup : ∀ w, (keys w).Nodup
  taken_apply : ∀ d w k, taken (apply d w) k = (taken d k || decide (k ∈ keys w))
  taken_edit : ∀ e d k, taken (edit e d) k = taken d k

attribute [instance] Schema.keyEq

/-- Why the database fails an operation: a unique key it names, another constraint, or a fault
that has nothing to do with the operation. -/
inductive DbError (K : Type)
  | duplicate (k : K)
  | refused (errno : Nat)
  | lost
deriving DecidableEq

variable {S : Schema}

inductive Op (S : Schema)
  | now
  | random
  | query (q : S.Query)
  | write (w : S.Write)

def Op.Ans : Op S → Type
  | .now => Nat
  | .random => String
  | .query q => Except (DbError S.Key) (S.Answer q)
  | .write _ => Except (DbError S.Key) Unit

abbrev effect (S : Schema) : Effect := ⟨Op S, Op.Ans⟩

/-- The committed contents and the clock. -/
structure Store (S : Schema) where
  db : S.Db
  clock : Nat

/-- The contents at a transaction's first read, once it has read, and its own row changes. -/
structure Tx (S : Schema) where
  snapshot : Option S.Db
  writes : List S.Write

namespace Tx

def empty : Tx S := ⟨none, []⟩

/-- The contents `d` with the transaction's row changes. -/
def onto (t : Tx S) (d : S.Db) : S.Db := t.writes.foldl S.apply d

/-- The transaction after a read of the contents `d`. -/
def opened (t : Tx S) (d : S.Db) : Tx S := { t with snapshot := some (t.snapshot.getD d) }

/-- The contents a read of the transaction sees. -/
def view (t : Tx S) (iso : Isolation) (d : S.Db) : S.Db :=
  match iso with
  | .readCommitted => t.onto d
  | .repeatableRead => t.onto (t.snapshot.getD d)

def keys (t : Tx S) : List S.Key := t.writes.flatMap S.keys

@[simp] theorem empty_writes : (empty : Tx S).writes = [] := rfl
@[simp] theorem empty_snapshot : (empty : Tx S).snapshot = none := rfl
@[simp] theorem empty_keys : (empty : Tx S).keys = [] := rfl
@[simp] theorem opened_writes (t : Tx S) (d : S.Db) : (t.opened d).writes = t.writes := rfl
@[simp] theorem opened_keys (t : Tx S) (d : S.Db) : (t.opened d).keys = t.keys := rfl
@[simp] theorem opened_snapshot (t : Tx S) (d : S.Db) :
    (t.opened d).snapshot = some (t.snapshot.getD d) := rfl

@[simp] theorem opened_opened (t : Tx S) (d d' : S.Db) :
    (t.opened d).opened d' = t.opened d := rfl

theorem onto_nil {t : Tx S} (h : t.writes = []) (d : S.Db) : t.onto d = d := by simp [onto, h]

theorem view_nil {t : Tx S} (h : t.writes = []) (iso : Isolation) (d : S.Db) :
    t.view iso d = match iso with
      | .readCommitted => d
      | .repeatableRead => t.snapshot.getD d := by
  cases iso <;> simp [view, onto_nil h]

theorem taken_onto (t : Tx S) (d : S.Db) (k : S.Key) :
    S.taken (t.onto d) k = (S.taken d k || decide (k ∈ t.keys)) := by
  obtain ⟨o, ws⟩ := t
  simp only [onto, keys]
  induction ws generalizing d with
  | nil => simp
  | cons w ws ih =>
    rw [List.foldl_cons, ih, S.taken_apply, Bool.or_assoc]
    simp

end Tx

/-- What an environment may do: the isolation level it runs transactions at, whether operations
fail for reasons of their own, how the clock moves and which outside edits happen. -/
structure Policy (S : Schema) where
  isolation : Isolation
  faults : Bool
  tick : Nat → Nat → Bool
  edits : S.Edit → Bool

/-- The choices an operation leaves open: the random text drawn, and how the database answers. -/
inductive Choice (S : Schema)
  | proceed
  | pick (x : String)
  | name (k : S.Key)
  | refuse
  | fault

/-- One operation of a transaction; `blocked` are the unique keys that other transactions hold.
Random text is never empty. -/
def exec (π : Policy S) (s : Store S) (blocked : S.Key → Bool) (t : Tx S) :
    (o : Op S) → Choice S → Option (o.Ans × Tx S)
  | .now, .proceed => some (s.clock, t)
  | .random, .pick x => if x = "" then none else some (x, t)
  | .query q, .proceed =>
    some (.ok (S.ask q ((t.opened s.db).view π.isolation s.db) s.clock), t.opened s.db)
  | .query _, .fault => if π.faults then some (.error .lost, t) else none
  | .write w, .proceed =>
    if S.refuse (t.onto s.db) w = none ∧
        ∀ k ∈ S.keys w, S.taken (t.onto s.db) k = false ∧ blocked k = false then
      some (.ok (), { t with writes := t.writes ++ [w] })
    else none
  | .write w, .name k =>
    if k ∈ S.keys w ∧ S.taken (t.onto s.db) k = true then some (.error (.duplicate k), t) else none
  | .write w, .refuse => (S.refuse (t.onto s.db) w).map fun n => (.error (.refused n), t)
  | .write _, .fault => if π.faults then some (.error .lost, t) else none
  | _, _ => none

/-- The record of one operation: the store and the transaction it was performed in, its answer. -/
structure Event (S : Schema) where
  op : Op S
  ans : op.Ans
  store : Store S
  tx : Tx S

/-- The instants at which the operations `l` read the clock. -/
def clocks (l : List (Event S)) : List Nat :=
  l.filterMap fun
    | ⟨.now, x, _, _⟩ => some x
    | _ => none

/-- A row change with its answer and the store it met. -/
structure Change (S : Schema) where
  write : S.Write
  ans : Except (DbError S.Key) Unit
  store : Store S

/-- The row changes among the operations `l`. -/
def changes (l : List (Event S)) : List (Change S) :=
  l.filterMap fun
    | ⟨.write w, x, s, _⟩ => some ⟨w, x, s⟩
    | _ => none

theorem mem_changes {x : Change S} {l : List (Event S)} (h : x ∈ changes l) :
    ∃ e ∈ l, e.store = x.store := by
  obtain ⟨e, he, hx⟩ := List.mem_filterMap.mp h
  refine ⟨e, he, ?_⟩
  split at hx <;> cases hx
  rfl

@[simp] theorem clocks_nil : clocks ([] : List (Event S)) = [] := rfl
@[simp] theorem changes_nil : changes ([] : List (Event S)) = [] := rfl

@[simp] theorem clocks_append (l l' : List (Event S)) :
    clocks (l ++ l') = clocks l ++ clocks l' := List.filterMap_append

@[simp] theorem changes_append (l l' : List (Event S)) :
    changes (l ++ l') = changes l ++ changes l' := List.filterMap_append

@[simp] theorem clocks_now (x : Nat) (s : Store S) (t : Tx S) (l : List (Event S)) :
    clocks (⟨.now, x, s, t⟩ :: l) = x :: clocks l := rfl

@[simp] theorem changes_now (x : Nat) (s : Store S) (t : Tx S) (l : List (Event S)) :
    changes (⟨.now, x, s, t⟩ :: l) = changes l := rfl

@[simp] theorem clocks_random (x : String) (s : Store S) (t : Tx S) (l : List (Event S)) :
    clocks (⟨.random, x, s, t⟩ :: l) = clocks l := rfl

@[simp] theorem changes_random (x : String) (s : Store S) (t : Tx S) (l : List (Event S)) :
    changes (⟨.random, x, s, t⟩ :: l) = changes l := rfl

@[simp] theorem changes_write (w : S.Write) (x : Except (DbError S.Key) Unit) (s : Store S)
    (t : Tx S) (l : List (Event S)) :
    changes (⟨.write w, x, s, t⟩ :: l) = ⟨w, x, s⟩ :: changes l := rfl

theorem clocks_query {e : Event S} {q : S.Query} (h : e.op = .query q) (l : List (Event S)) :
    clocks (e :: l) = clocks l := by
  obtain ⟨_, _, _, _⟩ := e
  cases h
  rfl

theorem changes_query {e : Event S} {q : S.Query} (h : e.op = .query q) (l : List (Event S)) :
    changes (e :: l) = changes l := by
  obtain ⟨_, _, _, _⟩ := e
  cases h
  rfl

/-- The programs of a service: one for each request. -/
structure Service (S : Schema) where
  Req : Type
  Exn : Type
  Reply : Type
  serve : Req → Prog (effect S) Exn Reply
  /-- The outcome of a call whose process or connection dies. -/
  crashed : Exn

inductive Phase (V : Service S)
  | running (p : Prog (effect S) V.Exn V.Reply) (t : Tx S)
  | settled (r : Except V.Exn V.Reply)

structure Call (V : Service S) where
  req : V.Req
  trace : List (Event S)
  phase : Phase V

/-- The unique keys held by a call that has not settled. -/
def Call.keys {V : Service S} (c : Call V) : List S.Key :=
  match c.phase with
  | .running _ t => t.keys
  | .settled _ => []

structure World (V : Service S) extends Store S where
  calls : List (Call V)

inductive Label (V : Service S)
  | call (r : V.Req)
  | exec (i : Nat) (c : Choice S)
  | finish (i : Nat)
  | crash (i : Nat)
  | tick (t : Nat)
  | edit (e : S.Edit)

namespace World

variable {V : Service S}

def init (s : Store S) : World V := ⟨s, []⟩

/-- The unique keys held by calls other than the `i`-th. -/
def blocked (w : World V) (i : Nat) (k : S.Key) : Bool :=
  decide (k ∈ (w.calls.eraseIdx i).flatMap Call.keys)

def step (π : Policy S) (w : World V) : Label V → Option (World V)
  | .call r =>
    some { w with calls := w.calls ++ [⟨r, [], .running (V.serve r) .empty⟩] }
  | .exec i c =>
    match w.calls[i]? with
    | some ⟨r, l, .running (.call o k) t⟩ =>
      (Txn.exec π w.toStore (w.blocked i) t o c).map fun (x, t') =>
        { w with calls := w.calls.set i ⟨r, l ++ [⟨o, x, w.toStore, t⟩], .running (k x) t'⟩ }
    | _ => none
  | .finish i =>
    match w.calls[i]? with
    | some ⟨r, l, .running (.ret a) t⟩ =>
      some { w with db := t.onto w.db, calls := w.calls.set i ⟨r, l, .settled (.ok a)⟩ }
    | some ⟨r, l, .running (.raise e) _⟩ =>
      some { w with calls := w.calls.set i ⟨r, l, .settled (.error e)⟩ }
    | _ => none
  | .crash i =>
    match w.calls[i]? with
    | some ⟨r, l, .running _ _⟩ =>
      if π.faults then some { w with calls := w.calls.set i ⟨r, l, .settled (.error V.crashed)⟩ }
      else none
    | _ => none
  | .tick t => if π.tick w.clock t then some { w with clock := t } else none
  | .edit e => if π.edits e then some { w with db := S.edit e w.db } else none

/-- `w'` is reached from `w` by some run. -/
def Reaches (π : Policy S) (w w' : World V) : Prop := ∃ ls, Run.exec (step π) w ls = some w'

end World

end Txn
