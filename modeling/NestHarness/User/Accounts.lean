import NestHarness.User.Exchange

/-!
# Accounts

The rows of `t_user` without the device columns, which are all that the service changes of a row.
Accounts are only ever added, each with a login id of its own, and the tables a row of `t_user`
refers to stay as they are.
-/

namespace NestHarness

open Txn

variable {P : Crypto} {π : Policy (schema P)}

def UserEntity.account (u : UserEntity) : UserEntity :=
  { u with deviceOs := none, deviceToken := none }

def Tables.accounts (d : Tables P) : List UserEntity := d.tUser.map (·.account)

/-- No two accounts have one login id, in the collation of the tables. -/
def Tables.OneAccount (d : Tables P) : Prop := (d.accounts.map (P.collate ·.loginId)).Nodup

/-- The account a row change adds. -/
def UserWrite.account : UserWrite P → Option UserEntity
  | .insertUser r => some r.stored.account
  | .updateUser _ _ | .insertSession _ | .insertSessionRefresh _ => none

structure SameParents (d d' : Tables P) : Prop where
  auth : d'.tAuth = d.tAuth
  position : d'.tPosition = d.tPosition
  state : d'.tState = d.tState

theorem SameParents.refl (d : Tables P) : SameParents d d := ⟨rfl, rfl, rfl⟩

theorem SameParents.trans {a b c : Tables P} (h : SameParents a b) (h' : SameParents b c) :
    SameParents a c :=
  ⟨h'.auth.trans h.auth, h'.position.trans h.position, h'.state.trans h.state⟩

theorem account_mem {user : UserEntity} {d : Tables P} (h : user ∈ d.tUser) :
    user.account ∈ d.accounts := List.mem_map_of_mem h

theorem accounts_apply (d : Tables P) (w : UserWrite P) :
    (d.apply w).accounts = d.accounts ++ w.account.toList ∧ SameParents d (d.apply w) := by
  cases w with
  | insertUser r =>
    exact ⟨by simp [Tables.apply, Tables.accounts, UserWrite.account], rfl, rfl, rfl⟩
  | updateUser id p =>
    refine ⟨?_, rfl, rfl, rfl⟩
    simp only [Tables.apply, Tables.accounts, UserWrite.account, Option.toList_none,
      List.append_nil, List.map_map]
    refine List.map_congr_left ?_
    intro u _
    simp only [Function.comp]
    split <;> rfl
  | insertSession | insertSessionRefresh => exact ⟨(List.append_nil _).symm, rfl, rfl, rfl⟩

theorem accounts_onto (t : Tx (schema P)) (d : Tables P) :
    (t.onto d).accounts = d.accounts ++ t.writes.filterMap UserWrite.account ∧
      SameParents d (t.onto d) := by
  obtain ⟨snapshot, ws⟩ := t
  simp only [Tx.onto]
  induction ws generalizing d with
  | nil => exact ⟨(List.append_nil _).symm, .refl d⟩
  | cons w ws ih =>
    obtain ⟨haccounts, hparents⟩ := accounts_apply d w
    obtain ⟨hrest, hparents'⟩ := ih (d.apply w)
    refine ⟨?_, hparents.trans hparents'⟩
    rw [List.foldl_cons]
    refine hrest.trans ?_
    rw [haccounts]
    cases hw : w.account <;> simp [hw]

theorem accounts_after (s : Store (schema P)) (t : Tx (schema P)) (r : Except ε α) :
    s.db.accounts <+: (s.after t r).db.accounts := by
  cases r with
  | ok a => exact ⟨_, (accounts_onto t s.db).1.symm⟩
  | error e => exact List.prefix_rfl

/-- The weight of the login id that a unique-index entry is of. -/
def UserKey.login : UserKey P → Option String
  | .loginId weight => some weight
  | .pkUser _ | .pkSession _ | .refreshHash _ | .beforeRefreshHash _ => none

theorem logins_keys (ws : List (UserWrite P)) :
    (ws.flatMap UserWrite.keys).filterMap UserKey.login =
      (ws.filterMap UserWrite.account).map (P.collate ·.loginId) := by
  induction ws with
  | nil => rfl
  | cons w ws ih =>
    have hw : w.keys.filterMap UserKey.login = (w.account.map (P.collate ·.loginId)).toList := by
      cases w with
      | insertUser r => rfl
      | updateUser | insertSession => rfl
      | insertSessionRefresh r =>
        cases hb : r.beforeRefreshHash <;>
          simp [UserWrite.keys, UserKey.login, UserWrite.account, hb]
    rw [List.flatMap_cons, List.filterMap_append, ih, hw]
    cases ha : w.account <;> simp [ha]

theorem taken_loginId {d : Tables P} {weight : String} :
    d.taken (.loginId weight) = false ↔ weight ∉ d.accounts.map (P.collate ·.loginId) := by
  simp [Tables.taken, Tables.accounts, UserEntity.account]

/-- A login id has one account, and accounts are only added. -/
def accountRely (π : Policy (schema P)) : Rely π where
  inv s := s.db.OneAccount
  grow s s' := s.db.accounts <+: s'.db.accounts ∧ SameParents s.db s'.db
  refl s := ⟨List.prefix_rfl, .refl s.db⟩
  trans h h' := ⟨h.1.trans h'.1, h.2.trans h'.2⟩
  tick h _ := ⟨h, List.prefix_rfl, .refl _⟩
  edit h _ := ⟨h, List.prefix_rfl, rfl, rfl, rfl⟩

theorem accountRely_keeps (V : Service (schema P)) : (accountRely π).Keeps V := by
  intro r a s₀ s l t _ hi _ hf
  obtain ⟨haccounts, hparents⟩ := accounts_onto t s.db
  refine ⟨?_, ?_, hparents⟩
  · have hlogins : (t.writes.filterMap UserWrite.account).map (P.collate ·.loginId) =
        t.keys.filterMap UserKey.login := (logins_keys t.writes).symm
    have hnodup : (t.keys.filterMap UserKey.login).Nodup := by
      refine hf.1.filterMap ?_
      intro k k' id hk hk'
      cases k <;> cases hk
      cases k' <;> cases hk'
      rfl
    change ((t.onto s.db).accounts.map (P.collate ·.loginId)).Nodup
    rw [haccounts, List.map_append, hlogins]
    refine List.nodup_append'.mpr ⟨hi, hnodup, ?_⟩
    intro id hold hnew
    obtain ⟨k, hk, hid⟩ := List.mem_filterMap.mp hnew
    cases k <;> cases hid
    exact taken_loginId.mp (hf.2 _ hk) hold
  · exact ⟨_, haccounts.symm⟩

/-- The account of a login id. -/
theorem Tables.OneAccount.eq {d : Tables P} (hd : d.OneAccount) {u u' : UserEntity}
    (hu : u ∈ d.accounts) (hu' : u' ∈ d.accounts) (h : P.collate u.loginId = P.collate u'.loginId) :
    u = u' :=
  List.inj_on_of_nodup_map hd hu hu' h

end NestHarness
