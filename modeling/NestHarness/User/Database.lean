import NestHarness.Lib.MySqlColumn
import NestHarness.User.Entities

/-!
# The database of the user module

The tables of the entity classes as a `Txn.Schema`: the conditions that `findOne` is called with,
the row changes of the repository, the unique keys, and the other constraints a row change can
violate (foreign keys and column lengths). Rows are kept in the order of their commit. Texts of
clients are compared by the collation of the tables; generated ids, hashes and addresses are taken
to be equal only to themselves.
-/

namespace NestHarness

open Txn

variable (P : Crypto)

structure Tables where
  tAuth : List String
  tPosition : List String
  tState : List StateEntity
  tUser : List UserEntity
  tSession : List SessionEntity
  tSessionRefresh : List (SessionRefreshEntity P)

/-! ## Conditions of `findOne` -/

structure UserWhere where
  loginId : String

structure StateWhere where
  stateId : String

/-- `ip` is a condition only when it is given. -/
structure SessionWhere where
  sessionId : String
  isDelete : Nat
  ip : Option String

structure SessionRefreshWhere where
  refreshHash : Option P.Hash := none
  beforeRefreshHash : Option P.Hash := none
  /-- `end_at > NOW()`. -/
  endAtAfterNow : Bool := false

def UserWhere.matches (c : UserWhere) (r : UserEntity) : Bool :=
  P.collate r.loginId = P.collate c.loginId

def StateWhere.matches (c : StateWhere) (r : StateEntity) : Bool :=
  P.collate r.stateId = P.collate c.stateId

/-- A row without an ip does not match a condition on it: SQL equality with `NULL` is not true. -/
def SessionWhere.matches (c : SessionWhere) (r : SessionEntity) : Bool :=
  r.sessionId = c.sessionId && r.isDelete = c.isDelete &&
    c.ip.all fun ip => r.ip = some ip

variable {P} in
/-- `NOW()` has whole seconds. -/
def SessionRefreshWhere.matches (c : SessionRefreshWhere P) (now : Nat)
    (r : SessionRefreshEntity P) : Bool :=
  (c.refreshHash.all fun h => r.refreshHash = h) &&
    (c.beforeRefreshHash.all fun h => r.beforeRefreshHash = some h) &&
    (!c.endAtAfterNow || r.endAt > now / 1000 * 1000)

inductive UserQuery
  | user (c : UserWhere)
  /-- All rows of `t_user`. -/
  | users
  | state (c : StateWhere)
  | session (c : SessionWhere)
  | sessionRefresh (c : SessionRefreshWhere P)

def UserQuery.Answer : UserQuery P → Type
  | .user _ => Option UserEntity
  | .users => List UserEntity
  | .state _ => Option StateEntity
  | .session _ => Option SessionEntity
  | .sessionRefresh _ => Option (SessionRefreshEntity P)

variable {P} in
def Tables.ask (d : Tables P) (now : Nat) : (q : UserQuery P) → q.Answer
  | .user c => d.tUser.find? (c.matches P)
  | .users => d.tUser
  | .state c => d.tState.find? (c.matches P)
  | .session c => d.tSession.find? c.matches
  | .sessionRefresh c => d.tSessionRefresh.find? (c.matches now)

/-! ## Row changes -/

/-- The columns `signIn` updates. -/
structure UserPatch where
  deviceOs : String
  deviceToken : String

inductive UserWrite
  | insertUser (r : UserEntity)
  | updateUser (userId : String) (patch : UserPatch)
  | insertSession (r : SessionEntity)
  | insertSessionRefresh (r : SessionRefreshEntity P)

/-- What a `varchar` column stores of a text that it takes: spaces beyond its length are cut. -/
def stored (length : Nat) (s : String) : String := (MySql.cutVarchar length s).getD s

/-- The row as it is stored. The texts that validation bounds, or that are generated, have no spaces
to cut. -/
def UserEntity.stored (r : UserEntity) : UserEntity :=
  { r with
    authId := NestHarness.stored 20 r.authId
    positionId := r.positionId.map (NestHarness.stored 32) }

def UserPatch.stored (p : UserPatch) : UserPatch where
  deviceOs := NestHarness.stored 20 p.deviceOs
  deviceToken := NestHarness.stored 255 p.deviceToken

def SessionEntity.stored (r : SessionEntity) : SessionEntity :=
  { r with
    deviceOs := r.deviceOs.map (NestHarness.stored 20)
    deviceToken := r.deviceToken.map (NestHarness.stored 255) }

def UserPatch.apply (p : UserPatch) (r : UserEntity) : UserEntity :=
  { r with deviceOs := some p.deviceOs, deviceToken := some p.deviceToken }

variable {P} in
def Tables.apply (d : Tables P) : UserWrite P → Tables P
  | .insertUser r => { d with tUser := d.tUser ++ [r.stored] }
  | .updateUser id p =>
    { d with tUser := d.tUser.map fun r => if r.userId = id then p.stored.apply r else r }
  | .insertSession r => { d with tSession := d.tSession ++ [r.stored] }
  | .insertSessionRefresh r => { d with tSessionRefresh := d.tSessionRefresh ++ [r] }

/-! ## Constraints -/

/-- The unique-index entries of the tables; that of a login id is its weight. -/
inductive UserKey
  | pkUser (userId : String)
  | loginId (weight : String)
  | pkSession (sessionId : String)
  | refreshHash (h : P.Hash)
  | beforeRefreshHash (h : P.Hash)
deriving DecidableEq

variable {P} in
/-- The constraint name in MySQL's message for a duplicate of the key. Primary keys are called
`PRIMARY`, whatever name they have been declared with. -/
def UserKey.constraintName : UserKey P → String
  | .pkUser _ | .pkSession _ => "PRIMARY"
  | .loginId _ => "UK_User_LoginId"
  | .refreshHash _ => "UK_SessionRefresh_RefreshHash"
  | .beforeRefreshHash _ => "UK_SessionRefresh_BeforeRefreshHash"

variable {P} in
/-- A `null` in `before_refresh_hash` takes no entry of its unique index. -/
def UserWrite.keys : UserWrite P → List (UserKey P)
  | .insertUser r => [.pkUser r.userId, .loginId (P.collate r.loginId)]
  | .updateUser _ _ => []
  | .insertSession r => [.pkSession r.sessionId]
  | .insertSessionRefresh r =>
    .refreshHash r.refreshHash :: (r.beforeRefreshHash.map .beforeRefreshHash).toList

variable {P} in
def Tables.taken (d : Tables P) : UserKey P → Bool
  | .pkUser id => d.tUser.any (·.userId = id)
  | .loginId weight => d.tUser.any (P.collate ·.loginId = weight)
  | .pkSession id => d.tSession.any (·.sessionId = id)
  | .refreshHash h => d.tSessionRefresh.any (·.refreshHash = h)
  | .beforeRefreshHash h => d.tSessionRefresh.any (·.beforeRefreshHash = some h)

/-- Some text is too long for its column. -/
def tooLong (columns : List (Option String × Nat)) : Bool :=
  columns.any fun (s, n) => s.any fun s => (MySql.cutVarchar n s).isNone

def UserEntity.columns (r : UserEntity) : List (Option String × Nat) :=
  [(r.userId, 32), (r.authId, 20), (r.stateId, 20), (r.positionId, 32), (r.loginId, 30),
    (r.loginPw, 100), (r.name, 50), (r.nickname, 50), (r.deviceOs, 20), (r.deviceToken, 255)]

def SessionEntity.columns (r : SessionEntity) : List (Option String × Nat) :=
  [(r.sessionId, 32), (r.userId, 32), (r.ip, 100), (r.deviceOs, 20), (r.deviceToken, 255)]

variable {P} in
/-- 1406 for a text that does not fit its column, 1452 for a missing parent row. -/
def Tables.refuse (d : Tables P) : UserWrite P → Option Nat
  | .insertUser r =>
    if tooLong r.columns then some 1406
    else if d.tAuth.any (P.collate · = P.collate r.stored.authId) ∧
        d.tState.any (P.collate ·.stateId = P.collate r.stateId) ∧
        r.stored.positionId.all (fun p => d.tPosition.any (P.collate · = P.collate p)) then none
    else some 1452
  | .updateUser _ p =>
    if tooLong [(p.deviceOs, 20), (p.deviceToken, 255)] then some 1406 else none
  | .insertSession r =>
    if tooLong r.columns then some 1406
    else if d.tUser.any (·.userId = r.userId) then none else some 1452
  | .insertSessionRefresh r =>
    if d.tSession.any (·.sessionId = r.sessionId) then none else some 1452

/-! ## Outside edits -/

/-- `t_session.is_delete` is set outside this module: nothing in it writes the column. -/
inductive UserEdit
  | deleteSession (sessionId : String)

variable {P} in
def Tables.edit (d : Tables P) : UserEdit → Tables P
  | .deleteSession id =>
    { d with tSession := d.tSession.map fun r =>
        if r.sessionId = id then { r with isDelete := 1 } else r }

variable {P}

@[simp] theorem UserEntity.stored_userId (r : UserEntity) : r.stored.userId = r.userId := rfl

@[simp] theorem UserEntity.stored_loginId (r : UserEntity) : r.stored.loginId = r.loginId := rfl

@[simp] theorem SessionEntity.stored_sessionId (r : SessionEntity) :
    r.stored.sessionId = r.sessionId := rfl

theorem UserWrite.keys_nodup (w : UserWrite P) : w.keys.Nodup := by
  cases w with
  | insertSessionRefresh r => cases h : r.beforeRefreshHash <;> simp [keys, h]
  | _ => simp [keys]

theorem Tables.taken_apply (d : Tables P) (w : UserWrite P) (k : UserKey P) :
    (d.apply w).taken k = (d.taken k || decide (k ∈ w.keys)) := by
  cases w with
  | insertUser r =>
    cases k <;> simp [apply, taken, UserWrite.keys, eq_comm]
    · rfl
    · rfl
  | updateUser id p =>
    have hk (r : UserEntity) : (if r.userId = id then p.stored.apply r else r).userId = r.userId ∧
        (if r.userId = id then p.stored.apply r else r).loginId = r.loginId := by
      split <;> exact ⟨rfl, rfl⟩
    cases k <;> simp [apply, taken, UserWrite.keys, Function.comp_def, hk]
  | insertSession r =>
    cases k <;> simp [apply, taken, UserWrite.keys, eq_comm]
    rfl
  | insertSessionRefresh r =>
    cases k <;> cases h : r.beforeRefreshHash <;>
      simp [apply, taken, UserWrite.keys, h, eq_comm]

theorem Tables.taken_edit (e : UserEdit) (d : Tables P) (k : UserKey P) :
    (d.edit e).taken k = d.taken k := by
  obtain ⟨id⟩ := e
  have hk (r : SessionEntity) :
      (if r.sessionId = id then { r with isDelete := 1 } else r).sessionId = r.sessionId := by
    split <;> rfl
  cases k <;> simp [edit, taken, Function.comp_def, hk]

variable (P) in
abbrev schema : Schema where
  Db := Tables P
  Query := UserQuery P
  Answer := UserQuery.Answer P
  Write := UserWrite P
  Key := UserKey P
  Edit := UserEdit
  ask q d now := d.ask now q
  apply := Tables.apply
  keys := UserWrite.keys
  taken := Tables.taken
  refuse := Tables.refuse
  edit e d := d.edit e
  keys_nodup := UserWrite.keys_nodup
  taken_apply := Tables.taken_apply
  taken_edit := Tables.taken_edit

end NestHarness
