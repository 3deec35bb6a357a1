import NestHarness.Lib.Calendar
import NestHarness.Lib.Prog

/-!
# The maintenance of the partitions of `t_api_log`

`ApiLogPartitionService.runMaintenance` as a program that reads the clock and performs queries.
-/

namespace NestHarness

open Calendar

def API_LOG_RETENTION_MONTHS : Int := 24

def API_LOG_AHEAD_PARTITIONS : Nat := 3

def API_LOG_POOL_SIZE : Nat := 5

/-- The statements of the service. Partitions are given by name and upper date; an `ALTER TABLE`
that defines partitions has `pmax` after them. -/
inductive Sql where
  | getLock
  | releaseLock
  | partitionNames (tableName : String)
  | partitionByRange (tableName : String) (partitions : List (String × String))
  | reorganizePmax (tableName : String) (partitions : List (String × String))
  | dropPartition (tableName : String) (names : List String)
deriving DecidableEq

/-- What the service reads of the rows of a statement: `acquired`, or the partition names. -/
abbrev Sql.Rows : Sql → Type
  | .getLock => Option Nat
  | .partitionNames _ => List String
  | .releaseLock | .partitionByRange _ _ | .reorganizePmax _ _ | .dropPartition _ _ => Unit

structure QueryError where
  errno : Option Nat
deriving DecidableEq

inductive MaintenanceOp where
  /-- `new Date()` -/
  | now
  | query (sql : Sql)
deriving DecidableEq

abbrev MaintenanceOp.Ans : MaintenanceOp → Type
  | .now => Int
  | .query sql => Except QueryError sql.Rows

abbrev maintenance : Effect := ⟨MaintenanceOp, MaintenanceOp.Ans⟩

abbrev Maintenance := Prog maintenance QueryError

namespace Maintenance

def now : Maintenance Int := Prog.perform (E := maintenance) .now

def query (sql : Sql) : Maintenance sql.Rows :=
  (Prog.perform (E := maintenance) (.query sql)).bind Prog.ended

variable (z : Zone)

/-! ## Names and dates -/

def padStart2 (n : Int) : String :=
  let s := toString n
  if s.length < 2 then "0" ++ s else s

def partitionName (date : Int) : String :=
  "p" ++ toString (z.getFullYear date) ++ padStart2 (z.getMonth date + 1)

def toDateStr (date : Int) : String :=
  toString (z.getFullYear date) ++ "-" ++ padStart2 (z.getMonth date + 1) ++ "-" ++
    padStart2 (z.getDate date)

def parseDigits (digits : List Char) : Int :=
  digits.foldl (fun n c => 10 * n + (c.toNat - '0'.toNat : Int)) 0

def parsePartitionName (name : String) : Option Int :=
  match name.toList with
  | ['p', y₁, y₂, y₃, y₄, m₁, m₂] =>
    if [y₁, y₂, y₃, y₄, m₁, m₂].all Char.isDigit then
      some (z.newDate (parseDigits [y₁, y₂, y₃, y₄]) (parseDigits [m₁, m₂] - 1))
    else none
  | _ => none

/-- The partition of the month `i` months after that of `now`, and its upper date. -/
def partitionAhead (now : Int) (i : Nat) : String × String :=
  let target := z.newDate (z.getFullYear now) (z.getMonth now + i)
  let upper := z.newDate (z.getFullYear target) (z.getMonth target + 1)
  (partitionName z target, toDateStr z upper)

/-- The local day `setMonth` moves a local day to: the day of the month is kept, and one that the
month does not have moves to the next month. -/
def setMonth (day month : Int) : Int :=
  firstDay (12 * (monthOfDay day / 12) + month) + (day - firstDay (monthOfDay day))

/-- `setMonth`, `setDate(1)` and `setHours(0, 0, 0, 0)` on the date of `now`. -/
def cutoff (now : Int) : Int :=
  let day := setMonth (z.dayOf now) (z.getMonth now - API_LOG_RETENTION_MONTHS)
  z.startOf (firstDay (monthOfDay day))

/-! ## The service -/

def acquireLock : Maintenance Bool := do
  let acquired : Option Nat ← query .getLock
  return acquired == some 1

def releaseLock : Maintenance Unit :=
  tryCatch (query .releaseLock) fun _ => pure ()

def getExistingPartitions (tableName : String) : Maintenance (List String) := do
  let rows : List String ← query (.partitionNames tableName)
  return rows.eraseDups

def initialPartitioning (tableName : String) : Maintenance Unit := do
  let now ← now
  let partitions := (List.range (API_LOG_AHEAD_PARTITIONS + 1)).map (partitionAhead z now)
  query (.partitionByRange tableName partitions)

def ensureFuturePartitions (tableName : String) (existing : List String) : Maintenance Unit := do
  let now ← now
  let toAdd := ((List.range (API_LOG_AHEAD_PARTITIONS + 1)).map (partitionAhead z now)).filter
    fun p => !existing.contains p.1
  if toAdd.isEmpty then return
  tryCatch (query (.reorganizePmax tableName toAdd)) fun e =>
    -- 1517: duplicate partition name
    if e.errno = some 1517 then pure () else throw e

def isExpired (cutoff : Int) (name : String) : Bool :=
  name != "pmax" && (parsePartitionName z name).any (· < cutoff)

def dropExpiredPartitions (tableName : String) : Maintenance Unit := do
  let cutoff := cutoff z (← now)
  let existing ← getExistingPartitions tableName
  let toDrop := existing.filter (isExpired z cutoff)
  if toDrop.isEmpty then return
  tryCatch (query (.dropPartition tableName toDrop)) fun _ => pure ()

/-- What `runMaintenance` does under the lock. -/
def maintain (tableName : String) : Maintenance Unit := do
  let existing ← getExistingPartitions tableName
  if existing.isEmpty then initialPartitioning z tableName
  else ensureFuturePartitions z tableName existing
  dropExpiredPartitions z tableName

def runMaintenance (tableName : String) : Maintenance Unit := do
  let lockAcquired ← acquireLock
  if !lockAcquired then return
  (maintain z tableName).andFinally releaseLock

end Maintenance

end NestHarness
