import Zookeeper.Bytes
import Zookeeper.Paxos.ZxId

/-!
# The data set of a server

`DataSet` holds the application's state, the log of committed bills, and the
bills proposed but not yet committed (`paxos/transaction/dataset.h`).  The
application is a `Machine`: the state data and the registered transactions.

How the file calls of an operation end is an argument here.  What they do to
the directory is in `Zookeeper.Paxos.LogFile`.  An operation that throws keeps
the changes it made before.
-/

namespace Paxos

/-- `DataSet::Bill`: one logged transaction. -/
structure Bill where
  zxId : Int64
  data : Bytes
deriving DecidableEq, Repr

/-- `IStateData` over states `σ`, and `ITransaction` over `τ`. -/
structure Machine (σ τ : Type) where
  /-- The type in front of a bill's data, if the data is long enough. -/
  readType : Bytes → Option Int32
  /-- `_transactions`. -/
  transactions : Int32 → Option τ
  apply : τ → σ → Bytes → σ
  rollback : τ → σ → Bytes → σ
  getData : σ → Bytes
  buildFromData : σ → Bytes → σ

/-- The exceptions of a `DataSet`. -/
inductive Thrown where
  | invalidZxId
  | invalidLog
  | saveSnapFailed
  | removeSnapFailed
  | removeFileFailed
  | truncLogFailed
deriving DecidableEq, Repr

/-- `DataSet`, less its files. -/
structure DataSet (σ : Type) where
  stateData : σ
  minZxId : Int64 := 0
  zxId : Int64 := 0
  commitLog : List Bill := []
  uncommit : List Bill := []
  snaperCount : Nat := 0
deriving DecidableEq, Repr

namespace Machine

variable {σ τ : Type} (m : Machine σ τ)

/-- `DataSet::Apply`.  Without a transaction of its own, a bill is applied with
the one registered for its type. -/
def applyBill (s : σ) (bill : Bill) (transaction : Option τ := none) : Option σ :=
  (m.readType bill.data).bind fun type =>
    (transaction.or (m.transactions type)).map fun t => m.apply t s bill.data

/-- `DataSet::Rollback`. -/
def rollbackBill (s : σ) (bill : Bill) : Option σ :=
  (m.readType bill.data).bind fun type =>
    (m.transactions type).map fun t => m.rollback t s bill.data

/-- The machine whose state is all the data applied, one after the other. -/
def tape : Machine Bytes Unit where
  readType _ := some 0
  transactions _ := some ()
  apply _ s data := s ++ data
  rollback _ s data := s.take (s.length - data.length)
  getData s := s
  buildFromData _ data := data

end Machine

namespace DataSet

variable {σ τ : Type} (m : Machine σ τ) (d : DataSet σ)

/-- `DataSet::Propose`, `saved` being the result of `SaveLogData`. -/
def propose (zxId : Int64) (data : Bytes) (saved : Bool) : DataSet σ × Bool :=
  if saved then ({ d with uncommit := d.uncommit ++ [⟨zxId, data⟩] }, true) else (d, false)

/-- The end of `DataSet::Commit`: a long log is saved as a snapshot and cut to
a quarter.  `saved` is the result of `SaveToFile`, and `nextCount` the number
drawn for the next time. -/
def saveSnap (saved : Bool) (nextCount : Nat) : DataSet σ × Option Thrown :=
  if d.snaperCount ≤ d.commitLog.length then
    if saved then
      ({ d with
          commitLog := d.commitLog.drop (d.commitLog.length - d.snaperCount / 4)
          snaperCount := nextCount }, none)
    else (d, some .saveSnapFailed)
  else (d, none)

/-- `DataSet::Commit`. -/
def commit (zxId : Int64) (transaction : Option τ) (saved : Bool) (nextCount : Nat) :
    DataSet σ × Option Thrown :=
  match d.uncommit with
  | [] => (d, some .invalidZxId)
  | bill :: rest =>
      if bill.zxId ≠ zxId then (d, some .invalidZxId)
      else
        let d := { d with commitLog := d.commitLog ++ [bill], uncommit := rest }
        match m.applyBill d.stateData bill transaction with
        | none => (d, some .invalidLog)
        | some s => saveSnap { d with stateData := s, zxId := zxId } saved nextCount

/-- `DataSet::Snap`, `files` being how its file operations end. -/
def snap (zxId : Int64) (data : Bytes) (files : Option Thrown) : DataSet σ × Option Thrown :=
  ({ d with
      minZxId := zxId
      zxId := zxId
      stateData := m.buildFromData d.stateData data
      commitLog := (d.commitLog.reverse.dropWhile fun bill => zxId < bill.zxId).reverse }, files)

/-- The loop of `DataSet::Trunc` over the log, last bill first. -/
def truncLoop (zxId : Int64) : List Bill → σ → List Bill × σ × Option Thrown
  | [], s => ([], s, none)
  | bill :: rest, s =>
      if zxId < bill.zxId then
        match m.rollbackBill s bill with
        | none => (bill :: rest, s, some .invalidLog)
        | some s => truncLoop zxId rest s
      else (bill :: rest, s, none)

/-- `DataSet::Trunc`. -/
def trunc (zxId : Int64) (files : Option Thrown) : DataSet σ × Option Thrown :=
  match truncLoop m zxId d.commitLog.reverse d.stateData with
  | (log, s, some e) => ({ d with commitLog := log.reverse, stateData := s }, some e)
  | (log, s, none) => ({ d with commitLog := log.reverse, stateData := s, zxId := zxId }, files)

/-- `DataSet::Flush`, one bill after the other. -/
def flushLoop : List Bill → DataSet σ → DataSet σ × Option Thrown
  | [], d => (d, none)
  | bill :: rest, d =>
      let d := { d with commitLog := d.commitLog ++ [bill], uncommit := rest }
      match m.applyBill d.stateData bill with
      | none => (d, some .invalidLog)
      | some s => flushLoop rest { d with stateData := s, zxId := bill.zxId }

/-- `DataSet::Flush`. -/
def flush : DataSet σ × Option Thrown := flushLoop m d.uncommit d

/-- `DataSet::Query`: the committed bills between two ids. -/
def query (start stop : Int64) : List Bill :=
  d.commitLog.filter fun bill => decide (start ≤ bill.zxId) && decide (bill.zxId ≤ stop)

end DataSet

end Paxos
