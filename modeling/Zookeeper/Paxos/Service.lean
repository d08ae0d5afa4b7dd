import Mathlib.Data.List.Basic
import Zookeeper.Bytes

/-!
# Calls and their callbacks

`PaxosImpl::DoTransaction` hands a transaction to the current `ServiceExecutor`, a
`Lead` or a `Follow`, and its coroutine sleeps until the executor resumes it.  The
executor keeps the sleeping calls under request ids that it counts from one
(`paxos/PaxosImpl.cpp`, `paxos/paxos/service.h`).

How a call ends is read from a flag in its own frame, through the pointer
`hn_set(&success)` gave the executor.  The flag starts as false.
-/

namespace Paxos

/-- Where a call of `DoTransaction` stands. -/
inductive CallState where
  | suspended
  | returned
  | threw
deriving DecidableEq, Repr

/-- A call of `PaxosImpl::DoTransaction`. -/
structure Call (n : Nat) where
  server : Fin n
  data : Bytes
  success : Bool := false
  state : CallState := .suspended
deriving DecidableEq

namespace Call

variable {n : Nat}

/-- `success = false` through the pointer of the coroutine. -/
def fail (call : Call n) : Call n := { call with success := false }

/-- The rest of `DoTransaction`, behind the executor. -/
def finish (call : Call n) : Call n :=
  { call with state := if call.success then .returned else .threw }

@[simp] theorem finish_data (call : Call n) : call.finish.data = call.data := rfl

@[simp] theorem fail_data (call : Call n) : call.fail.data = call.data := rfl

end Call

/-- The part of `ServiceExecutor` below `Propose`.  A callback is the number of a
call, which stands for its transaction and its coroutine. -/
structure Service where
  active : Bool := false
  callbacks : List (Int64 × Nat) := []
  nextRequestId : Int64 := 1
deriving DecidableEq, Repr

namespace Service

/-- `ServiceExecutor::PushRequest`. -/
def pushRequest (s : Service) (call : Nat) : Service × Int64 :=
  ({ s with
      callbacks := (s.nextRequestId, call) :: s.callbacks.filter fun p => p.1 ≠ s.nextRequestId
      nextRequestId := s.nextRequestId + 1 }, s.nextRequestId)

/-- `ServiceExecutor::PopRequest`. -/
def popRequest (s : Service) (requestId : Int64) : Service × Option Nat :=
  ({ s with callbacks := s.callbacks.filter fun p => p.1 ≠ requestId },
    (s.callbacks.find? fun p => p.1 = requestId).map Prod.snd)

/-- The calls that `ServiceExecutor::ClearRequest` resumes. -/
def pending (s : Service) : List Nat := s.callbacks.map Prod.snd

/-- The table behind `ServiceExecutor::ClearRequest`. -/
def clearRequest (s : Service) : Service := { s with callbacks := [] }

/-- A call that is taken was under that id. -/
theorem popRequest_mem {s : Service} {requestId : Int64} {call : Nat}
    (h : (s.popRequest requestId).2 = some call) : (requestId, call) ∈ s.callbacks := by
  obtain ⟨p, hp, rfl⟩ := Option.map_eq_some_iff.mp h
  have hid : p.1 = requestId := by simpa using List.find?_some hp
  exact hid ▸ List.mem_of_find?_eq_some hp

/-- Callbacks are only taken away. -/
theorem popRequest_subset (s : Service) (requestId : Int64) :
    (s.popRequest requestId).1.callbacks ⊆ s.callbacks := List.filter_subset_self _

@[simp] theorem popRequest_nextRequestId (s : Service) (requestId : Int64) :
    (s.popRequest requestId).1.nextRequestId = s.nextRequestId := rfl

/-- A callback is the new one, under the next id, or an old one. -/
theorem pushRequest_mem {s : Service} {call : Nat} {p : Int64 × Nat}
    (h : p ∈ (s.pushRequest call).1.callbacks) :
    p = (s.nextRequestId, call) ∨ p ∈ s.callbacks :=
  (List.mem_cons.mp h).imp id fun h => (List.mem_filter.mp h).1

end Service

end Paxos
