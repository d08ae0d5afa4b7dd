import Mathlib.Algebra.Ring.Nat
import Mathlib.Data.Fintype.Basic
import Mathlib.Data.List.FinRange
import Zookeeper.Majority

/-!
# The leader's side of the handshake

The tables a `Lead` fills while servers join it: the connection each server is
registered with, the epoch it reported, and whether it has acknowledged the new
leader (`paxos/paxos/lead.h`, `paxos/paxos/lead.cpp`).

`Lead::GetPeerEpoch` stores the epoch a server reports, waits until a majority has
reported one, sleeps, and then takes the greatest one plus one.  Every call that
waits makes that computation.  `LeadTables.greatest_eq` is why they agree: where no
report was lowered, the computation does not depend on who makes it.
-/

namespace Paxos

open Majority

variable {n : Nat}

/-- The part of `Lead` that the handshake uses.  Servers are numbered from zero. -/
structure LeadTables (n : Nat) where
  id : Fin n
  /-- The handlers that have not ended. -/
  count : Nat := 0
  /-- The connection each server is registered with. -/
  followers : Fin n → Option Nat := fun _ => none
  waitForPeerEpoch : Bool := true
  peerEpoch : Int32 := 0
  recvPeerEpoch : Fin n → Int32 := fun _ => 0
  recvNewLeader : Fin n → Bool := fun _ => false

namespace LeadTables

/-- `Lead::Register`, which throws when the slot is taken. -/
def register (l : LeadTables n) (id : Fin n) (fd : Nat) : Option (LeadTables n) :=
  match l.followers id with
  | some _ => none
  | none => some { l with followers := Function.update l.followers id (some fd) }

/-- The table of `Lead::Unregister`, and the end of the handler. -/
def unregister (l : LeadTables n) (id : Fin n) : LeadTables n :=
  { l with followers := Function.update l.followers id none, count := l.count - 1 }

/-! ## `Lead::GetPeerEpoch` -/

/-- A reported epoch is stored. -/
def report (l : LeadTables n) (id : Fin n) (peerEpoch : Int32) : LeadTables n :=
  { l with recvPeerEpoch := Function.update l.recvPeerEpoch id peerEpoch }

/-- The servers that count as having reported. -/
def reported (l : LeadTables n) : Finset (Fin n) :=
  Finset.univ.filter fun i => 0 < l.recvPeerEpoch i

/-- The loop that looks for the greatest epoch, from the caller's own. -/
def greatest (l : LeadTables n) (peerEpoch : Int32) : Int32 :=
  (List.finRange n).foldl (fun peerEpoch i =>
    if 0 < l.recvPeerEpoch i ∧ peerEpoch < l.recvPeerEpoch i then l.recvPeerEpoch i
    else peerEpoch) peerEpoch

/-- The last lines: the epoch is fixed. -/
def finish (l : LeadTables n) (peerEpoch : Int32) : LeadTables n :=
  { l with waitForPeerEpoch := false, peerEpoch := l.greatest peerEpoch + 1 }

/-! ## `Lead::WaitForNewLeader` -/

def recvAck (l : LeadTables n) (id : Fin n) : LeadTables n :=
  { l with recvNewLeader := Function.update l.recvNewLeader id true }

/-- The servers that have acknowledged. -/
def synced (l : LeadTables n) : Finset (Fin n) :=
  Finset.univ.filter fun i => l.recvNewLeader i = true

@[simp] theorem mem_reported {l : LeadTables n} {i : Fin n} :
    i ∈ l.reported ↔ 0 < l.recvPeerEpoch i := by
  simp [reported]

theorem recvPeerEpoch_report (l : LeadTables n) (id : Fin n) (e : Int32) (i : Fin n) :
    (l.report id e).recvPeerEpoch i = if i = id then e else l.recvPeerEpoch i :=
  Function.update_apply ..

/-- A positive report takes no other one back. -/
theorem reported_report (l : LeadTables n) (id : Fin n) {e : Int32} (hpos : 0 < e) :
    l.reported ⊆ (l.report id e).reported := by
  intro i hi
  rw [mem_reported] at hi ⊢
  rw [recvPeerEpoch_report]
  split
  · exact hpos
  · exact hi

@[simp] theorem mem_synced {l : LeadTables n} {i : Fin n} :
    i ∈ l.synced ↔ l.recvNewLeader i = true := by
  simp [synced]

/-! ## The greatest epoch -/

section Greatest

variable (l : LeadTables n)

/-- One turn of the loop never lowers the epoch. -/
theorem greatest_go_le (is : List (Fin n)) (e : Int32) :
    e ≤ is.foldl (fun e i =>
      if 0 < l.recvPeerEpoch i ∧ e < l.recvPeerEpoch i then l.recvPeerEpoch i else e) e := by
  induction is generalizing e with
  | nil => exact Std.le_refl e
  | cons i is ih =>
      rw [List.foldl_cons]
      refine Std.le_trans ?_ (ih _)
      split
      next h => exact Std.le_of_lt h.2
      next => exact Std.le_refl e

theorem greatest_go_ge (is : List (Fin n)) (e : Int32) (j : Fin n) (hj : j ∈ is)
    (hpos : 0 < l.recvPeerEpoch j) :
    l.recvPeerEpoch j ≤ is.foldl (fun e i =>
      if 0 < l.recvPeerEpoch i ∧ e < l.recvPeerEpoch i then l.recvPeerEpoch i else e) e := by
  induction is generalizing e with
  | nil => cases hj
  | cons i is ih =>
      rw [List.foldl_cons]
      rcases List.mem_cons.mp hj with rfl | hj
      · refine Std.le_trans ?_ (greatest_go_le l is _)
        split
        next => exact Std.le_refl _
        next h => grind
      · exact ih _ hj

/-- The loop ends with the caller's epoch or one that was reported. -/
theorem greatest_go_mem (is : List (Fin n)) (e : Int32) :
    let r := is.foldl (fun e i =>
      if 0 < l.recvPeerEpoch i ∧ e < l.recvPeerEpoch i then l.recvPeerEpoch i else e) e
    r = e ∨ ∃ i, 0 < l.recvPeerEpoch i ∧ r = l.recvPeerEpoch i := by
  induction is generalizing e with
  | nil => exact .inl rfl
  | cons i is ih =>
      simp only [List.foldl_cons]
      rcases ih (if 0 < l.recvPeerEpoch i ∧ e < l.recvPeerEpoch i then
        l.recvPeerEpoch i else e) with h | h
      · rw [h]
        split
        next hi => exact .inr ⟨i, hi.1, rfl⟩
        next => exact .inl rfl
      · exact .inr h

theorem le_greatest (e : Int32) : e ≤ l.greatest e := greatest_go_le l _ e

theorem reported_le_greatest (e : Int32) {i : Fin n} (hi : 0 < l.recvPeerEpoch i) :
    l.recvPeerEpoch i ≤ l.greatest e :=
  greatest_go_ge l _ e i (List.mem_finRange i) hi

theorem greatest_mem (e : Int32) :
    l.greatest e = e ∨ ∃ i, 0 < l.recvPeerEpoch i ∧ l.greatest e = l.recvPeerEpoch i :=
  greatest_go_mem l _ e

/-- A caller whose epoch is not above every report finds a reported one. -/
theorem greatest_reported {e : Int32} {i : Fin n} (he : e ≤ l.recvPeerEpoch i)
    (hpos : ∃ j, 0 < l.recvPeerEpoch j) :
    ∃ j, 0 < l.recvPeerEpoch j ∧ l.greatest e = l.recvPeerEpoch j := by
  rcases l.greatest_mem e with hg | hg
  · obtain ⟨j, hj⟩ := hpos
    have hje := l.reported_le_greatest e hj
    have hi : 0 < l.recvPeerEpoch i := by grind
    have := l.reported_le_greatest e hi
    exact ⟨i, hi, by grind⟩
  · exact hg

/-- Two callers whose own reports stand compute the same epoch. -/
theorem greatest_eq {e e' : Int32} {i i' : Fin n} (he : e ≤ l.recvPeerEpoch i)
    (he' : e' ≤ l.recvPeerEpoch i') (hpos : ∃ j, 0 < l.recvPeerEpoch j) :
    l.greatest e = l.greatest e' := by
  obtain ⟨j, hj, hg⟩ := l.greatest_reported he hpos
  obtain ⟨j', hj', hg'⟩ := l.greatest_reported he' hpos
  have hle : l.greatest e ≤ l.greatest e' := hg ▸ l.reported_le_greatest e' hj
  have hle' : l.greatest e' ≤ l.greatest e := hg' ▸ l.reported_le_greatest e hj'
  exact Std.le_antisymm hle hle'

end Greatest

end LeadTables

end Paxos
