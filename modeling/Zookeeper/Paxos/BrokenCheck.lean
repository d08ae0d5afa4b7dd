import Mathlib.Data.Fintype.Basic
import Mathlib.Logic.Function.Basic
import Zookeeper.Majority
import Zookeeper.Transition

/-!
# When a leader gives up

`Lead::Process` looks at the forwarding table again and again, and ends the term when
the table has been too small for `HALF_BROKEN_CHECK_INTERVAL` (`paxos/paxos/lead.cpp`).
The table has no entry for the leader itself, and yet its size is compared with more
than a majority.  So a leader of three gives up although both of its followers are
there.

`live_majority_stays` says that the leader only leaves when it was without a majority
for so long, where no check finds a majority that is too small for the comparison.
-/

namespace Paxos

open Majority

/-- `HALF_BROKEN_CHECK_INTERVAL`. -/
def halfBrokenCheckInterval : Nat := 1000

/-- `CHECK_BROKEN_INTERVAL`. -/
def checkBrokenInterval : Nat := 100

/-- What a check has looked at, and when. -/
structure BrokenCheck (n : Nat) where
  time : Nat
  /-- The leader and the servers it forwards to. -/
  alive : Finset (Fin n)

/-- `Lead::Process` with its locals, the forwarding table, and the clock. -/
structure Watch (n : Nat) where
  id : Fin n
  /-- `_forwarding`. -/
  forwarding : Fin n → Option Nat
  /-- `olib::GetTickCount`. -/
  now : Nat
  /-- When `Process` was called. -/
  start : Nat
  tick : Nat
  /-- When the next check is due. -/
  wake : Nat
  ended : Bool := false
  /-- The checks so far, the last one first. -/
  checks : List (BrokenCheck n) := []

inductive WatchAct (n : Nat) where
  | startForwarding (id : Fin n) (fd : Nat)
  | unregister (id : Fin n)
  /-- Time goes by. -/
  | pass (elapsed : Nat)
  /-- A turn of the loop in `Process`. -/
  | check

namespace Watch

variable {n : Nat}

/-- The entries that `Process` counts. -/
def forwarded (w : Watch n) : Finset (Fin n) :=
  Finset.univ.filter fun i => (w.forwarding i).isSome

/-- The leader together with the servers it forwards to. -/
def alive (w : Watch n) : Finset (Fin n) := insert w.id w.forwarded

/-- One turn of the loop in `Lead::Process`. -/
def check (w : Watch n) : Watch n :=
  let w := { w with checks := ⟨w.now, w.alive⟩ :: w.checks }
  if n / 2 + 1 < w.forwarded.card then
    { w with tick := w.now, wake := w.now + checkBrokenInterval }
  else if w.tick + halfBrokenCheckInterval ≤ w.now then { w with ended := true }
  else { w with wake := w.now + checkBrokenInterval }

def step (w : Watch n) : WatchAct n → Option (Watch n)
  | .startForwarding id fd =>
      some { w with forwarding := Function.update w.forwarding id (some fd) }
  | .unregister id => some { w with forwarding := Function.update w.forwarding id none }
  | .pass elapsed => some { w with now := w.now + elapsed }
  | .check => if w.ended = false ∧ w.wake ≤ w.now then some w.check else none

/-- `Process` is called, with the followers that have joined by then. -/
def Fresh (w : Watch n) : Prop :=
  ∃ id forwarding now,
    w = { id := id, forwarding := forwarding, now := now, start := now, tick := now, wake := now }

end Watch

/-- The checks of a leader of `n` servers. -/
def watch (n : Nat) : Transition.System (Watch n) (WatchAct n) :=
  Transition.ofStep Watch.Fresh Watch.step

/-- A leader that has left was without a majority for `HALF_BROKEN_CHECK_INTERVAL`, at
every check behind `since`. -/
def Watch.Stays {n : Nat} (w : Watch n) : Prop :=
  w.ended = true → ∃ since, w.start ≤ since ∧
    (∃ c ∈ w.checks, since + halfBrokenCheckInterval ≤ c.time) ∧
    ∀ c ∈ w.checks, since < c.time → ¬ IsMajority c.alive

/-- A check that finds a majority counts more than one. -/
def SeesMajority {n : Nat} (w : Watch n) : WatchAct n → Prop
  | .check => IsMajority w.alive → n / 2 + 1 < w.forwarded.card
  | _ => True

instance {n : Nat} (w : Watch n) : ∀ a, Decidable (SeesMajority w a)
  | .check => inferInstanceAs (Decidable (_ → _))
  | .startForwarding _ _ => inferInstanceAs (Decidable True)
  | .unregister _ => inferInstanceAs (Decidable True)
  | .pass _ => inferInstanceAs (Decidable True)

namespace Watch

variable {n : Nat} {w w' : Watch n} {a : WatchAct n}

/-- Since `tick`, no check has found a majority. -/
structure Inv (w : Watch n) : Prop where
  start_le : w.start ≤ w.tick
  tick_le : w.tick ≤ w.now
  time_le : ∀ c ∈ w.checks, c.time ≤ w.now
  minority : ∀ c ∈ w.checks, w.tick < c.time → ¬ IsMajority c.alive
  late : w.ended = true → ∃ c ∈ w.checks, w.tick + halfBrokenCheckInterval ≤ c.time

theorem Inv.of_fresh (h : w.Fresh) : w.Inv := by
  obtain ⟨id, forwarding, now, rfl⟩ := h
  exact ⟨le_refl now, le_refl now, fun c hc => absurd hc List.not_mem_nil,
    fun c hc => absurd hc List.not_mem_nil, fun hended => absurd hended Bool.false_ne_true⟩

theorem Inv.stays (h : w.Inv) : w.Stays := fun hended =>
  ⟨w.tick, h.start_le, h.late hended, h.minority⟩

/-- A check that does not find a majority goes on the list. -/
theorem Inv.record (h : w.Inv) (hnone : ¬ IsMajority w.alive) :
    ({ w with checks := ⟨w.now, w.alive⟩ :: w.checks } : Watch n).Inv where
  start_le := h.start_le
  tick_le := h.tick_le
  time_le := by
    intro c hc
    rcases List.mem_cons.mp hc with rfl | hc
    · exact le_refl w.now
    · exact h.time_le c hc
  minority := by
    intro c hc hlate
    rcases List.mem_cons.mp hc with rfl | hc
    · exact hnone
    · exact h.minority c hc hlate
  late := by
    intro hended
    obtain ⟨c, hc, hlate⟩ := h.late hended
    exact ⟨c, .tail _ hc, hlate⟩

theorem Inv.check (h : w.Inv) (hrun : w.ended = false)
    (hsees : IsMajority w.alive → n / 2 + 1 < w.forwarded.card) : w.check.Inv := by
  have htimes : ∀ c ∈ (⟨w.now, w.alive⟩ : BrokenCheck n) :: w.checks, c.time ≤ w.now := by
    intro c hc
    rcases List.mem_cons.mp hc with rfl | hc
    · exact le_refl w.now
    · exact h.time_le c hc
  rw [Watch.check]
  dsimp only
  split
  next =>
    -- `tick` is now, and no check is later
    refine ⟨h.start_le.trans h.tick_le, le_refl w.now, htimes, ?_, fun hended => ?_⟩
    · intro c hc hlate
      exact absurd (htimes c hc) (Nat.not_le.mpr hlate)
    · exact absurd (hrun.symm.trans hended) (by decide)
  next hfew =>
    have hrecord := h.record fun hmajority => hfew (hsees hmajority)
    split
    next hlate =>
      exact ⟨hrecord.start_le, hrecord.tick_le, htimes, hrecord.minority,
        fun _ => ⟨_, List.mem_cons_self, hlate⟩⟩
    next =>
      exact ⟨hrecord.start_le, hrecord.tick_le, htimes, hrecord.minority, hrecord.late⟩

theorem Inv.step (h : w.Inv) (hsees : SeesMajority w a) (hs : w.step a = some w') : w'.Inv := by
  cases a with
  | startForwarding id fd =>
      cases hs
      exact ⟨h.start_le, h.tick_le, h.time_le, h.minority, h.late⟩
  | unregister id =>
      cases hs
      exact ⟨h.start_le, h.tick_le, h.time_le, h.minority, h.late⟩
  | pass elapsed =>
      cases hs
      exact ⟨h.start_le, h.tick_le.trans (Nat.le_add_right _ _),
        fun c hc => (h.time_le c hc).trans (Nat.le_add_right _ _), h.minority, h.late⟩
  | check =>
      rw [Watch.step] at hs
      split at hs
      next hrun => cases hs; exact h.check hrun.1 hsees
      next => cases hs

end Watch

/-- A leader leaves only behind a stretch without a majority, where every check that
finds a majority counts more followers than a majority has servers. -/
theorem live_majority_stays {n : Nat} {w : Watch n} (h : (watch n).Run SeesMajority w) :
    w.Stays := by
  have hinv : w.Inv := Transition.System.Run.invariant (I := fun w => w.Inv)
    (fun _ hf => Watch.Inv.of_fresh hf) (fun _ _ _ hi hsees hs => hi.step hsees hs) h
  exact hinv.stays

/-! ## A leader of three -/

/-- A server starts to lead. -/
def Watch.of {n : Nat} (leader : Fin n) (forwarding : Fin n → Option Nat) : Watch n :=
  { id := leader, forwarding := forwarding, now := 0, start := 0, tick := 0, wake := 0 }

/-- All others are its followers. -/
def followersOf {n : Nat} (leader i : Fin n) : Option Nat := if i = leader then none else some i

/-- `Process` checks, and checks again a second later. -/
def twoChecks : List (WatchAct 3) := [.check, .pass 1000, .check]

theorem Watch.of_fresh {n : Nat} (leader : Fin n) (forwarding : Fin n → Option Nat) :
    (Watch.of leader forwarding).Fresh :=
  ⟨leader, forwarding, 0, rfl⟩

/-- The leader behind both checks. -/
def Watch.leaving {n : Nat} (leader : Fin n) (forwarding : Fin n → Option Nat) : Watch n :=
  let w := (Watch.of leader forwarding).check
  { w with now := w.now + 1000 }.check

/-- A leader without followers leaves. -/
theorem live_majority_stays_alone :
    (Watch.leaving (0 : Fin 3) fun _ => none).ended = true ∧
      (Watch.leaving (0 : Fin 3) fun _ => none).Stays :=
  have hguard : Transition.Guarded Watch.step SeesMajority (Watch.of (0 : Fin 3) fun _ => none)
      twoChecks := by
    decide
  ⟨rfl, live_majority_stays (Transition.exec_run (.start (Watch.of_fresh _ _)) hguard rfl)⟩

/-- Both followers are there, and the leader leaves. -/
theorem full_house_leaves :
    ¬ ∀ (n : Nat) (w : Watch n), n % 2 = 1 → (watch n).Reachable w → w.Stays := by
  intro h
  have hexec : Transition.exec Watch.step (Watch.of (0 : Fin 3) (followersOf 0)) twoChecks =
      some (Watch.leaving 0 (followersOf 0)) := rfl
  have hall : ∀ c ∈ (Watch.leaving (0 : Fin 3) (followersOf 0)).checks, IsMajority c.alive := by
    decide
  obtain ⟨since, -, ⟨c, hc, hlate⟩, hnone⟩ := h 3 _ rfl
    (Transition.exec_reachable (Watch.of_fresh 0 (followersOf 0)) hexec) rfl
  refine hnone c hc ?_ (hall c hc)
  exact Nat.lt_of_lt_of_le (Nat.lt_add_of_pos_right (by decide)) hlate

end Paxos
