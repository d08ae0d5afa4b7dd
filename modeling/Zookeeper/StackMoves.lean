import Mathlib.Data.List.Count

/-!
# What is done to a stack

Only the height of a stack says whether something may be taken from it.  `replay` is the
height after some moves, if none of them finds the stack empty.  `Backed` says the same without
a run: in front of every move that needs an element there are pushes enough (`replay_iff`).
-/

/-- What a program does with a stack. -/
inductive StackMove where
  | push
  | pop
  | top
deriving DecidableEq, Repr

namespace StackMove

/-- The height of the stack after the moves. -/
def replay : List StackMove → Nat → Option Nat
  | [], height => some height
  | .push :: moves, height => replay moves (height + 1)
  | .pop :: _, 0 => none
  | .pop :: moves, height + 1 => replay moves height
  | .top :: _, 0 => none
  | .top :: moves, height + 1 => replay moves (height + 1)

/-- In front of every pop and every look at the top, the pops are fewer than the pushes and
the elements there were. -/
def Backed (moves : List StackMove) (height : Nat) : Prop :=
  ∀ front move rest, moves = front ++ move :: rest → move ≠ .push →
    front.count .pop < front.count .push + height

theorem replay_append (moves rest : List StackMove) (height : Nat) :
    replay (moves ++ rest) height = (replay moves height).bind (replay rest) := by
  induction moves generalizing height with
  | nil => rfl
  | cons move moves ih =>
      cases move with
      | push => exact ih _
      | pop =>
          cases height with
          | zero => rfl
          | succ height => exact ih _
      | top =>
          cases height with
          | zero => rfl
          | succ height => exact ih _

/-- A move that is backed leaves the rest to be. -/
theorem backed_cons {move : StackMove} {moves : List StackMove} {height height' : Nat}
    (hmove : move ≠ .push → 0 < height)
    (hcount : ∀ front : List StackMove,
      ((move :: front).count .pop < (move :: front).count .push + height ↔
        front.count .pop < front.count .push + height')) :
    Backed (move :: moves) height ↔ Backed moves height' := by
  constructor
  · intro h front next rest hsplit hnext
    refine (hcount front).mp (h (move :: front) next rest ?_ hnext)
    rw [hsplit, List.cons_append]
  · intro h front next rest hsplit hnext
    cases front with
    | nil =>
        obtain ⟨rfl, _⟩ := List.cons.inj hsplit
        simpa using hmove hnext
    | cons first front =>
        obtain ⟨rfl, htail⟩ := List.cons.inj hsplit
        exact (hcount front).mpr (h front next rest htail hnext)

/-- A move with nothing to back it. -/
theorem not_backed_zero {move : StackMove} (hmove : move ≠ .push) (moves : List StackMove) :
    ¬ Backed (move :: moves) 0 := fun h => by
  have hless := h [] move moves rfl hmove
  exact absurd hless (by simp)

theorem replay_iff (moves : List StackMove) (height : Nat) :
    (replay moves height).isSome ↔ Backed moves height := by
  induction moves generalizing height with
  | nil =>
      refine iff_of_true rfl fun front move rest hsplit => ?_
      cases front <;> cases hsplit
  | cons move moves ih =>
      cases move with
      | push =>
          rw [replay, ih]
          refine (backed_cons (fun h => absurd rfl h) fun front => ?_).symm
          rw [List.count_cons_of_ne (by decide), List.count_cons_self]
          omega
      | pop =>
          cases height with
          | zero => exact iff_of_false (by simp [replay]) (not_backed_zero (by decide) moves)
          | succ height =>
              rw [replay, ih]
              refine (backed_cons (fun _ => Nat.succ_pos height) fun front => ?_).symm
              rw [List.count_cons_self, List.count_cons_of_ne (by decide)]
              omega
      | top =>
          cases height with
          | zero => exact iff_of_false (by simp [replay]) (not_backed_zero (by decide) moves)
          | succ height =>
              rw [replay, ih]
              refine (backed_cons (fun _ => Nat.succ_pos height) fun front => ?_).symm
              rw [List.count_cons_of_ne (by decide), List.count_cons_of_ne (by decide)]

end StackMove
