import Mathlib.Data.Int.Order.Basic
import Mathlib.Data.Prod.Lex
import Zookeeper.Epochs
import Zookeeper.Paxos.Election

/-!
# The order of the votes

`case LOOKING` of `LookForLeader` takes over the better votes of its epoch and leaves
alone those of an earlier one.  When the epoch changes the tables are cleared, but the
proposal keeps the leader it has taken over, even from an epoch that is left behind.
So it matters which of two votes comes first, as `overtaken_vote_decides` shows.

What the branch does to the epoch and the proposal is `Epochs.Standing.hear`, and
`vote_order_independent` reads off when the order makes no difference.
-/

open Epochs

namespace Paxos

/-- What `Vote::operator<` compares within an epoch. -/
def Vote.rank (v : Vote) : ℤ ×ₗ ℤ := toLex (v.voteZxId.toInt, v.voteId.toInt)

theorem Vote.lt_iff {v w : Vote} (h : v.electionEpoch = w.electionEpoch) :
    v.lt w = true ↔ v.rank < w.rank := by
  rw [Vote.lt, if_pos h, Vote.rank, Vote.rank, Prod.Lex.toLex_lt_toLex]
  split
  next hzx => simp [hzx, Int32.lt_iff_toInt_lt]
  next hzx =>
    have hne : v.voteZxId.toInt ≠ w.voteZxId.toInt := fun h => hzx (Int64.toInt_inj.mp h)
    simp [hne, Int64.lt_iff_toInt_lt]

/-- The epoch and the rank of a vote. -/
def Vote.item (v : Vote) : ℤ × (ℤ ×ₗ ℤ) := (v.electionEpoch.toInt, v.rank)

namespace Elector

/-- The `switch` of the main loop is run on one vote after the other. -/
def process (count : Nat) (x : Elector) (votes : List Vote) : Elector :=
  votes.foldl (fun x vote => (x.hear count vote).elector) x

/-- `proposal.electionEpoch`, `proposal.voteZxId` and `proposal.voteId`. -/
def proposed (x : Elector) : Int32 × Int64 × Int32 :=
  (x.proposal.electionEpoch, x.proposal.voteZxId, x.proposal.voteId)

/-- The epoch and the proposal, as an order sees them. -/
def standing (x : Elector) : Standing ℤ (ℤ ×ₗ ℤ) := ⟨x.logicCount.toInt, x.proposal.rank⟩

variable {x y : Elector} {vote : Vote} {brocast : Bool}

/-- A vote that is not of an earlier epoch makes the proposal the better of the two. -/
theorem heard_standing (hx : x.InEpoch) (h : x.logicCount ≤ vote.electionEpoch) :
    (x.heard vote).InEpoch ∧
      (x.heard vote).standing = ⟨vote.electionEpoch.toInt, max x.proposal.rank vote.rank⟩ := by
  obtain ⟨hy, hepoch, hid, hzx⟩ := hearing_inEpoch hx h
  have hrank : (x.hearing vote).proposal.rank = x.proposal.rank := by
    rw [Vote.rank, Vote.rank, hid, hzx]
  have hlogic : (x.hearing vote).logicCount = vote.electionEpoch := hy.symm.trans hepoch
  have hbetter := Vote.lt_iff hepoch
  rw [hrank] at hbetter
  rw [heard]
  split
  next hlt =>
    rw [max_eq_right (hbetter.mp hlt).le, ← hlogic]
    exact ⟨hy, rfl⟩
  next hlt =>
    rw [max_eq_left (not_lt.mp fun hr => hlt (hbetter.mpr hr)), ← hlogic, ← hrank]
    exact ⟨hy, rfl⟩

/-- A turn of the loop hears a vote as `Standing.hear` does. -/
theorem hear_standing (hx : x.InEpoch) (hstate : vote.state = .looking) (count : Nat) :
    (x.hear count vote).elector.InEpoch ∧
      (x.hear count vote).elector.standing = x.standing.hear vote.item := by
  simp only [hear, hstate]
  rcases Int32.lt_or_le vote.electionEpoch x.logicCount with hlt | hle
  · simp only [hearLooking_none hlt]
    exact ⟨hx, (Standing.hear_of_lt (Int32.lt_iff_toInt_lt.mp hlt)).symm⟩
  · obtain ⟨brocast, hsome⟩ := hearLooking_eq hle
    obtain ⟨hy, hstanding⟩ := heard_standing hx hle
    simp only [hsome]
    rw [Standing.hear_of_le (Int32.le_iff_toInt_le.mp hle)]
    split
    next => exact ⟨hy, hstanding⟩
    next => exact ⟨hy, hstanding⟩

/-- Processing votes is a fold over their epochs and ranks. -/
theorem process_standing (count : Nat) :
    ∀ (votes : List Vote) (x : Elector), x.InEpoch → (∀ v ∈ votes, v.state = .looking) →
      (x.process count votes).InEpoch ∧
        (x.process count votes).standing =
          (votes.map Vote.item).foldl Standing.hear x.standing := by
  intro votes
  induction votes with
  | nil => exact fun x hx _ => ⟨hx, rfl⟩
  | cons vote votes ih =>
      intro x hx hlooking
      obtain ⟨hy, hstanding⟩ := hear_standing hx (hlooking vote List.mem_cons_self) count
      have hrest := ih _ hy fun v hv => hlooking v (List.mem_cons_of_mem vote hv)
      rw [hstanding] at hrest
      exact hrest

theorem standing_inj (hx : x.InEpoch) (hy : y.InEpoch) :
    x.standing = y.standing ↔ x.proposed = y.proposed := by
  rw [standing, standing, Standing.mk.injEq, Int32.toInt_inj, ← hx, ← hy, Vote.rank, Vote.rank,
    toLex_inj, Prod.mk.injEq, Int64.toInt_inj, Int32.toInt_inj, proposed, proposed, Prod.mk.injEq,
    Prod.mk.injEq]

end Elector

open Elector

/-- Every vote that counts when it comes first, but not when a vote of a later epoch
comes before it, is no better than the server's own vote, or than a vote of the last
epoch. -/
def LateVotesBest (own : Vote) (votes : List Vote) : Prop :=
  ∀ v ∈ votes, own.electionEpoch ≤ v.electionEpoch →
    (∃ w ∈ votes, v.electionEpoch < w.electionEpoch) →
    v.rank ≤ own.rank ∨
      ∃ w ∈ votes, (∀ u ∈ votes, u.electionEpoch ≤ w.electionEpoch) ∧ v.rank ≤ w.rank

theorem lateBest_iff {x : Elector} (hx : x.InEpoch) (votes : List Vote) :
    LateBest x.standing (votes.map Vote.item) ↔ LateVotesBest x.proposal votes := by
  rw [LateBest, LateVotesBest, hx]
  simp only [List.mem_map, forall_exists_index, and_imp, forall_apply_eq_imp_iff₂,
    exists_exists_and_eq_and, standing, Vote.item, Int32.le_iff_toInt_le, Int32.lt_iff_toInt_lt]

/-- Processing a multiset of `LOOKING` votes in any two orders leaves the same proposal
exactly if no vote of an epoch that is left behind beats what counts in every order. -/
theorem vote_order_independent (x : Elector) (zxId : Int64) (count : Nat) (votes : List Vote)
    (hlooking : ∀ v ∈ votes, v.state = .looking) :
    (∀ l₁ l₂ : List Vote, l₁.Perm votes → l₂.Perm votes →
      ((x.start zxId).process count l₁).proposed = ((x.start zxId).process count l₂).proposed) ↔
      LateVotesBest (x.start zxId).proposal votes := by
  have hx := start_inEpoch x zxId
  have hfold : ∀ l : List Vote, l.Perm votes →
      ((x.start zxId).process count l).InEpoch ∧
        ((x.start zxId).process count l).standing =
          (l.map Vote.item).foldl Standing.hear (x.start zxId).standing := fun l hl =>
    process_standing count l _ hx fun v hv => hlooking v (hl.mem_iff.mp hv)
  rw [← lateBest_iff hx, ← map_order_independent]
  refine forall₂_congr fun l₁ l₂ => forall₂_congr fun h₁ h₂ => ?_
  obtain ⟨hepoch₁, hstanding₁⟩ := hfold l₁ h₁
  obtain ⟨hepoch₂, hstanding₂⟩ := hfold l₂ h₂
  rw [← standing_inj hepoch₁ hepoch₂, hstanding₁, hstanding₂]

/-- Server 1, before its first election. -/
def firstElector : Elector := { id := 1 }

/-- A vote for server 3 in epoch 1, and a vote for server 2, which has logged less, in epoch 2. -/
def overtakenVotes : List Vote := [⟨3, .looking, 1, 3, 5⟩, ⟨2, .looking, 2, 2, 0⟩]

/-- Server 1 proposes server 3 where the vote of epoch 1 comes first, and else server 2. -/
theorem overtaken_vote_decides :
    ¬ ∀ (x : Elector) (zxId : Int64) (count : Nat) (votes l₁ l₂ : List Vote),
      (∀ v ∈ votes, v.state = .looking) → l₁.Perm votes → l₂.Perm votes →
      ((x.start zxId).process count l₁).proposed = ((x.start zxId).process count l₂).proposed := by
  intro h
  have heq := h firstElector 0 5 overtakenVotes overtakenVotes overtakenVotes.reverse
    (by decide) (List.Perm.refl _) (List.reverse_perm _)
  have hforward : ((firstElector.start 0).process 5 overtakenVotes).proposed = (2, 5, 3) := by
    decide
  have hbackward :
      ((firstElector.start 0).process 5 overtakenVotes.reverse).proposed = (2, 0, 2) := by
    decide
  rw [hforward, hbackward] at heq
  exact absurd heq (by decide)

/-- Two votes of one epoch. -/
def timelyVotes : List Vote := [⟨3, .looking, 1, 3, 5⟩, ⟨2, .looking, 1, 2, 0⟩]

/-- Where no epoch is left behind the order makes no difference. -/
theorem vote_order_independent_timely :
    LateVotesBest (firstElector.start 0).proposal timelyVotes ∧
      ∀ l₁ l₂ : List Vote, l₁.Perm timelyVotes → l₂.Perm timelyVotes →
        ((firstElector.start 0).process 5 l₁).proposed =
          ((firstElector.start 0).process 5 l₂).proposed := by
  have hbest : LateVotesBest (firstElector.start 0).proposal timelyVotes := by
    intro v hv _ hlater
    have hnone : ¬ ∃ w ∈ timelyVotes, v.electionEpoch < w.electionEpoch := by
      revert v
      decide
    exact absurd hlater hnone
  exact ⟨hbest, (vote_order_independent firstElector 0 5 timelyVotes (by decide)).mpr hbest⟩

end Paxos
