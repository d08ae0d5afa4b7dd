import Zookeeper.Majority

/-!
# Logs backed by a majority

Every party has a *log* and has *applied* some of it.  The parties are `Agreed` if all
have applied parts of one common log, and a majority has logged all of it.  Then what two
parties have applied is comparable.  The parties stay agreed while logs grow (`Agreed.mono`),
and the common log may grow to any log that a majority has (`Agreed.commit`), since two
majorities share a party.
-/

namespace ReplicatedLog

open Majority

variable {ι : Type*} [Fintype ι] {α : Type*}

/-- What the parties have applied are parts of one log that a majority has. -/
structure Agreed (applied log : ι → List α) (common : List α) : Prop where
  applied_le : ∀ p, applied p <+: common
  logged : ∃ Q, IsMajority Q ∧ ∀ p ∈ Q, common <+: log p

variable {applied applied' log log' : ι → List α} {common : List α}

theorem agreed_nil [Nonempty ι] : Agreed (fun _ : ι => ([] : List α)) log [] where
  applied_le _ := List.nil_prefix
  logged := by
    refine ⟨Finset.univ, ?_, fun _ _ => List.nil_prefix⟩
    have hpos : 0 < Fintype.card ι := Fintype.card_pos
    rw [IsMajority]
    rw [Finset.card_univ]
    omega

/-- What two parties have applied agrees as far as both go. -/
theorem Agreed.comparable (h : Agreed applied log common) (p q : ι) :
    applied p <+: applied q ∨ applied q <+: applied p :=
  List.prefix_or_prefix_of_prefix (h.applied_le p) (h.applied_le q)

/-- Logs may grow. -/
theorem Agreed.mono (h : Agreed applied log common) (hlog : ∀ p, log p <+: log' p)
    (happlied : ∀ p, applied' p <+: common) : Agreed applied' log' common where
  applied_le := happlied
  logged := by
    obtain ⟨Q, hQ, hcommon⟩ := h.logged
    exact ⟨Q, hQ, fun p hp => (hcommon p hp).trans (hlog p)⟩

/-- What a majority has logged may be applied. -/
theorem Agreed.commit [DecidableEq ι] (h : Agreed applied log common) {Q : Finset ι}
    {l : List α} (hQ : IsMajority Q) (hl : ∀ p ∈ Q, l <+: log p) :
    ∃ common', common <+: common' ∧ l <+: common' ∧ (common' = common ∨ common' = l) ∧
      Agreed applied log common' := by
  obtain ⟨R, hR, hcommon⟩ := h.logged
  obtain ⟨p, hpQ, hpR⟩ := hQ.inter hR
  rcases List.prefix_or_prefix_of_prefix (hl p hpQ) (hcommon p hpR) with hle | hle
  · exact ⟨common, List.prefix_rfl, hle, .inl rfl, h⟩
  · refine ⟨l, hle, List.prefix_rfl, .inr rfl, ?_, Q, hQ, hl⟩
    exact fun q => (h.applied_le q).trans hle

end ReplicatedLog
