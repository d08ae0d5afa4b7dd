import Mathlib.Data.Fintype.Basic
import Mathlib.Logic.Function.Basic
import Zookeeper.Transition

/-!
# The slots of the followers

A `FollowHandler` registers its connection in the slot of its server, and enters it in
the forwarding table of the `Lead` (`paxos/paxos/lead.h`).  `Register` throws where the
slot is taken.  But behind every exception `FollowHandler::Start` calls `Unregister`,
which clears both entries and does not look at the connection (`paxos/paxos/lead.cpp`).

`registered_undisturbed` says that a registered handler keeps its entries in the runs in
which a handler that does not have the slot ends only where nobody has it.
-/

namespace Paxos

variable {n : Nat}

/-- Where a handler stands that has read the id of its server. -/
inductive SlotStage where
  | start
  | registered
  /-- Behind `StartForwarding`. -/
  | forwarding
  /-- `Register` has thrown. -/
  | rejected
  | ended
deriving DecidableEq, Repr

/-- The handler is registered. -/
def SlotStage.holds : SlotStage → Bool
  | .registered | .forwarding => true
  | _ => false

structure SlotHandler (n : Nat) where
  id : Fin n
  stage : SlotStage := .start
deriving DecidableEq

/-- The tables of a `Lead`, and its handlers by their connections. -/
structure FollowerSlots (n : Nat) where
  followers : Fin n → Option Nat := fun _ => none
  forwarding : Fin n → Option Nat := fun _ => none
  handlers : Nat → Option (SlotHandler n) := fun _ => none

inductive SlotAct (n : Nat) where
  /-- A connection is accepted, and the id is read from it. -/
  | connect (fd : Nat) (id : Fin n)
  | register (fd : Nat)
  | startForwarding (fd : Nat)
  /-- The handler ends, with an exception or without. -/
  | finish (fd : Nat)

namespace FollowerSlots

/-- `Lead::Register`, which throws when the slot is taken. -/
def register (s : FollowerSlots n) (id : Fin n) (fd : Nat) : Option (FollowerSlots n) :=
  match s.followers id with
  | some _ => none
  | none => some { s with followers := Function.update s.followers id (some fd) }

/-- `Lead::Unregister`. -/
def unregister (s : FollowerSlots n) (id : Fin n) : FollowerSlots n :=
  { s with
    followers := Function.update s.followers id none
    forwarding := Function.update s.forwarding id none }

/-- `Lead::StartForwarding`. -/
def startForwarding (s : FollowerSlots n) (id : Fin n) (fd : Nat) : FollowerSlots n :=
  { s with forwarding := Function.update s.forwarding id (some fd) }

def setHandler (s : FollowerSlots n) (fd : Nat) (x : SlotHandler n) : FollowerSlots n :=
  { s with handlers := Function.update s.handlers fd (some x) }

/-- The parts of `FollowHandler::Start`.  The connection of a handler that has ended may
be given to another one. -/
def step (s : FollowerSlots n) : SlotAct n → Option (FollowerSlots n)
  | .connect fd id =>
      if ∀ x ∈ s.handlers fd, x.stage = .ended then some (s.setHandler fd { id := id }) else none
  | .register fd =>
      match s.handlers fd with
      | none => none
      | some x =>
          if x.stage = .start then
            match s.register x.id fd with
            | some s => some (s.setHandler fd { x with stage := .registered })
            | none => some (s.setHandler fd { x with stage := .rejected })
          else none
  | .startForwarding fd =>
      match s.handlers fd with
      | none => none
      | some x =>
          if x.stage = .registered then
            some ((s.startForwarding x.id fd).setHandler fd { x with stage := .forwarding })
          else none
  | .finish fd =>
      match s.handlers fd with
      | none => none
      | some x =>
          if x.stage ≠ .ended then
            some ((s.unregister x.id).setHandler fd { x with stage := .ended })
          else none

end FollowerSlots

/-- The handlers of a `Lead`. -/
def followerSlots (n : Nat) : Transition.System (FollowerSlots n) (SlotAct n) :=
  Transition.ofStep (fun s => s = {}) FollowerSlots.step

/-- From `s` to `s'`, the handler that is registered for the server keeps its entries. -/
def KeepsRegistered (s s' : FollowerSlots n) (id : Fin n) : Prop :=
  ∀ fd, s.followers id = some fd → s'.followers id = some fd ∧ s'.forwarding id = s.forwarding id

/-- Every handler that has registered and not ended has its slot, and its entry in the
forwarding table once it has made one. -/
structure Undisturbed (s : FollowerSlots n) : Prop where
  followers : ∀ fd x, s.handlers fd = some x → x.stage.holds = true →
    s.followers x.id = some fd
  forwarding : ∀ fd x, s.handlers fd = some x → x.stage = .forwarding →
    s.forwarding x.id = some fd

/-- A handler that ends has the slot of its server, or nobody has. -/
def EndsAlone (s : FollowerSlots n) : SlotAct n → Prop
  | .finish fd => ∀ x ∈ s.handlers fd, s.followers x.id = some fd ∨ s.followers x.id = none
  | _ => True

instance (s : FollowerSlots n) : ∀ a, Decidable (EndsAlone s a)
  | .finish fd => inferInstanceAs (Decidable (∀ x ∈ s.handlers fd, _))
  | .connect _ _ => inferInstanceAs (Decidable True)
  | .register _ => inferInstanceAs (Decidable True)
  | .startForwarding _ => inferInstanceAs (Decidable True)

namespace FollowerSlots

variable {s s' : FollowerSlots n} {a : SlotAct n}

/-- The handlers other than the one that was set. -/
theorem setHandler_cases {fd fd' : Nat} {x y : SlotHandler n}
    (h : (s.setHandler fd x).handlers fd' = some y) :
    fd' = fd ∧ y = x ∨ fd' ≠ fd ∧ s.handlers fd' = some y := by
  change Function.update s.handlers fd (some x) fd' = some y at h
  rcases Decidable.em (fd' = fd) with rfl | hne
  · rw [Function.update_self] at h
    exact .inl ⟨rfl, (Option.some.inj h).symm⟩
  · rw [Function.update_of_ne hne] at h
    exact .inr ⟨hne, h⟩

/-- The connection in a slot belongs to a handler that is registered for it. -/
structure Inv (s : FollowerSlots n) : Prop where
  undisturbed : Undisturbed s
  owned : ∀ id fd, s.followers id = some fd →
    ∃ x, s.handlers fd = some x ∧ x.id = id ∧ x.stage.holds = true

/-- A handler that does not hold a slot comes in the place of one that does not. -/
theorem Inv.setHandler (h : s.Inv) {fd : Nat} {x : SlotHandler n} (hx : x.stage.holds = false)
    (hold : ∀ y, s.handlers fd = some y → y.stage.holds = false) : (s.setHandler fd x).Inv := by
  constructor
  case undisturbed =>
    constructor
    case followers =>
      intro fd' y hy hholds
      rcases setHandler_cases hy with ⟨rfl, rfl⟩ | ⟨-, hy⟩
      · exact absurd (hx.symm.trans hholds) Bool.false_ne_true
      · exact h.undisturbed.followers fd' y hy hholds
    case forwarding =>
      intro fd' y hy hstage
      rcases setHandler_cases hy with ⟨rfl, rfl⟩ | ⟨-, hy⟩
      · rw [hstage] at hx
        cases hx
      · exact h.undisturbed.forwarding fd' y hy hstage
  case owned =>
    intro id fd' hfd
    obtain ⟨y, hy, hid, hholds⟩ := h.owned id fd' hfd
    have hne : fd' ≠ fd := by
      rintro rfl
      exact absurd ((hold y hy).symm.trans hholds) Bool.false_ne_true
    exact ⟨y, (Function.update_of_ne hne _ _).trans hy, hid, hholds⟩

theorem Inv.register (h : s.Inv) {fd : Nat} {x : SlotHandler n} (hx : s.handlers fd = some x)
    (hstage : x.stage = .start) {s₁ : FollowerSlots n} (hs : s.register x.id fd = some s₁) :
    (s₁.setHandler fd { x with stage := .registered }).Inv := by
  rw [FollowerSlots.register] at hs
  split at hs
  next => cases hs
  next hfree =>
    cases hs
    have hother : ∀ fd' y, s.handlers fd' = some y → y.stage.holds = true → y.id ≠ x.id := by
      intro fd' y hy hholds hid
      have hslot := h.undisturbed.followers fd' y hy hholds
      rw [hid, hfree] at hslot
      cases hslot
    constructor
    case undisturbed =>
      constructor
      case followers =>
        intro fd' y hy hholds
        rcases setHandler_cases hy with ⟨rfl, rfl⟩ | ⟨-, hy⟩
        · exact Function.update_self _ _ _
        · exact (Function.update_of_ne (hother fd' y hy hholds) _ _).trans
            (h.undisturbed.followers fd' y hy hholds)
      case forwarding =>
        intro fd' y hy hforwarding
        rcases setHandler_cases hy with ⟨rfl, rfl⟩ | ⟨-, hy⟩
        · cases hforwarding
        · exact h.undisturbed.forwarding fd' y hy hforwarding
    case owned =>
      intro id fd' hfd
      change Function.update s.followers x.id (some fd) id = some fd' at hfd
      rcases Decidable.em (id = x.id) with rfl | hne
      · rw [Function.update_self] at hfd
        obtain rfl := Option.some.inj hfd
        exact ⟨_, Function.update_self _ _ _, rfl, rfl⟩
      · rw [Function.update_of_ne hne] at hfd
        obtain ⟨y, hy, hid, hholds⟩ := h.owned id fd' hfd
        have hfd' : fd' ≠ fd := by
          rintro rfl
          obtain rfl := Option.some.inj (hy.symm.trans hx)
          exact hne hid.symm
        exact ⟨y, (Function.update_of_ne hfd' _ _).trans hy, hid, hholds⟩

theorem Inv.startForwarding (h : s.Inv) {fd : Nat} {x : SlotHandler n}
    (hx : s.handlers fd = some x) (hstage : x.stage = .registered) :
    ((s.startForwarding x.id fd).setHandler fd { x with stage := .forwarding }).Inv := by
  have hslot : s.followers x.id = some fd := h.undisturbed.followers fd x hx (by rw [hstage]; rfl)
  constructor
  case undisturbed =>
    constructor
    case followers =>
      intro fd' y hy hholds
      rcases setHandler_cases hy with ⟨rfl, rfl⟩ | ⟨-, hy⟩
      · exact hslot
      · exact h.undisturbed.followers fd' y hy hholds
    case forwarding =>
      intro fd' y hy hforwarding
      rcases setHandler_cases hy with ⟨rfl, rfl⟩ | ⟨hne, hy⟩
      · exact Function.update_self _ _ _
      · -- two handlers with one id would have one slot
        have hid : y.id ≠ x.id := by
          intro hid
          have hslot' := h.undisturbed.followers fd' y hy (by rw [hforwarding]; rfl)
          rw [hid] at hslot'
          exact hne (Option.some.inj (hslot'.symm.trans hslot))
        exact (Function.update_of_ne hid _ _).trans (h.undisturbed.forwarding fd' y hy hforwarding)
  case owned =>
    intro id fd' hfd
    obtain ⟨y, hy, hid, hholds⟩ := h.owned id fd' hfd
    rcases Decidable.em (fd' = fd) with rfl | hne
    · obtain rfl := Option.some.inj (hy.symm.trans hx)
      exact ⟨_, Function.update_self _ _ _, hid, rfl⟩
    · exact ⟨y, (Function.update_of_ne hne _ _).trans hy, hid, hholds⟩

/-- A handler that has the slot, or one where nobody has it, disturbs no other. -/
theorem Inv.finish (h : s.Inv) {fd : Nat} {x : SlotHandler n} (hx : s.handlers fd = some x)
    (halone : s.followers x.id = some fd ∨ s.followers x.id = none) :
    ((s.unregister x.id).setHandler fd { x with stage := .ended }).Inv := by
  have hother : ∀ fd' y, fd' ≠ fd → s.handlers fd' = some y → y.stage.holds = true →
      y.id ≠ x.id := by
    intro fd' y hne hy hholds hid
    have hslot := h.undisturbed.followers fd' y hy hholds
    rw [hid] at hslot
    rcases halone with hown | hnone
    · exact hne (Option.some.inj (hslot.symm.trans hown))
    · exact absurd (hnone.symm.trans hslot) (by simp)
  constructor
  case undisturbed =>
    constructor
    case followers =>
      intro fd' y hy hholds
      rcases setHandler_cases hy with ⟨rfl, rfl⟩ | ⟨hne, hy⟩
      · cases hholds
      · exact (Function.update_of_ne (hother fd' y hne hy hholds) _ _).trans
          (h.undisturbed.followers fd' y hy hholds)
    case forwarding =>
      intro fd' y hy hforwarding
      rcases setHandler_cases hy with ⟨rfl, rfl⟩ | ⟨hne, hy⟩
      · cases hforwarding
      · exact (Function.update_of_ne (hother fd' y hne hy (by rw [hforwarding]; rfl)) _ _).trans
          (h.undisturbed.forwarding fd' y hy hforwarding)
  case owned =>
    intro id fd' hfd
    change Function.update s.followers x.id none id = some fd' at hfd
    rcases Decidable.em (id = x.id) with rfl | hne
    · rw [Function.update_self] at hfd
      cases hfd
    · rw [Function.update_of_ne hne] at hfd
      obtain ⟨y, hy, hid, hholds⟩ := h.owned id fd' hfd
      have hfd' : fd' ≠ fd := by
        rintro rfl
        obtain rfl := Option.some.inj (hy.symm.trans hx)
        exact hne hid.symm
      exact ⟨y, (Function.update_of_ne hfd' _ _).trans hy, hid, hholds⟩

theorem Inv.step (h : s.Inv) (halone : EndsAlone s a) (hs : s.step a = some s') : s'.Inv := by
  cases a with
  | connect fd id =>
      rw [FollowerSlots.step] at hs
      split at hs
      next hended =>
        cases hs
        exact h.setHandler rfl fun y hy => by rw [hended y hy]; rfl
      next => cases hs
  | register fd =>
      rw [FollowerSlots.step] at hs
      split at hs
      next => cases hs
      next x hx =>
        split at hs
        next hstage =>
          split at hs
          next s₁ hregister =>
            cases hs
            exact h.register hx hstage hregister
          next =>
            cases hs
            refine h.setHandler rfl fun y hy => ?_
            obtain rfl := Option.some.inj (hy.symm.trans hx)
            rw [hstage]
            rfl
        next => cases hs
  | startForwarding fd =>
      rw [FollowerSlots.step] at hs
      split at hs
      next => cases hs
      next x hx =>
        split at hs
        next hstage =>
          cases hs
          exact h.startForwarding hx hstage
        next => cases hs
  | finish fd =>
      rw [FollowerSlots.step] at hs
      split at hs
      next => cases hs
      next x hx =>
        split at hs
        next =>
          cases hs
          exact h.finish hx (halone x hx)
        next => cases hs

/-- A handler that does not have the slot clears it for the one that has. -/
theorem keepsRegistered_iff {fd : Nat} {x : SlotHandler n} (hx : s.handlers fd = some x)
    (hstale : s.followers x.id ≠ some fd) (hs : s.step (.finish fd) = some s') :
    KeepsRegistered s s' x.id ↔ EndsAlone s (.finish fd) := by
  have halone : EndsAlone s (.finish fd) ↔ s.followers x.id = none := by
    simp [EndsAlone, hx, hstale]
  have hcleared : s'.followers x.id = none := by
    rw [FollowerSlots.step] at hs
    split at hs
    next => cases hs
    next y hy =>
      obtain rfl := Option.some.inj (hy.symm.trans hx)
      split at hs
      next =>
        cases hs
        exact Function.update_self _ _ _
      next => cases hs
  rw [halone]
  constructor
  · intro hkeeps
    cases hslot : s.followers x.id with
    | none => rfl
    | some fd' => exact absurd (hcleared.symm.trans (hkeeps fd' hslot).1) (by simp)
  · intro hnone fd' hslot
    exact absurd (hnone.symm.trans hslot) (by simp)

end FollowerSlots

/-- In the runs in which a handler without the slot ends only where nobody has it, every
registered handler keeps its entries; and the next handler that is rejected or stale
leaves the registered one alone exactly if nobody is registered. -/
theorem registered_undisturbed {s : FollowerSlots n} (h : (followerSlots n).Run EndsAlone s) :
    Undisturbed s ∧ ∀ fd x s', s.handlers fd = some x →
      (x.stage = .rejected ∨ s.followers x.id ≠ some fd) → s.step (.finish fd) = some s' →
      (KeepsRegistered s s' x.id ↔ EndsAlone s (.finish fd)) := by
  have hinv : s.Inv := by
    refine Transition.System.Run.invariant (I := FollowerSlots.Inv) ?_ ?_ h
    · rintro s rfl
      refine ⟨⟨fun fd x hx => ?_, fun fd x hx => ?_⟩, fun id fd hfd => ?_⟩
      · cases hx
      · cases hx
      · cases hfd
    · exact fun s a s' hs halone hstep => hs.step halone hstep
  refine ⟨hinv.undisturbed, fun fd x s' hx hstale hs => ?_⟩
  refine FollowerSlots.keepsRegistered_iff hx ?_ hs
  rcases hstale with hrejected | hstale
  · intro hslot
    obtain ⟨y, hy, -, hholds⟩ := hinv.owned x.id fd hslot
    obtain rfl := Option.some.inj (hy.symm.trans hx)
    rw [hrejected] at hholds
    cases hholds
  · exact hstale

/-- Two connections of a server: the second one is rejected. -/
def secondConnection (follower : Fin n) : List (SlotAct n) :=
  [.connect 4 follower, .register 4, .startForwarding 4, .connect 5 follower, .register 5]

/-- The same, and the first one ends before the second one does. -/
def firstEnds (follower : Fin n) : List (SlotAct n) := secondConnection follower ++ [.finish 4]

theorem registered_undisturbed_firstEnds :
    ∃ s, Transition.exec FollowerSlots.step {} (firstEnds (1 : Fin 3)) = some s ∧
      (s.handlers 5).map SlotHandler.stage = some .rejected ∧ Undisturbed s :=
  have hguard : Transition.Guarded FollowerSlots.step EndsAlone {} (firstEnds (1 : Fin 3)) := by
    decide
  ⟨_, rfl, rfl, (registered_undisturbed (Transition.exec_run (.start rfl) hguard rfl)).1⟩

/-- The second connection ends, and the slot of the first one is cleared. -/
theorem rejected_clears_slot :
    ¬ ∀ (s : FollowerSlots 3), (followerSlots 3).Reachable s → ∀ fd x s',
      s.handlers fd = some x → (x.stage = .rejected ∨ s.followers x.id ≠ some fd) →
      s.step (.finish fd) = some s' → KeepsRegistered s s' x.id := by
  intro h
  have hrun : Transition.exec FollowerSlots.step {} (secondConnection (1 : Fin 3)) = some _ := rfl
  obtain ⟨hslot, -⟩ := h _ (Transition.exec_reachable rfl hrun) 5 _ _ rfl (.inl rfl) rfl 4 rfl
  cases hslot

end Paxos
