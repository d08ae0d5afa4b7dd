import Mathlib.Logic.Function.Basic
import Zookeeper.Bytes
import Zookeeper.Transition

/-!
# Where the message queue sends

`MessageQueue` has a connection to every other node, accepted by `Listen` or dialled by
`Connect`, and an array `_node` with its descriptor.  Each connection has a coroutine that
records it there and reads from it (`Poll`), and `Send` and `Brocast` write to the
descriptor that is recorded, if it is positive (`ofs/common/message_queue`).

A descriptor is a number that the operating system gives out again once it is closed.
Connections are counted here, so that a number stands for one of them or for none.
`Poll` closes the descriptor and leaves it in the array, and the coroutine of an accepted
connection closes it once more.  So what is sent next goes to whatever has the number
then (`closed_connection_sent_to`).  `sends_routed` is for runs in which a connection ends
only once the next one of its node is recorded, and nothing has the number when it is
closed again.
-/

namespace Ofs.Mq

/-! ## Connections -/

/-- How far the coroutine of a descriptor is. -/
inductive Stage where
  /-- An accepted connection waits for its header. -/
  | identifying
  /-- In `Poll`. -/
  | polling (dialled : Bool) (id : Int32)
  /-- Behind the `hn_close` of `Poll`. -/
  | waiting (dialled : Bool) (id : Int32)
  /-- Not of the queue: the connection of a client, or a file. -/
  | foreign
deriving DecidableEq, Repr

/-- The coroutine has not closed its descriptor yet. -/
def Stage.Holding : Stage → Prop
  | .waiting _ _ => False
  | _ => True

/-- A descriptor, as its coroutine knows it. -/
structure Connection where
  fd : Int32
  stage : Stage
deriving DecidableEq, Repr

/-- `MessageHeader`. -/
structure MessageHeader where
  size : UInt32
  msg : UInt32
  op : UInt8
deriving DecidableEq, Repr

/-- `MOT_NODE`. -/
def motNode : UInt8 := 3

/-- A message queue, and the descriptors of its process. -/
structure MessageQueue where
  /-- `_node`.  Beyond the array it is memory of something else, and not modelled. -/
  node : Int32 → Int32 := fun _ => 0
  /-- `_connected`. -/
  connected : List (Bytes × Int32) := []
  /-- The ids that a coroutine of `Connect` dials. -/
  dials : List Int32 := []
  /-- The connections that have a coroutine, by their numbers. -/
  connections : Nat → Option Connection := fun _ => none
  /-- The connection that a descriptor stands for. -/
  table : Int32 → Option Nat := fun _ => none
  /-- The number of the next connection. -/
  next : Nat := 0

inductive QueueAct where
  /-- `hn_accept` returns a descriptor. -/
  | accept (fd : Int32)
  /-- The header of an accepted connection is read, or reading it throws. -/
  | identify (c : Nat) (header : Option MessageHeader)
  /-- `Connect`. -/
  | connect (id : Int32) (ip : Bytes) (port : Int32)
  /-- `hn_connect` returns, with a descriptor if it is positive. -/
  | dial (id fd : Int32)
  /-- `Poll` closes its descriptor. -/
  | pollEnd (c : Nat)
  /-- `Poll` returns. -/
  | pollReturn (c : Nat)
  /-- Another part of the process opens a descriptor. -/
  | openForeign (fd : Int32)
  /-- It closes it. -/
  | closeForeign (c : Nat)

namespace MessageQueue

/-! ## Sending -/

/-- The descriptors that `Send` writes to, with the id. -/
def send (q : MessageQueue) (id : Int32) : List (Int32 × Int32) :=
  if 0 < q.node id then [(id, q.node id)] else []

/-- `Brocast` to some ids. -/
def brocast (q : MessageQueue) (ids : List Int32) : List (Int32 × Int32) := ids.flatMap q.send

/-- `Brocast` to all ids but one. -/
def brocastExcept (q : MessageQueue) (size except : Int32) : List (Int32 × Int32) :=
  q.brocast (((List.range size.toNatClampNeg).map Int32.ofNat).filter (· ≠ except))

/-! ## Steps -/

/-- The operating system opens a descriptor. -/
def openFd (q : MessageQueue) (fd : Int32) (stage : Stage) : MessageQueue :=
  { q with
    connections := Function.update q.connections q.next (some ⟨fd, stage⟩)
    table := Function.update q.table fd (some q.next)
    next := q.next + 1 }

/-- `hn_close`, whatever the descriptor stands for. -/
def closeFd (q : MessageQueue) (fd : Int32) : MessageQueue :=
  { q with table := Function.update q.table fd none }

/-- The coroutine of a connection goes on. -/
def setStage (q : MessageQueue) (c : Nat) (fd : Int32) (stage : Stage) : MessageQueue :=
  { q with connections := Function.update q.connections c (some ⟨fd, stage⟩) }

/-- The coroutine of a connection ends. -/
def drop (q : MessageQueue) (c : Nat) : MessageQueue :=
  { q with connections := Function.update q.connections c none }

/-- `_node[id] = fd`. -/
def record (q : MessageQueue) (id fd : Int32) : MessageQueue :=
  { q with node := Function.update q.node id fd }

/-- A descriptor that the operating system can give out. -/
def Free (q : MessageQueue) (fd : Int32) : Prop := 0 < fd ∧ q.table fd = none

instance (q : MessageQueue) (fd : Int32) : Decidable (q.Free fd) :=
  inferInstanceAs (Decidable (_ ∧ _))

def step (q : MessageQueue) : QueueAct → Option MessageQueue
  | .accept fd => if q.Free fd then some (q.openFd fd .identifying) else none
  | .identify c header =>
      match q.connections c with
      | some ⟨fd, .identifying⟩ =>
          match header with
          | none => some ((q.closeFd fd).drop c)
          | some header =>
              -- a connection of another kind is left open
              if header.op ≠ motNode then some (q.drop c)
              else
                let id := header.msg.toInt32
                some ((q.record id fd).setStage c fd (.polling false id))
      | _ => none
  | .connect id ip port =>
      if (ip, port) ∈ q.connected then some q
      else some { q with connected := (ip, port) :: q.connected, dials := id :: q.dials }
  | .dial id fd =>
      if id ∉ q.dials then none
      else if fd ≤ 0 then some q
      else if q.Free fd then
        some { (q.openFd fd (.polling true id)).record id fd with dials := q.dials.erase id }
      else none
  | .pollEnd c =>
      match q.connections c with
      | some ⟨fd, .polling dialled id⟩ =>
          some ((q.closeFd fd).setStage c fd (.waiting dialled id))
      | _ => none
  | .pollReturn c =>
      match q.connections c with
      | some ⟨_, .waiting true id⟩ => some { q.drop c with dials := id :: q.dials }
      | some ⟨fd, .waiting false _⟩ => some ((q.closeFd fd).drop c)
      | _ => none
  | .openForeign fd => if q.Free fd then some (q.openFd fd .foreign) else none
  | .closeForeign c =>
      match q.connections c with
      | some ⟨fd, .foreign⟩ => some ((q.closeFd fd).drop c)
      | _ => none

end MessageQueue

/-- The runs of a message queue. -/
def queueSystem : Transition.System MessageQueue QueueAct :=
  Transition.ofStep (· = {}) MessageQueue.step

/-! ## What is to hold -/

/-- The ids of an array of a size. -/
def InArray (size id : Int32) : Prop := 0 ≤ id ∧ id < size

instance (size id : Int32) : Decidable (InArray size id) := inferInstanceAs (Decidable (_ ∧ _))

namespace MessageQueue

/-- The descriptor is the open connection of a node. -/
def ConnectionOf (q : MessageQueue) (id fd : Int32) : Prop :=
  ∃ c dialled, q.connections c = some ⟨fd, .polling dialled id⟩ ∧ q.table fd = some c

/-- Whatever is sent next reaches the node that it is for. -/
structure Routed (size : Int32) (q : MessageQueue) : Prop where
  send : ∀ id, InArray size id → ∀ w ∈ q.send id, q.ConnectionOf w.1 w.2
  brocast : ∀ ids, (∀ id ∈ ids, InArray size id) → ∀ w ∈ q.brocast ids, q.ConnectionOf w.1 w.2
  brocastExcept : ∀ except, ∀ w ∈ q.brocastExcept size except, q.ConnectionOf w.1 w.2

/-- A connection whose `Poll` ends is not recorded any more, and nothing has the number of
one that is closed again. -/
def Ends (q : MessageQueue) : Connection → Prop
  | ⟨fd, .polling _ id⟩ => q.node id ≠ fd
  | ⟨fd, .waiting false _⟩ => q.table fd = none
  | _ => True

instance (q : MessageQueue) : ∀ conn, Decidable (q.Ends conn)
  | ⟨_, .polling _ _⟩ => inferInstanceAs (Decidable (_ ≠ _))
  | ⟨_, .waiting false _⟩ => inferInstanceAs (Decidable (_ = _))
  | ⟨_, .waiting true _⟩ => inferInstanceAs (Decidable True)
  | ⟨_, .identifying⟩ => inferInstanceAs (Decidable True)
  | ⟨_, .foreign⟩ => inferInstanceAs (Decidable True)

/-- Ids are in the array, and connections end as they should. -/
def Orderly (size : Int32) (q : MessageQueue) : QueueAct → Prop
  | .identify _ header => ∀ h ∈ header, h.op = motNode → InArray size h.msg.toInt32
  | .connect id _ _ => InArray size id
  | .pollEnd c => ∀ conn ∈ q.connections c, q.Ends conn
  | .pollReturn c => ∀ conn ∈ q.connections c, q.Ends conn
  | _ => True

instance (size : Int32) (q : MessageQueue) : ∀ a, Decidable (q.Orderly size a)
  | .accept _ => inferInstanceAs (Decidable True)
  | .identify _ header => inferInstanceAs (Decidable (∀ h ∈ header, _ → _))
  | .connect _ _ _ => inferInstanceAs (Decidable (InArray _ _))
  | .dial _ _ => inferInstanceAs (Decidable True)
  | .pollEnd c => inferInstanceAs (Decidable (∀ conn ∈ q.connections c, _))
  | .pollReturn c => inferInstanceAs (Decidable (∀ conn ∈ q.connections c, _))
  | .openForeign _ => inferInstanceAs (Decidable True)
  | .closeForeign _ => inferInstanceAs (Decidable True)

/-! ## What the steps keep -/

/-- A descriptor stands for the connection of the coroutine that holds it, and what is
recorded is the connection of the node. -/
structure Inv (q : MessageQueue) : Prop where
  own : ∀ c conn, q.connections c = some conn → conn.stage.Holding → q.table conn.fd = some c
  known : ∀ c conn, q.connections c = some conn → c < q.next
  routed : ∀ id, 0 < q.node id → q.ConnectionOf id (q.node id)

variable {q : MessageQueue} {c : Nat} {fd id : Int32} {stage : Stage}

theorem Inv.start : Inv {} where
  own _ _ h := by cases h
  known _ _ h := by cases h
  routed _ h := absurd h Int32.lt_irrefl

/-- Coroutines that dial have no connection yet. -/
theorem Inv.dialing (h : q.Inv) (connected : List (Bytes × Int32)) (dials : List Int32) :
    Inv { q with connected := connected, dials := dials } where
  own := h.own
  known := h.known
  routed := h.routed

/-- A number that is free stands for a new connection. -/
theorem Inv.openFd (h : q.Inv) (hfree : q.Free fd) (stage : Stage) : (q.openFd fd stage).Inv := by
  have hnew : ∀ c conn, q.connections c = some conn → c ≠ q.next :=
    fun c conn hc => (h.known c conn hc).ne
  have hother : ∀ fd' c, q.table fd' = some c → fd' ≠ fd := by
    rintro fd' c htable rfl
    rw [hfree.2] at htable
    cases htable
  constructor
  case own =>
    intro c conn hc hholding
    rcases eq_or_ne c q.next with rfl | hne
    · simp only [MessageQueue.openFd, Function.update_self, Option.some.injEq] at hc ⊢
      rw [← hc, Function.update_self]
    · simp only [MessageQueue.openFd, Function.update_of_ne hne] at hc ⊢
      have htable := h.own c conn hc hholding
      rw [Function.update_of_ne (hother _ _ htable), htable]
  case known =>
    intro c conn hc
    rcases eq_or_ne c q.next with rfl | hne
    · exact Nat.lt_succ_self _
    · simp only [MessageQueue.openFd, Function.update_of_ne hne] at hc
      exact Nat.lt_succ_of_lt (h.known c conn hc)
  case routed =>
    intro id hpos
    obtain ⟨c, dialled, hc, htable⟩ := h.routed id hpos
    refine ⟨c, dialled, ?_, ?_⟩
    · simp only [MessageQueue.openFd, Function.update_of_ne (hnew _ _ hc)]
      exact hc
    · simp only [MessageQueue.openFd]
      rw [Function.update_of_ne (hother _ _ htable)]
      exact htable

/-- A connection that is in `Poll` is recorded. -/
theorem Inv.record (h : q.Inv) {dialled : Bool}
    (hc : q.connections c = some ⟨fd, .polling dialled id⟩) : (q.record id fd).Inv where
  own := h.own
  known := h.known
  routed id' hpos := by
    rcases eq_or_ne id' id with rfl | hne
    · refine ⟨c, dialled, ?_, ?_⟩
      · simp only [MessageQueue.record, Function.update_self]
        exact hc
      · simp only [MessageQueue.record, Function.update_self]
        exact h.own c _ hc trivial
    · simp only [MessageQueue.record, Function.update_of_ne hne] at hpos ⊢
      exact h.routed id' hpos

/-- The coroutine of a connection that is not recorded goes on, or ends. -/
theorem Inv.update (h : q.Inv) {conn : Connection} {left : Option Connection}
    (hc : q.connections c = some conn)
    (hunrecorded : ∀ dialled id, conn.stage = .polling dialled id → q.node id ≠ conn.fd)
    (hleft : ∀ conn ∈ left, conn.stage.Holding → q.table conn.fd = some c) :
    Inv { q with connections := Function.update q.connections c left } where
  own c' conn' hc' hholding := by
    rcases eq_or_ne c' c with rfl | hne
    · simp only [Function.update_self] at hc'
      exact hleft conn' hc' hholding
    · simp only [Function.update_of_ne hne] at hc'
      exact h.own c' conn' hc' hholding
  known c' conn' hc' := by
    rcases eq_or_ne c' c with rfl | hne
    · exact h.known c' conn hc
    · simp only [Function.update_of_ne hne] at hc'
      exact h.known c' conn' hc'
  routed id' hpos := by
    obtain ⟨c', dialled, hc', htable⟩ := h.routed id' hpos
    have hne : c' ≠ c := by
      rintro rfl
      rw [hc, Option.some.injEq] at hc'
      subst hc'
      exact hunrecorded dialled id' rfl rfl
    refine ⟨c', dialled, ?_, htable⟩
    simp only [Function.update_of_ne hne]
    exact hc'

/-- A connection that is accepted goes on to `Poll`. -/
theorem Inv.identified (h : q.Inv) (hc : q.connections c = some ⟨fd, .identifying⟩)
    (stage : Stage) : (q.setStage c fd stage).Inv := by
  refine h.update hc (by rintro _ _ ⟨⟩) ?_
  rintro _ ⟨⟩ -
  exact h.own c ⟨fd, .identifying⟩ hc trivial

/-- A coroutine gives up its connection. -/
theorem Inv.leave (h : q.Inv) {conn : Connection} {left : Option Connection}
    (hc : q.connections c = some conn)
    (hunrecorded : ∀ dialled id, conn.stage = .polling dialled id → q.node id ≠ conn.fd)
    (hleft : ∀ conn ∈ left, ¬ conn.stage.Holding) :
    Inv { q with connections := Function.update q.connections c left } :=
  h.update hc hunrecorded fun conn hconn hholding => absurd hholding (hleft conn hconn)

/-- A number that no coroutine holds is closed. -/
theorem Inv.closeFd (h : q.Inv)
    (hfree : ∀ c conn, q.connections c = some conn → conn.stage.Holding → conn.fd ≠ fd) :
    (q.closeFd fd).Inv where
  own c conn hc hholding := by
    simp only [MessageQueue.closeFd]
    rw [Function.update_of_ne (hfree c conn hc hholding)]
    exact h.own c conn hc hholding
  known := h.known
  routed id hpos := by
    obtain ⟨c, dialled, hc, htable⟩ := h.routed id hpos
    refine ⟨c, dialled, hc, ?_⟩
    simp only [MessageQueue.closeFd]
    rw [Function.update_of_ne]
    · exact htable
    · exact hfree c _ hc trivial

/-- A coroutine closes the descriptor that it holds, and gives up its connection. -/
theorem Inv.shut (h : q.Inv) {conn : Connection} {left : Option Connection}
    (hc : q.connections c = some conn) (hholding : conn.stage.Holding)
    (hunrecorded : ∀ dialled id, conn.stage = .polling dialled id → q.node id ≠ conn.fd)
    (hleft : ∀ conn ∈ left, ¬ conn.stage.Holding) :
    (MessageQueue.closeFd { q with connections := Function.update q.connections c left }
      conn.fd).Inv := by
  refine (h.leave hc hunrecorded hleft).closeFd ?_
  intro c' conn' hc' hholding' hsame
  rcases eq_or_ne c' c with rfl | hne
  · simp only [Function.update_self] at hc'
    exact hleft conn' hc' hholding'
  · simp only [Function.update_of_ne hne] at hc'
    have htable := h.own c' conn' hc' hholding'
    rw [hsame, h.own c conn hc hholding, Option.some.injEq] at htable
    exact hne htable.symm

theorem Inv.identify (h : q.Inv) {header : Option MessageHeader} {q' : MessageQueue}
    (hstep : q.step (.identify c header) = some q') : q'.Inv := by
  simp only [MessageQueue.step] at hstep
  split at hstep
  next fd hc =>
    cases header with
    | none =>
        cases hstep
        exact h.shut hc trivial (by rintro _ _ ⟨⟩) (by rintro _ ⟨⟩)
    | some header =>
        simp only at hstep
        split at hstep
        next =>
          cases hstep
          exact h.leave hc (by rintro _ _ ⟨⟩) (by rintro _ ⟨⟩)
        next =>
          cases hstep
          exact (h.identified hc (.polling false header.msg.toInt32)).record
            (Function.update_self c _ q.connections)
  next => cases hstep

theorem Inv.dial (h : q.Inv) {q' : MessageQueue} (hstep : q.step (.dial id fd) = some q') :
    q'.Inv := by
  simp only [MessageQueue.step, Option.ite_none_left_eq_some] at hstep
  obtain ⟨-, hstep⟩ := hstep
  split at hstep
  next =>
    cases hstep
    exact h
  next =>
    rw [Option.ite_none_right_eq_some] at hstep
    obtain ⟨hfree, hstep⟩ := hstep
    cases hstep
    exact ((h.openFd hfree (.polling true id)).record
      (Function.update_self q.next _ q.connections)).dialing q.connected (q.dials.erase id)

theorem Inv.pollEnd (h : q.Inv) (hends : ∀ conn ∈ q.connections c, q.Ends conn)
    {q' : MessageQueue} (hstep : q.step (.pollEnd c) = some q') : q'.Inv := by
  simp only [MessageQueue.step] at hstep
  split at hstep
  next fd dialled id hc =>
    cases hstep
    refine h.shut hc trivial ?_ ?_
    · rintro _ _ ⟨⟩
      exact hends _ hc
    · rintro _ ⟨⟩
      exact not_false
  next => cases hstep

theorem Inv.pollReturn (h : q.Inv) (hends : ∀ conn ∈ q.connections c, q.Ends conn)
    {q' : MessageQueue} (hstep : q.step (.pollReturn c) = some q') : q'.Inv := by
  simp only [MessageQueue.step] at hstep
  split at hstep
  next id hc =>
    cases hstep
    exact (h.leave hc (by rintro _ _ ⟨⟩) (by rintro _ ⟨⟩)).dialing q.connected (id :: q.dials)
  next fd id hc =>
    cases hstep
    have hclosed : q.table fd = none := hends _ hc
    have hfree : ∀ c' conn, q.connections c' = some conn → conn.stage.Holding →
        conn.fd ≠ fd := by
      rintro c' conn hc' hholding rfl
      rw [h.own c' conn hc' hholding] at hclosed
      cases hclosed
    exact (h.closeFd hfree).leave hc (by rintro _ _ ⟨⟩) (by rintro _ ⟨⟩)
  next => cases hstep

/-- An orderly step keeps what is recorded open. -/
theorem Inv.step (h : q.Inv) {size : Int32} {a : QueueAct} (horderly : q.Orderly size a)
    {q' : MessageQueue} (hstep : q.step a = some q') : q'.Inv := by
  cases a with
  | accept fd =>
      simp only [MessageQueue.step, Option.ite_none_right_eq_some, Option.some.injEq] at hstep
      obtain ⟨hfree, rfl⟩ := hstep
      exact h.openFd hfree .identifying
  | identify c header => exact h.identify hstep
  | connect id ip port =>
      simp only [MessageQueue.step] at hstep
      split at hstep
      next =>
        cases hstep
        exact h
      next =>
        cases hstep
        exact h.dialing _ _
  | dial id fd => exact h.dial hstep
  | pollEnd c => exact h.pollEnd horderly hstep
  | pollReturn c => exact h.pollReturn horderly hstep
  | openForeign fd =>
      simp only [MessageQueue.step, Option.ite_none_right_eq_some, Option.some.injEq] at hstep
      obtain ⟨hfree, rfl⟩ := hstep
      exact h.openFd hfree .foreign
  | closeForeign c =>
      simp only [MessageQueue.step] at hstep
      split at hstep
      next fd hc =>
        cases hstep
        exact h.shut hc trivial (by rintro _ _ ⟨⟩) (by rintro _ ⟨⟩)
      next => cases hstep

/-- What is sent goes to a descriptor that is recorded. -/
theorem mem_send {w : Int32 × Int32} (hw : w ∈ q.send id) :
    w = (id, q.node id) ∧ 0 < q.node id := by
  rw [send] at hw
  split at hw
  next hpos => exact ⟨List.mem_singleton.1 hw, hpos⟩
  next => cases hw

theorem Inv.sent (h : q.Inv) {w : Int32 × Int32} (hw : w ∈ q.send id) :
    q.ConnectionOf w.1 w.2 := by
  obtain ⟨rfl, hpos⟩ := mem_send hw
  exact h.routed id hpos

theorem Inv.brocast (h : q.Inv) {ids : List Int32} {w : Int32 × Int32} (hw : w ∈ q.brocast ids) :
    q.ConnectionOf w.1 w.2 := by
  obtain ⟨id, -, hsend⟩ := List.mem_flatMap.1 hw
  exact h.sent hsend

/-- A recorded connection whose `Poll` ends stays recorded, and is not open. -/
theorem not_routed_of_pollEnd {size : Int32} (hid : InArray size id) {dialled : Bool}
    (hc : q.connections c = some ⟨fd, .polling dialled id⟩) (hrecorded : q.node id = fd)
    (hpos : 0 < fd) {q' : MessageQueue} (hstep : q.step (.pollEnd c) = some q') :
    ¬ q'.Routed size := by
  simp only [MessageQueue.step, hc, Option.some.injEq] at hstep
  subst hstep
  intro h
  have hsent : (id, fd) ∈ ((q.closeFd fd).setStage c fd (.waiting dialled id)).send id := by
    rw [send, if_pos] <;> simp [setStage, MessageQueue.closeFd, hrecorded, hpos]
  obtain ⟨c', _, -, htable⟩ := h.send id hid _ hsent
  simp [setStage, MessageQueue.closeFd] at htable

end MessageQueue

/-- In a run whose connections end in order, whatever is sent reaches the node that it is
for. -/
theorem sends_routed {size : Int32} {q : MessageQueue}
    (hr : queueSystem.Run (MessageQueue.Orderly size) q) : q.Routed size := by
  have hinv : q.Inv := by
    refine hr.invariant (I := MessageQueue.Inv) ?_ ?_
    · rintro _ rfl
      exact .start
    · intro _ _ _ hinv horderly hstep
      exact hinv.step horderly hstep
  exact ⟨fun _ _ _ => hinv.sent, fun _ _ _ => hinv.brocast, fun _ _ => hinv.brocast⟩

/-- A node connects again before its first connection ends. -/
def connectsAgain : List QueueAct :=
  [.accept 5, .identify 0 (some ⟨0, 1, motNode⟩), .accept 6, .identify 1 (some ⟨0, 1, motNode⟩),
    .pollEnd 0, .pollReturn 0]

theorem sends_routed_again :
    ∃ q, Transition.exec MessageQueue.step {} connectsAgain = some q ∧ q.Routed 3 := by
  have hexec : (Transition.exec MessageQueue.step {} connectsAgain).isSome := rfl
  obtain ⟨q, hq⟩ := Option.isSome_iff_exists.1 hexec
  exact ⟨q, hq, sends_routed (Transition.exec_run (.start rfl) (by decide) hq)⟩

/-- The connection of a node ends, and that of a client gets its number: what is sent to
the node goes to the client. -/
theorem closed_connection_sent_to :
    ¬ ∀ size q, queueSystem.Reachable q → q.Routed size := by
  intro h
  have hexec : ∃ q, Transition.exec MessageQueue.step {}
      [.accept 5, .identify 0 (some ⟨0, 1, motNode⟩), .pollEnd 0, .pollReturn 0, .openForeign 5] =
        some q ∧ (1, 5) ∈ q.send 1 ∧ q.table 5 = some 1 ∧
        q.connections 1 = some ⟨5, .foreign⟩ := ⟨_, rfl, by decide, rfl, rfl⟩
  obtain ⟨q, hq, hsent, htable, hclient⟩ := hexec
  obtain ⟨c, dialled, hc, howner⟩ :=
    (h 3 q (Transition.exec_reachable rfl hq)).send 1 (by decide) _ hsent
  rw [htable] at howner
  cases howner
  rw [hclient] at hc
  cases hc

end Ofs.Mq
