import Zookeeper.Paxos.Decision

/-!
# The confirm window

A vote that passes the quorum test opens a window of `WAIT_TIME`.  The loop there polls
the channel, and a vote that beats the proposal is to go to the main loop by the local
`queue`.  What is pushed is not that vote but the variable `n`, which was never
assigned, and `better_vote_lost` is a window from which the server goes on with a vote
that nobody has sent.

A window is a list of `Poll`s, and `endWindow` is what `LookForLeader` does with them.
`confirm_window` says that the window does what it is for exactly if no vote that is
popped beats the proposal, or `n` happens to hold that very vote.
-/

namespace Paxos

/-- One iteration of the loop in the confirm window. -/
structure Poll where
  /-- The votes that came since the last one. -/
  arrived : List Vote := []
  /-- What `n` holds. -/
  n : Vote

namespace Elector

/-- The votes come, and `TryPop` takes the first one. -/
def poll (x : Elector) (p : Poll) : Elector :=
  let x := { x with recvCh := x.recvCh ++ p.arrived }
  (x.confirmPop p.n).getD x

/-- The loop of the confirm window, which a better vote breaks off. -/
def window : Elector → List Poll → Elector
  | x, [] => x
  | x, p :: polls =>
      let y := x.poll p
      if y.phase = .confirming then y.window polls else y

/-- The confirm window and the lines behind it. -/
def endWindow (x : Elector) (polls : List Poll) : Turn :=
  let y := x.window polls
  if y.phase = .confirming then y.expire else { elector := y }

end Elector

/-- The votes that polls pop from a channel, each with what `n` holds then. -/
def pops : List Vote → List Poll → List (Vote × Vote)
  | _, [] => []
  | recvCh, p :: polls =>
      match recvCh ++ p.arrived with
      | [] => pops [] polls
      | vote :: recvCh => (vote, p.n) :: pops recvCh polls

namespace Elector

variable {x y : Elector} {p : Poll} {polls : List Poll}

/-- The vote that breaks the window off, with what `n` holds then. -/
def betterPop (x : Elector) (polls : List Poll) : Option (Vote × Vote) :=
  (pops x.recvCh polls).find? fun q => x.proposal.lt q.1

/-- What the window is for: a better vote is the next one that the main loop takes up,
and where none comes the proposal is returned. -/
def LosesNone (x : Elector) (polls : List Poll) : Prop :=
  match x.betterPop polls with
  | some (vote, _) =>
      (x.endWindow polls).returned = none ∧
        (x.endWindow polls).elector.take.map Prod.fst = some vote
  | none => (x.endWindow polls).returned = some x.proposal

/-! ## One poll -/

theorem poll_nil (h : x.recvCh ++ p.arrived = []) :
    x.poll p = { x with recvCh := [] } := by
  simp only [poll, confirmPop, h, Option.getD_none]

theorem poll_cons {vote : Vote} {recvCh : List Vote} (h : x.recvCh ++ p.arrived = vote :: recvCh) :
    x.poll p =
      if x.proposal.lt vote then
        { x with recvCh := recvCh, queue := x.queue ++ [p.n], phase := .searching }
      else { x with recvCh := recvCh } := by
  simp only [poll, confirmPop, h, Option.getD_some]

/-! ## The window -/

/-- The window ends with `n` in the queue, if a better vote was popped. -/
theorem window_eq (hphase : x.phase = .confirming) (hqueue : x.queue = []) (polls : List Poll) :
    (∃ q, x.betterPop polls = some q ∧ (x.window polls).phase = .searching ∧
      (x.window polls).queue = [q.2]) ∨
    (x.betterPop polls = none ∧ (x.window polls).phase = .confirming ∧
      (x.window polls).queue = [] ∧ (x.window polls).proposal = x.proposal) := by
  induction polls generalizing x with
  | nil => exact .inr ⟨rfl, hphase, hqueue, rfl⟩
  | cons p polls ih =>
      cases hch : x.recvCh ++ p.arrived with
      | nil =>
          have hpoll := poll_nil hch
          have hrest := ih (x := { x with recvCh := [] }) hphase hqueue
          simp only [window, hpoll, hphase, if_true, betterPop, pops, hch] at hrest ⊢
          exact hrest
      | cons vote recvCh =>
          have hpoll := poll_cons hch
          cases hbetter : x.proposal.lt vote with
          | true =>
              rw [hbetter, if_pos rfl, hqueue] at hpoll
              refine .inl ⟨(vote, p.n), ?_, ?_, ?_⟩
              · simp only [betterPop, pops, hch, List.find?_cons, hbetter]
              · simp only [window, hpoll]
                rfl
              · simp only [window, hpoll]
                rfl
          | false =>
              rw [hbetter, if_neg Bool.false_ne_true] at hpoll
              have hrest := ih (x := { x with recvCh := recvCh }) hphase hqueue
              simp only [window, hpoll, hphase, if_true, betterPop, pops, hch, List.find?_cons,
                hbetter] at hrest ⊢
              exact hrest

/-- A window loses nothing exactly if the vote that breaks it off is what `n` holds. -/
theorem losesNone_iff (hphase : x.phase = .confirming) (hqueue : x.queue = [])
    (polls : List Poll) : x.LosesNone polls ↔ ∀ q ∈ x.betterPop polls, q.2 = q.1 := by
  rcases window_eq hphase hqueue polls with ⟨q, hq, hwindow, hn⟩ | ⟨hnone, hwindow, hempty, hsame⟩
  · have hno : (x.window polls).phase ≠ .confirming := by
      rw [hwindow]
      decide
    have hnext : (x.window polls).take.map Prod.fst = some q.2 := by
      simp only [take, hn, Option.map_some]
    simp only [LosesNone, hq, endWindow, if_neg hno, hnext, true_and, Option.some.injEq,
      Option.mem_def, forall_eq']
  · simp only [LosesNone, hnone, endWindow, if_pos hwindow, expire, if_pos hempty, hsame,
      Option.mem_def, reduceCtorEq, false_implies, implies_true]

/-! ## The queue of a server -/

/-- The queue holds a vote between a window and the next turn only. -/
structure Queued (x : Elector) : Prop where
  short : x.queue.length ≤ 1
  empty : x.phase = .confirming → x.queue = []

theorem take_queue {vote : Vote} (hx : x.Queued) (h : x.take = some (vote, y)) : y.queue = [] := by
  have hshort := hx.short
  simp only [take] at h
  split at h
  next queue hqueue =>
    cases h
    rw [hqueue, List.length_cons] at hshort
    have hnil : queue.length = 0 := by omega
    exact List.length_eq_zero_iff.mp hnil
  next hqueue _ =>
    cases h
    exact hqueue
  next => cases h

theorem hearSettled_queue (x : Elector) (count : Nat) (vote : Vote) :
    (x.hearSettled count vote).1.queue = x.queue := by
  rw [hearSettled_eq]
  split
  next => rfl
  next =>
    split
    next => rfl
    next => rfl

theorem hear_queue (x : Elector) (count : Nat) (vote : Vote) :
    (x.hear count vote).elector.queue = x.queue := by
  have hturn := hear_cases x count vote
  have hsettled := hearSettled_queue x count vote
  generalize x.hear count vote = t at hturn ⊢
  cases hturn with
  | ignored => rfl
  | window => exact (heard_kept x vote).1
  | looking => exact (heard_kept x vote).1
  | settled _ h =>
      rw [h] at hsettled
      exact hsettled
  | unsettled _ h =>
      rw [h] at hsettled
      exact hsettled

theorem Queued.of_nil (h : x.queue = []) : x.Queued where
  short := by simp [h]
  empty _ := h

theorem Queued.confirmPop {n : Vote} (hx : x.Queued) (hphase : x.phase = .confirming)
    (h : x.confirmPop n = some y) : y.Queued := by
  have hqueue := hx.empty hphase
  simp only [Elector.confirmPop] at h
  split at h
  next => cases h
  next =>
    cases h
    split
    next => exact ⟨by simp [hqueue], fun h => by cases h⟩
    next => exact .of_nil hqueue

end Elector

namespace Listener

variable {s s' : Listener} {count : Nat}

theorem apply_elector (s : Listener) (t : Turn) (table : Votes) (epoch : Vote → Int32) :
    (s.apply t table epoch).elector = t.elector := rfl

theorem hear_elector (s : Listener) (count : Nat) (vote : Vote) (x : Elector) :
    (s.hear count vote x).elector = (x.hear count vote).elector := by
  simp only [Listener.hear]
  split
  next => rfl
  next => rfl

theorem queued_step {a : ListenerAct} (h : s.elector.Queued) (hs : s.step count a = some s') :
    s'.elector.Queued := by
  cases a with
  | start zxId =>
      simp only [Listener.step] at hs
      split at hs
      next => cases hs; exact .of_nil rfl
      next => cases hs; exact .of_nil rfl
      next => cases hs
  | arrive vote =>
      cases hs
      exact ⟨h.short, h.empty⟩
  | hear =>
      simp only [Listener.step] at hs
      split at hs
      next =>
        obtain ⟨⟨vote, x⟩, htake, rfl⟩ := Option.map_eq_some_iff.mp hs
        refine .of_nil ?_
        rw [hear_elector, Elector.hear_queue]
        exact Elector.take_queue h htake
      next => cases hs
  | confirmPop n =>
      simp only [Listener.step] at hs
      split at hs
      next hphase =>
        obtain ⟨x, hpop, rfl⟩ := Option.map_eq_some_iff.mp hs
        exact h.confirmPop hphase hpop
      next => cases hs
  | expire =>
      simp only [Listener.step] at hs
      split at hs
      next hphase =>
        cases hs
        have hqueue := h.empty hphase
        refine .of_nil ?_
        rw [apply_elector, Elector.expire, if_pos hqueue]
        exact hqueue
      next => cases hs
  | echo =>
      simp only [Listener.step] at hs
      split at hs
      next => cases hs; exact ⟨h.short, h.empty⟩
      next => cases hs

theorem reachable_queued (h : (listener count).Reachable s) : s.elector.Queued := by
  refine Transition.System.Reachable.invariant (I := fun s => s.elector.Queued) ?_
    (fun _ _ _ hi hs => queued_step hi hs) h
  rintro s ⟨id, logicCount, rfl⟩
  exact .of_nil rfl

/-- The steps of one iteration. -/
theorem reachable_poll (h : (listener count).Reachable s) (hphase : s.elector.phase = .confirming)
    (p : Poll) : (listener count).Reachable { s with elector := s.elector.poll p } := by
  obtain ⟨arrived, n⟩ := p
  induction arrived generalizing s with
  | nil =>
      rw [Elector.poll, List.append_nil]
      cases hpop : s.elector.confirmPop n with
      | none => exact h
      | some x =>
          refine .next (a := .confirmPop n) h trivial ?_
          show Listener.step count s (.confirmPop n) = _
          simp only [Listener.step, hphase, if_true, hpop, Option.map_some, Option.getD_some]
  | cons vote arrived ih =>
      have hnext : (listener count).Reachable
          { s with elector := { s.elector with recvCh := s.elector.recvCh ++ [vote] } } :=
        .next (a := .arrive vote) h trivial rfl
      have hpoll := ih hnext hphase
      simp only [Elector.poll, List.append_assoc, List.singleton_append] at hpoll ⊢
      exact hpoll

theorem reachable_window (h : (listener count).Reachable s)
    (hphase : s.elector.phase = .confirming) (polls : List Poll) :
    (listener count).Reachable { s with elector := s.elector.window polls } := by
  induction polls generalizing s with
  | nil => exact h
  | cons p polls ih =>
      have hpoll := reachable_poll h hphase p
      simp only [Elector.window]
      split
      next hagain => exact ih hpoll hagain
      next => exact hpoll

/-- A window is made of steps of the server. -/
theorem reachable_endWindow (h : (listener count).Reachable s)
    (hphase : s.elector.phase = .confirming) (polls : List Poll) :
    ∃ decisions, (listener count).Reachable
      { elector := (s.elector.endWindow polls).elector, decisions := decisions } := by
  have hwindow := reachable_window h hphase polls
  rw [Elector.endWindow]
  split
  next hagain =>
    let t := (s.elector.window polls).expire
    let s' : Listener := { s with elector := s.elector.window polls }
    have hexpire : s'.step count .expire = some (s'.apply t t.elector.votes Vote.electionEpoch) :=
      if_pos hagain
    exact ⟨_, .next (a := .expire) hwindow trivial hexpire⟩
  next => exact ⟨_, hwindow⟩

end Listener

/-- A confirm window of any run goes on with the better vote that broke it off, and
decides if there is none, exactly if no better vote is popped or `n` holds that vote. -/
theorem confirm_window {count : Nat} {s : Listener} (h : (listener count).Reachable s)
    (hphase : s.elector.phase = .confirming) (polls : List Poll) :
    s.elector.LosesNone polls ↔ ∀ q ∈ s.elector.betterPop polls, q.2 = q.1 :=
  Elector.losesNone_iff hphase ((Listener.reachable_queued h).empty hphase) polls

/-- Server 1, before its first election. -/
def firstListener : Listener := { elector := { id := 1 } }

theorem firstListener_fresh : firstListener.Fresh := ⟨1, 0, rfl⟩

/-- Server 2 votes for itself, and server 1 opens a window for it. -/
def secondVotes : List ListenerAct := [.start 0, .arrive ⟨2, .looking, 1, 2, 0⟩, .hear]

/-- A vote is popped in the window, while `n` is all zeros. -/
def pollOne (vote : Vote) : List Poll := [{ arrived := [vote], n := ⟨0, .looking, 0, 0, 0⟩ }]

theorem firstListener_confirming :
    ∃ s, Transition.exec (Listener.step 3) firstListener secondVotes = some s ∧
      s.elector.phase = .confirming ∧ s.elector.recvCh = [] ∧
      s.elector.proposal = ⟨1, .looking, 1, 2, 0⟩ := by
  have hrun : (Transition.exec (Listener.step 3) firstListener secondVotes).map
      (fun s => (s.elector.phase, s.elector.recvCh, s.elector.proposal)) =
        some (.confirming, [], ⟨1, .looking, 1, 2, 0⟩) := by
    decide +kernel
  obtain ⟨s, hs, heq⟩ := Option.map_eq_some_iff.mp hrun
  simp only [Prod.mk.injEq] at heq
  exact ⟨s, hs, heq⟩

/-- Server 3's vote is popped in the window, and the next turn hears all zeros. -/
theorem better_vote_lost :
    ¬ ∀ (count : Nat) (s : Listener), count % 2 = 1 → (listener count).Reachable s →
      s.elector.phase = .confirming → ∀ polls, s.elector.LosesNone polls := by
  intro h
  obtain ⟨s, hs, hphase, hch, hproposal⟩ := firstListener_confirming
  have hreach := Transition.exec_reachable firstListener_fresh hs
  have hqueue := (Listener.reachable_queued hreach).empty hphase
  have hkept := (Elector.losesNone_iff hphase hqueue _).mp
    (h 3 s rfl hreach hphase (pollOne ⟨3, .looking, 1, 3, 0⟩))
  have hbetter : s.elector.betterPop (pollOne ⟨3, .looking, 1, 3, 0⟩) =
      some (⟨3, .looking, 1, 3, 0⟩, ⟨0, .looking, 0, 0, 0⟩) := by
    rw [Elector.betterPop, hch, hproposal]
    decide
  exact absurd (hkept _ hbetter) (by decide)

/-- A vote that does not beat the proposal is dropped, and server 2 is decided on. -/
theorem confirm_window_worse :
    ∃ s, Transition.exec (Listener.step 3) firstListener secondVotes = some s ∧
      s.elector.LosesNone (pollOne ⟨3, .looking, 1, 1, 0⟩) := by
  obtain ⟨s, hs, hphase, hch, hproposal⟩ := firstListener_confirming
  have hreach := Transition.exec_reachable firstListener_fresh hs
  have hnone : s.elector.betterPop (pollOne ⟨3, .looking, 1, 1, 0⟩) = none := by
    rw [Elector.betterPop, hch, hproposal]
    decide
  refine ⟨s, hs, (confirm_window hreach hphase _).mpr ?_⟩
  rw [hnone]
  intro q hq
  cases hq

end Paxos
