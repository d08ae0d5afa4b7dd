import Zookeeper.Paxos.Cluster

/-!
# The log of a follower from session to session

A follower keeps its data set when it loses the leader.  In the next session `SyncFollower`
cuts its committed bills, and sends the uncommitted bills of the leader once more, but
nothing removes the uncommitted bills of the follower: `Trunc` and `Snap` do not look at
`_uncommit`, and `Propose` does not look at the ids that are there
(`paxos/transaction/dataset.cpp`).

`FollowerLog` is one follower with what a leader has on its way to it.  The leader of a
session is given by its data set, and is correct: its ids ascend, and a bill that it proposes
is above all that were proposed before.  `log_stays_ordered` says that the ids of the follower
ascend in every state, if every session begins with an opening that is read as it was meant,
and what the opening leaves is below what is sent again.
-/

namespace Paxos

variable {n : Nat} {σ τ : Type}

/-! ## Ordered logs -/

/-- The ids ascend, up to `top`. -/
def AscendTo (top : Int64) (bills : List Bill) : Prop :=
  bills.Pairwise (fun a b => a.zxId < b.zxId) ∧ ∀ bill ∈ bills, bill.zxId ≤ top

instance (top : Int64) (bills : List Bill) : Decidable (AscendTo top bills) :=
  inferInstanceAs (Decidable (_ ∧ _))

section AscendTo

variable {top top' : Int64} {bills bills' : List Bill}

theorem AscendTo.sublist (h : AscendTo top bills) (hsub : List.Sublist bills' bills) :
    AscendTo top bills' :=
  ⟨h.1.sublist hsub, fun bill hbill => h.2 bill (hsub.subset hbill)⟩

theorem AscendTo.mono (h : AscendTo top bills) (hle : top ≤ top') : AscendTo top' bills :=
  ⟨h.1, fun bill hbill => Int64.le_trans (h.2 bill hbill) hle⟩

theorem AscendTo.append (h : AscendTo top bills) (h' : AscendTo top bills')
    (hlt : ∀ a ∈ bills, ∀ b ∈ bills', a.zxId < b.zxId) : AscendTo top (bills ++ bills') := by
  refine ⟨List.pairwise_append.mpr ⟨h.1, h'.1, hlt⟩, fun bill hbill => ?_⟩
  rcases List.mem_append.mp hbill with hbill | hbill
  · exact h.2 bill hbill
  · exact h'.2 bill hbill

/-- A bill above all others. -/
theorem AscendTo.concat (h : AscendTo top bills) {bill : Bill} (hlt : top < bill.zxId) :
    AscendTo bill.zxId (bills ++ [bill]) := by
  refine (h.mono (Int64.le_of_lt hlt)).append ⟨List.pairwise_singleton .., ?_⟩ ?_
  · intro b hb
    rw [List.mem_singleton.mp hb]
    exact Int64.le_refl _
  · intro a ha b hb
    rw [List.mem_singleton.mp hb]
    exact Int64.lt_of_le_of_lt (h.2 a ha) hlt

/-- What is left of an ordered log above which all is cut. -/
theorem AscendTo.dropWhile (h : AscendTo top bills) (zxId : Int64) :
    List.Sublist (bills.reverse.dropWhile fun bill => decide (zxId < bill.zxId)).reverse
      (upTo zxId bills) := by
  have hsub : List.Sublist
      (bills.reverse.dropWhile fun bill => decide (zxId < bill.zxId)).reverse bills := by
    have hdrop := (List.dropWhile_sublist (fun bill => decide (zxId < bill.zxId))
      (l := bills.reverse)).reverse
    rwa [List.reverse_reverse] at hdrop
  have hkeep : ∀ bill ∈ (bills.reverse.dropWhile fun bill => decide (zxId < bill.zxId)).reverse,
      bill.zxId ≤ zxId := fun bill hbill =>
    dropWhile_le (List.pairwise_reverse.mpr h.1) bill (List.mem_reverse.mp hbill)
  rw [← upTo_eq_self hkeep]
  exact hsub.filter _

end AscendTo

/-! ## What the operations leave of a log -/

namespace DataSet

/-- The committed bills and the others. -/
def log (d : DataSet σ) : List Bill := d.commitLog ++ d.uncommit

/-- What is left of the log behind an opening. -/
def opened (d : DataSet σ) : DownFrame → List Bill
  | .trunc zxId | .snap zxId _ _ => upTo zxId d.commitLog ++ d.uncommit
  | _ => d.log

variable {m : Machine σ τ} {d : DataSet σ} {top : Int64}

theorem opened_sublist (d : DataSet σ) (frame : DownFrame) :
    List.Sublist (d.opened frame) d.log := by
  cases frame with
  | trunc zxId => exact List.filter_sublist.append_right _
  | snap zxId data applied => exact List.filter_sublist.append_right _
  | diff => exact List.Sublist.refl _
  | propose bill => exact List.Sublist.refl _
  | commit zxId => exact List.Sublist.refl _
  | newLeader => exact List.Sublist.refl _
  | updated => exact List.Sublist.refl _

/-- A log is cut at the end, and as far as it goes if nothing is thrown. -/
theorem truncLoop_log (m : Machine σ τ) (zxId : Int64) (bills : List Bill) (s : σ) :
    List.Sublist (truncLoop m zxId bills s).1 bills ∧
      ((truncLoop m zxId bills s).2.2 = none →
        (truncLoop m zxId bills s).1 =
          bills.dropWhile fun bill => decide (zxId < bill.zxId)) := by
  induction bills generalizing s with
  | nil => exact ⟨List.Sublist.refl _, fun _ => rfl⟩
  | cons bill bills ih =>
      rw [truncLoop]
      split
      next habove =>
        rw [List.dropWhile_cons_of_pos (by simpa using habove)]
        split
        next => exact ⟨List.Sublist.refl _, fun h => by cases h⟩
        next s' _ => exact ⟨(ih s').1.trans (List.sublist_cons_self ..), (ih s').2⟩
      next habove =>
        rw [List.dropWhile_cons_of_neg (by simpa using habove)]
        exact ⟨List.Sublist.refl _, fun _ => rfl⟩

theorem trunc_log (h : AscendTo top d.log) (zxId : Int64) (files : Option Thrown) :
    List.Sublist (d.trunc m zxId files).1.log d.log ∧
      ((d.trunc m zxId files).2 = none →
        List.Sublist (d.trunc m zxId files).1.log (d.opened (.trunc zxId))) := by
  obtain ⟨hsub, hcut⟩ := truncLoop_log m zxId d.commitLog.reverse d.stateData
  have hsub' := hsub.reverse
  rw [List.reverse_reverse] at hsub'
  rw [trunc]
  split
  next log s e heq =>
    rw [heq] at hsub'
    exact ⟨hsub'.append_right _, fun hnone => by cases hnone⟩
  next log s heq =>
    rw [heq] at hsub' hcut
    refine ⟨hsub'.append_right _, fun _ => ?_⟩
    have hcommit : AscendTo top d.commitLog := h.sublist (List.sublist_append_left ..)
    have hlog := hcommit.dropWhile zxId
    rw [← hcut rfl] at hlog
    exact hlog.append_right _

theorem snap_log (h : AscendTo top d.log) (zxId : Int64) (data : Bytes) (applied : List Bill)
    (files : Option Thrown) :
    List.Sublist (d.snap m zxId data files).1.log (d.opened (.snap zxId data applied)) :=
  ((h.sublist (List.sublist_append_left ..)).dropWhile zxId).append_right _

theorem saveSnap_log (d : DataSet σ) (saved : Bool) (nextCount : Nat) :
    List.Sublist (d.saveSnap saved nextCount).1.log d.log := by
  rw [saveSnap]
  split
  next =>
    split
    next => exact (List.drop_sublist ..).append_right _
    next => exact List.Sublist.refl _
  next => exact List.Sublist.refl _

/-- A commit moves a bill, and may drop the first ones. -/
theorem commit_log (m : Machine σ τ) (d : DataSet σ) (zxId : Int64) (transaction : Option τ)
    (saved : Bool) (nextCount : Nat) :
    List.Sublist (d.commit m zxId transaction saved nextCount).1.log d.log := by
  rw [commit]
  split
  next => exact List.Sublist.refl _
  next bill rest hrest =>
    have hmoved : (d.commitLog ++ [bill]) ++ rest = d.log := by
      rw [log, hrest, List.append_assoc, List.singleton_append]
    split
    next => exact List.Sublist.refl _
    next =>
      dsimp only
      split
      next => exact hmoved ▸ List.Sublist.refl _
      next s _ =>
        refine (saveSnap_log _ saved nextCount).trans ?_
        exact hmoved ▸ List.Sublist.refl _

theorem propose_log (d : DataSet σ) (bill : Bill) (saved : Bool) :
    List.Sublist (d.propose bill.zxId bill.data saved).1.log (d.log ++ [bill]) := by
  rw [propose]
  split
  next =>
    dsimp only [log]
    rw [List.append_assoc]
  next => exact List.sublist_append_left ..

end DataSet

/-! ## Sessions -/

namespace DownFrame

/-- The bill of a proposal. -/
def bill? : DownFrame → Option Bill
  | .propose bill => some bill
  | _ => none

/-- Its bytes are read as this frame. -/
def Whole (inPlace : Bool) : DownFrame → Prop
  | .snap _ data _ => data.length < 2 ^ 31 ∧ (inPlace = true ∨ data = [])
  | _ => True

/-- None of its bytes is the type of a message to the loop of `SyncWithLeader`. -/
def Silent (inPlace : Bool) (frame : DownFrame) : Prop :=
  ∀ b ∈ frame.bytes inPlace,
    Px.ofByte b ∉ [some .propose, some .commit, some .newLeader, some .updated]

instance (inPlace : Bool) : DecidablePred (Whole inPlace)
  | .diff => inferInstanceAs (Decidable True)
  | .trunc _ => inferInstanceAs (Decidable True)
  | .snap _ _ _ => inferInstanceAs (Decidable (_ ∧ _))
  | .propose _ => inferInstanceAs (Decidable True)
  | .commit _ => inferInstanceAs (Decidable True)
  | .newLeader => inferInstanceAs (Decidable True)
  | .updated => inferInstanceAs (Decidable True)

instance (inPlace : Bool) : DecidablePred (Silent inPlace) := fun frame =>
  inferInstanceAs (Decidable (∀ b ∈ frame.bytes inPlace,
    Px.ofByte b ∉ [some .propose, some .commit, some .newLeader, some .updated]))

/-- The loop of `SyncWithLeader` gets past such a frame without a change. -/
theorem Silent.skipped {m : Machine σ τ} {io : SyncFiles} {inPlace : Bool} {frame : DownFrame}
    (h : frame.Silent inPlace) (fuel : Nat) (d : DataSet σ) (rest : Bytes) :
    syncLoop m io (fuel + (frame.bytes inPlace).length) d (frame.bytes inPlace ++ rest) =
      syncLoop m io fuel d rest := by
  rw [Silent] at h
  generalize frame.bytes inPlace = bytes at h ⊢
  induction bytes with
  | nil => rfl
  | cons b bs ih =>
      have hb := h b (.head _)
      simp only [List.mem_cons, List.not_mem_nil, or_false, not_or] at hb
      have hrest := ih fun b hb => h b (.tail _ hb)
      rw [List.length_cons, ← Nat.add_assoc, List.cons_append, syncLoop]
      split
      next hupdated => exact absurd hupdated hb.2.2.2
      next hpropose => exact absurd hpropose hb.1
      next hcommit => exact absurd hcommit hb.2.1
      next => exact hrest

end DownFrame

/-- The bills that are on their way. -/
def proposed (down : List DownFrame) : List Bill := down.filterMap DownFrame.bill?

/-- A correct leader: its ids ascend, up to `top`, and `_zxId` is between those committed and
the others.  The sizes of its bills fit in their field. -/
def DataSet.Leads (top : Int64) (d : DataSet σ) : Prop :=
  AscendTo top d.log ∧ (∀ bill ∈ d.commitLog, bill.zxId ≤ d.zxId) ∧
    (∀ bill ∈ d.uncommit, d.zxId < bill.zxId) ∧ ∀ bill ∈ d.log, bill.data.length < 2 ^ 31

instance (top : Int64) (d : DataSet σ) : Decidable (d.Leads top) :=
  inferInstanceAs (Decidable (_ ∧ _))

/-- A follower, and the connection it has. -/
structure FollowerLog (n : Nat) (σ : Type) where
  member : Member n σ
  reader : ReaderState := .closed
  down : List DownFrame := []
  /-- No bill was proposed above it. -/
  top : Int64

inductive FollowerLogAct (n : Nat) (σ τ : Type) where
  /-- `SyncFollower` of a leader with these data.  Up to `top`, bills have been proposed by
  now. -/
  | connect (leader : Member n σ) (top : Int64)
  /-- The leader proposes a bill. -/
  | propose (bill : Bill)
  | commit (zxId : Int64)
  | newLeader
  | updated
  | read (io : ReadIo τ)
  /-- The connection is lost. -/
  | disconnect

namespace FollowerLog

/-- The leader sends a frame. -/
def send (s : FollowerLog n σ) (frame : DownFrame) : Option (FollowerLog n σ) :=
  if s.reader = .closed then none else some { s with down := s.down ++ [frame] }

def step (m : Machine σ τ) (s : FollowerLog n σ) :
    FollowerLogAct n σ τ → Option (FollowerLog n σ)
  | .connect leader top =>
      if s.reader = .closed ∧ s.top ≤ top ∧ leader.data.Leads top then
        some { s with
          reader := .opening
          down := syncFrames m leader.data leader.applied s.member.data.zxId
          top := top }
      else none
  | .propose bill =>
      if s.top < bill.zxId ∧ bill.data.length < 2 ^ 31 then
        { s with top := bill.zxId }.send (.propose bill)
      else none
  | .commit zxId => s.send (.commit zxId)
  | .newLeader => s.send .newLeader
  | .updated => s.send .updated
  | .read io =>
      match s.down with
      | [] => none
      | frame :: down =>
          if s.reader = .closed then none
          else
            let (x, reader, _) := s.member.read m io s.reader frame
            some { s with member := x, reader := reader, down := down }
  | .disconnect => some { s with reader := .closed, down := [] }

/-- A follower with any ordered log. -/
def Fresh (s : FollowerLog n σ) : Prop :=
  s.reader = .closed ∧ s.down = [] ∧ AscendTo s.top s.member.data.log

/-- The ids of the log ascend. -/
def Ordered (s : FollowerLog n σ) : Prop :=
  s.member.data.log.Pairwise fun a b => a.zxId < b.zxId

/-- A session begins with an opening that is read as it was meant, and no opening behind it
is taken for messages.  What the opening leaves is below what is sent again. -/
def Resumes (m : Machine σ τ) (inPlace : Bool) (s : FollowerLog n σ) (leader : Member n σ) :
    Prop :=
  let frames := openingFrames m leader.data leader.applied s.member.data.zxId
  frames ≠ [] ∧ (∀ frame ∈ frames.tail, frame.Silent inPlace) ∧
    ∀ frame ∈ frames.head?, frame.Whole inPlace ∧
      ∀ a ∈ s.member.data.opened frame, ∀ b ∈ leader.data.uncommit, a.zxId < b.zxId

instance (m : Machine σ τ) (inPlace : Bool) (s : FollowerLog n σ) (leader : Member n σ) :
    Decidable (s.Resumes m inPlace leader) :=
  inferInstanceAs (Decidable (_ ∧ _))

/-- Every session resumes the log. -/
def Resuming (m : Machine σ τ) (inPlace : Bool) (s : FollowerLog n σ) :
    FollowerLogAct n σ τ → Prop
  | .connect leader _ => s.Resumes m inPlace leader
  | _ => True

instance (m : Machine σ τ) (inPlace : Bool) (s : FollowerLog n σ) :
    DecidablePred (s.Resuming m inPlace)
  | .connect leader _ => inferInstanceAs (Decidable (s.Resumes m inPlace leader))
  | .propose _ => inferInstanceAs (Decidable True)
  | .commit _ => inferInstanceAs (Decidable True)
  | .newLeader => inferInstanceAs (Decidable True)
  | .updated => inferInstanceAs (Decidable True)
  | .read _ => inferInstanceAs (Decidable True)
  | .disconnect => inferInstanceAs (Decidable True)

/-! ## What is coming -/

/-- The log once all that is on its way is read. -/
def coming (s : FollowerLog n σ) : List Bill :=
  match s.reader, s.down with
  | .closed, _ => s.member.data.log
  | .opening, frame :: down => s.member.data.opened frame ++ proposed down
  | _, down => s.member.data.log ++ proposed down

end FollowerLog

theorem proposed_cons (frame : DownFrame) (down : List DownFrame) :
    proposed (frame :: down) = frame.bill?.toList ++ proposed down := by
  rw [proposed, List.filterMap_cons]
  cases frame <;> rfl

theorem proposed_append (down down' : List DownFrame) :
    proposed (down ++ down') = proposed down ++ proposed down' := List.filterMap_append

theorem proposed_concat (down : List DownFrame) (frame : DownFrame) :
    proposed (down ++ [frame]) = proposed down ++ frame.bill?.toList := by
  rw [proposed_append, proposed_cons]
  exact congrArg (proposed down ++ ·) (List.append_nil _)

theorem proposed_map (bills : List Bill) : proposed (bills.map .propose) = bills := by
  induction bills with
  | nil => rfl
  | cons bill bills ih =>
      rw [List.map_cons, proposed_cons, ih]
      rfl

theorem diffFrames_proposed {snap : DownFrame} (hsnap : snap.bill? = none) (last : Int64)
    (bills : List Bill) (prev : Int64) :
    proposed (diffFrames snap last true prev bills) = [] := by
  induction bills generalizing prev with
  | nil => rfl
  | cons bill bills ih =>
      rw [diffFrames]
      split
      next => exact ih bill.zxId
      next =>
        rw [if_pos rfl]
        split
        next => exact (proposed_cons ..).trans (ih prev)
        next =>
          split
          next =>
            rw [proposed_cons, hsnap]
            rfl
          next => exact (proposed_cons ..).trans (ih prev)

/-- No opening is a proposal. -/
theorem openingFrames_proposed (m : Machine σ τ) (d : DataSet σ) (applied : List Bill)
    (last : Int64) : proposed (openingFrames m d applied last) = [] := by
  rw [openingFrames]
  split
  next => rfl
  next =>
    split
    next => rfl
    next =>
      split
      next => exact diffFrames_proposed rfl ..
      next => rfl

/-- Only the uncommitted bills are proposed behind the first opening. -/
theorem syncFrames_proposed {m : Machine σ τ} {d : DataSet σ} {applied : List Bill}
    {last : Int64} {first : DownFrame} {more : List DownFrame}
    (h : openingFrames m d applied last = first :: more) :
    proposed (more ++ d.uncommit.map .propose) = d.uncommit := by
  have hnil := openingFrames_proposed m d applied last
  rw [h, proposed_cons, List.append_eq_nil_iff] at hnil
  rw [proposed_append, hnil.2, proposed_map, List.nil_append]

/-- The log behind a frame, if the reader goes on. -/
def DataSet.next (d : DataSet σ) : ReaderState → DownFrame → List Bill
  | .opening, frame => d.opened frame
  | _, frame => d.log ++ frame.bill?.toList

/-- What a frame does to the log. -/
structure ReadsLog (d : DataSet σ) (reader : ReaderState) (frame : DownFrame)
    (r : Member n σ × ReaderState × List UpFrame) : Prop where
  begun : r.2.1 ≠ .opening
  ended : r.2.1 = .closed → List.Sublist r.1.data.log d.log
  goesOn : r.2.1 ≠ .closed → List.Sublist r.1.data.log (d.next reader frame)

namespace Member

variable {m : Machine σ τ} {x : Member n σ} {top : Int64}

theorem readsLog_goesOn {d : DataSet σ} {reader reader' : ReaderState} {frame : DownFrame}
    {y : Member n σ} {up : List UpFrame} (hbegun : reader' ≠ .opening)
    (hopen : reader' ≠ .closed) (hlog : List.Sublist y.data.log (d.next reader frame)) :
    ReadsLog d reader frame (y, reader', up) :=
  ⟨hbegun, fun hclosed => absurd hclosed hopen, fun _ => hlog⟩

theorem readsLog_closed {d : DataSet σ} {reader : ReaderState} {frame : DownFrame}
    {y : Member n σ} {up : List UpFrame} (hlog : List.Sublist y.data.log d.log) :
    ReadsLog d reader frame (y, .closed, up) :=
  ⟨nofun, fun _ => hlog, fun hopen => absurd rfl hopen⟩

/-- The reader goes on, or what it did has thrown. -/
theorem readsLog_of_thrown {d : DataSet σ} {reader reader' : ReaderState} {frame : DownFrame}
    {y : Member n σ} {e : Option Thrown} {up : List UpFrame} (hbegun : reader' ≠ .opening)
    (hopen : reader' ≠ .closed) (hended : List.Sublist y.data.log d.log)
    (hgoes : e = none → List.Sublist y.data.log (d.next reader frame)) :
    ReadsLog d reader frame (y, if e.isSome then .closed else reader', up) := by
  cases e with
  | none => exact readsLog_goesOn hbegun hopen (hgoes rfl)
  | some e => exact readsLog_closed hended

/-- A frame is skipped. -/
theorem readsLog_skip {reader reader' : ReaderState} {frame : DownFrame} {up : List UpFrame}
    (hreader : reader ≠ .opening) (hbegun : reader' ≠ .opening) :
    ReadsLog x.data reader frame (x, reader', up) := by
  refine ⟨hbegun, fun _ => List.Sublist.refl _, fun _ => ?_⟩
  cases reader with
  | opening => exact absurd rfl hreader
  | syncing => exact List.sublist_append_left ..
  | active => exact List.sublist_append_left ..
  | closed => exact List.sublist_append_left ..

theorem read_readsLog (m : Machine σ τ) (io : ReadIo τ) (h : AscendTo top x.data.log)
    {reader : ReaderState} (hreader : reader ≠ .closed) (frame : DownFrame) :
    ReadsLog x.data reader frame (x.read m io reader frame) := by
  cases reader with
  | opening =>
      cases frame with
      | trunc zxId =>
          have hlog := DataSet.trunc_log (m := m) h zxId io.files
          exact readsLog_of_thrown nofun nofun hlog.1 hlog.2
      | snap zxId data applied =>
          have hlog := DataSet.snap_log (m := m) h zxId data applied io.files
          exact readsLog_of_thrown nofun nofun
            (hlog.trans (DataSet.opened_sublist ..)) fun _ => hlog
      | diff => exact readsLog_goesOn nofun nofun (List.Sublist.refl _)
      | propose bill => exact readsLog_goesOn nofun nofun (List.Sublist.refl _)
      | commit zxId => exact readsLog_goesOn nofun nofun (List.Sublist.refl _)
      | newLeader => exact readsLog_goesOn nofun nofun (List.Sublist.refl _)
      | updated => exact readsLog_goesOn nofun nofun (List.Sublist.refl _)
  | syncing =>
      cases frame with
      | propose bill =>
          exact readsLog_goesOn nofun nofun (DataSet.propose_log x.data bill io.save)
      | commit zxId =>
          have hlog := DataSet.commit_log m x.data zxId none io.snapSaved io.nextCount
          exact readsLog_of_thrown nofun nofun hlog
            fun _ => hlog.trans (List.sublist_append_left ..)
      | trunc => exact readsLog_skip nofun nofun
      | snap => exact readsLog_skip nofun nofun
      | diff => exact readsLog_skip nofun nofun
      | newLeader => exact readsLog_skip nofun nofun
      | updated => exact readsLog_skip nofun nofun
  | active =>
      cases frame with
      | propose bill =>
          have hlog := DataSet.propose_log x.data bill io.save
          change ReadsLog x.data .active (.propose bill)
            (if (x.propose bill io.save).2 then
              ((x.propose bill io.save).1, .active, [.ackPropose bill.zxId])
            else ((x.propose bill io.save).1, .closed, []))
          cases hsave : io.save with
          | false => exact readsLog_closed (List.Sublist.refl _)
          | true =>
              rw [hsave] at hlog
              exact readsLog_goesOn nofun nofun hlog
      | commit zxId =>
          have hlog := DataSet.commit_log m x.data zxId io.transaction io.snapSaved io.nextCount
          exact readsLog_of_thrown nofun nofun hlog
            fun _ => hlog.trans (List.sublist_append_left ..)
      | trunc => exact readsLog_skip nofun nofun
      | snap => exact readsLog_skip nofun nofun
      | diff => exact readsLog_skip nofun nofun
      | newLeader => exact readsLog_skip nofun nofun
      | updated => exact readsLog_skip nofun nofun
  | closed => exact absurd rfl hreader

end Member

namespace FollowerLog

variable {m : Machine σ τ} {inPlace : Bool} {s s' : FollowerLog n σ}

/-- What the log is and what it will be. -/
structure Inv (s : FollowerLog n σ) : Prop where
  log : AscendTo s.top s.member.data.log
  coming : AscendTo s.top s.coming

theorem send_member {frame : DownFrame} (hs : s.send frame = some s') :
    s'.member = s.member ∧ s'.top = s.top := by
  rw [send] at hs
  split at hs
  next => cases hs
  next =>
    cases hs
    exact ⟨rfl, rfl⟩

/-- A frame is behind all that is on its way. -/
theorem send_coming {frame : DownFrame} (hs : s.send frame = some s') :
    List.Sublist s'.coming (s.coming ++ frame.bill?.toList) := by
  rw [send] at hs
  split at hs
  next => cases hs
  next hopen =>
    cases hs
    obtain ⟨x, reader, down, top⟩ := s
    cases reader with
    | opening =>
        cases down with
        | nil =>
            change List.Sublist (x.data.opened frame ++ []) (x.data.log ++ [] ++ _)
            rw [List.append_nil, List.append_nil]
            exact (x.data.opened_sublist frame).trans (List.sublist_append_left ..)
        | cons first down =>
            change List.Sublist (x.data.opened first ++ proposed (down ++ [frame]))
              (x.data.opened first ++ proposed down ++ frame.bill?.toList)
            rw [proposed_concat, List.append_assoc]
    | syncing =>
        change List.Sublist (x.data.log ++ proposed (down ++ [frame]))
          (x.data.log ++ proposed down ++ frame.bill?.toList)
        rw [proposed_concat, List.append_assoc]
    | active =>
        change List.Sublist (x.data.log ++ proposed (down ++ [frame]))
          (x.data.log ++ proposed down ++ frame.bill?.toList)
        rw [proposed_concat, List.append_assoc]
    | closed => exact absurd rfl hopen

/-- A frame that is no proposal. -/
theorem Inv.send (h : s.Inv) {frame : DownFrame} (hframe : frame.bill? = none)
    (hs : s.send frame = some s') : s'.Inv := by
  obtain ⟨hmember, htop⟩ := send_member hs
  have hcoming := send_coming hs
  rw [hframe, Option.toList_none, List.append_nil] at hcoming
  refine ⟨?_, ?_⟩
  · rw [hmember, htop]
    exact h.log
  · rw [htop]
    exact h.coming.sublist hcoming

/-- What is coming begins with what the first frame makes of the log. -/
theorem coming_eq {frame : DownFrame} {down : List DownFrame} (hdown : s.down = frame :: down)
    (hopen : s.reader ≠ .closed) :
    s.coming = s.member.data.next s.reader frame ++ proposed down := by
  obtain ⟨x, reader, down', top⟩ := s
  cases hdown
  cases reader with
  | opening => rfl
  | syncing =>
      change x.data.log ++ proposed (frame :: down) = _
      rw [proposed_cons, ← List.append_assoc]
      rfl
  | active =>
      change x.data.log ++ proposed (frame :: down) = _
      rw [proposed_cons, ← List.append_assoc]
      rfl
  | closed => exact absurd rfl hopen

/-- What the opening leaves and what is sent again fit together. -/
theorem Inv.connect (h : s.Inv) {leader : Member n σ} {top : Int64} (hle : s.top ≤ top)
    (hleads : leader.data.Leads top) (hresumes : s.Resumes m inPlace leader) :
    Inv { s with
      reader := .opening
      down := syncFrames m leader.data leader.applied s.member.data.zxId
      top := top } := by
  refine ⟨h.log.mono hle, ?_⟩
  obtain ⟨hne, -, hfirst⟩ := hresumes
  rw [syncFrames]
  cases hframes : openingFrames m leader.data leader.applied s.member.data.zxId with
  | nil => exact absurd hframes hne
  | cons first more =>
      change AscendTo top (s.member.data.opened first ++
        proposed (more ++ leader.data.uncommit.map .propose))
      rw [syncFrames_proposed hframes]
      have hopened := (h.log.mono hle).sublist (s.member.data.opened_sublist first)
      refine hopened.append (hleads.1.sublist (List.sublist_append_right ..)) ?_
      exact (hfirst first (by rw [hframes]; rfl)).2

/-- A bill above all others is proposed. -/
theorem Inv.propose (h : s.Inv) {bill : Bill} (hlt : s.top < bill.zxId)
    (hs : { s with top := bill.zxId }.send (.propose bill) = some s') : s'.Inv := by
  obtain ⟨hmember, htop⟩ := send_member hs
  refine ⟨?_, ?_⟩
  · rw [hmember, htop]
    exact h.log.mono (Int64.le_of_lt hlt)
  · rw [htop]
    exact (h.coming.concat hlt).sublist (send_coming hs)

/-- A frame is read. -/
theorem Inv.read (h : s.Inv) (io : ReadIo τ) {frame : DownFrame} {down : List DownFrame}
    (hdown : s.down = frame :: down) (hopen : s.reader ≠ .closed) :
    Inv { s with
      member := (s.member.read m io s.reader frame).1
      reader := (s.member.read m io s.reader frame).2.1
      down := down } := by
  have hread := Member.read_readsLog m io h.log hopen frame
  have hcoming := h.coming
  rw [coming_eq hdown hopen] at hcoming
  generalize s.member.read m io s.reader frame = r at hread
  obtain ⟨x, reader, up⟩ := r
  have hnext (hreader : reader ≠ .closed) : AscendTo s.top (x.data.log ++ proposed down) :=
    hcoming.sublist ((hread.goesOn hreader).append_right _)
  cases reader with
  | opening => exact absurd rfl hread.begun
  | syncing =>
      have hlog := hnext nofun
      exact ⟨hlog.sublist (List.sublist_append_left ..), hlog⟩
  | active =>
      have hlog := hnext nofun
      exact ⟨hlog.sublist (List.sublist_append_left ..), hlog⟩
  | closed =>
      have hlog := h.log.sublist (hread.ended rfl)
      exact ⟨hlog, hlog⟩

theorem Inv.step {a : FollowerLogAct n σ τ} (h : s.Inv) (hok : s.Resuming m inPlace a)
    (hs : s.step m a = some s') : s'.Inv := by
  cases a with
  | connect leader top =>
      rw [FollowerLog.step] at hs
      split at hs
      next hconnect =>
        cases hs
        exact h.connect hconnect.2.1 hconnect.2.2 hok
      next => cases hs
  | propose bill =>
      rw [FollowerLog.step] at hs
      split at hs
      next hlt => exact h.propose hlt.1 hs
      next => cases hs
  | commit zxId => exact h.send rfl hs
  | newLeader => exact h.send rfl hs
  | updated => exact h.send rfl hs
  | read io =>
      rw [FollowerLog.step] at hs
      split at hs
      next => cases hs
      next frame down hdown =>
        split at hs
        next => cases hs
        next hopen =>
          cases hs
          exact h.read io hdown hopen
  | disconnect =>
      cases hs
      exact ⟨h.log, h.log⟩

end FollowerLog

/-- The sessions of one follower. -/
def followerLog (n : Nat) (m : Machine σ τ) :
    Transition.System (FollowerLog n σ) (FollowerLogAct n σ τ) :=
  Transition.ofStep FollowerLog.Fresh (FollowerLog.step m)

/-- A log that every session resumes stays ordered. -/
theorem log_stays_ordered {m : Machine σ τ} {inPlace : Bool} {s : FollowerLog n σ}
    (h : (followerLog n m).Run (fun s a => s.Resuming m inPlace a) s) : s.Ordered := by
  have hinv : s.Inv := by
    refine Transition.System.Run.invariant (I := FollowerLog.Inv) ?_
      (fun _ _ _ hi hok hs => hi.step hok hs) h
    rintro ⟨x, reader, down, top⟩ ⟨rfl, rfl, hlog⟩
    exact ⟨hlog, hlog⟩
  exact hinv.log.1

/-- A bill of the first epoch. -/
def billOne (k : Int64) : Bill := ⟨zxIdOf 1 k, [65]⟩

/-- A server with these bills. -/
def memberWith (commitLog uncommit : List Bill) : Member 2 Bytes where
  data := {
    stateData := commitLog.flatMap Bill.data
    zxId := (commitLog.getLast?.map Bill.zxId).getD 0
    commitLog := commitLog
    uncommit := uncommit
    snaperCount := 8 }
  applied := commitLog

/-- Two bills are committed in the first session.  The leader has a third when the follower
comes back. -/
def resumedRun : List (FollowerLogAct 2 Bytes Unit) :=
  [.connect (memberWith [] [billOne 1]) (zxIdOf 1 1), .newLeader, .updated,
    .read {}, .read {}, .read {}, .read {},
    .commit (zxIdOf 1 1), .propose (billOne 2), .commit (zxIdOf 1 2),
    .read {}, .read {}, .read {}, .disconnect,
    .connect (memberWith [billOne 1, billOne 2] [billOne 3]) (zxIdOf 1 3), .read {}, .read {}]

/-- The follower comes back before the bill is committed. -/
def resentRun : List (FollowerLogAct 2 Bytes Unit) :=
  [.connect (memberWith [] [billOne 1]) (zxIdOf 1 1), .read {}, .read {}, .disconnect,
    .connect (memberWith [] [billOne 1]) (zxIdOf 1 1), .read {}, .read {}]

/-- A follower that has nothing. -/
def emptyFollower : FollowerLog 2 Bytes := { member := memberWith [] [], top := 0 }

theorem log_stays_ordered_resumedRun :
    ∃ s, Transition.exec (FollowerLog.step Machine.tape) emptyFollower resumedRun = some s ∧
      s.member.data.log = [billOne 1, billOne 2, billOne 3] ∧ s.Ordered := by
  have hrun : (Transition.exec (FollowerLog.step Machine.tape) emptyFollower resumedRun).map
      (fun s => s.member.data.log) = some [billOne 1, billOne 2, billOne 3] := by
    decide
  have hresumes : Transition.Guarded (FollowerLog.step Machine.tape)
      (fun s a => s.Resuming Machine.tape true a) emptyFollower resumedRun := by
    decide
  obtain ⟨s, hs, hlog⟩ := Option.map_eq_some_iff.mp hrun
  refine ⟨s, hs, hlog, ?_⟩
  exact log_stays_ordered (Transition.exec_run (.start ⟨rfl, rfl, by decide⟩) hresumes hs)

/-- The bill that was not committed is proposed once more, and is there twice. -/
theorem resent_bill_twice :
    ¬ ∀ s, (followerLog 2 Machine.tape).Reachable s → s.Ordered := by
  intro h
  have hrun : (Transition.exec (FollowerLog.step Machine.tape) emptyFollower resentRun).map
      (fun s => s.member.data.log) = some [billOne 1, billOne 1] := by
    decide
  obtain ⟨s, hs, hlog⟩ := Option.map_eq_some_iff.mp hrun
  have hordered := h s (Transition.exec_reachable ⟨rfl, rfl, by decide⟩ hs)
  rw [FollowerLog.Ordered, hlog] at hordered
  exact absurd hordered (by decide)

end Paxos
