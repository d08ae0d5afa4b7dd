import Zookeeper.Bytes

/-!
# Frames on a stream

A *frame* is a head of a fixed layout and a body whose length the head says.  A stream of
frames carries no marks between them, so a reader has to keep in step with the writer.

A `FrameReader` is a reader in the middle of its work.  It takes in what the stream gives
it, never more than it wants, and has a frame when the body is complete.
`Reads c size frames r rest` says that what the reader has taken in and what will still
come are `frames`.  The reader keeps that whatever pieces the stream comes in
(`Reads.push`), and what it has at the end of a body is the first of the frames
(`Reads.complete`).
-/

namespace Framing

variable {α : Type}

/-- The bytes of a frame. -/
def frame (c : Codec α) (p : α × Bytes) : Bytes := c.encode p.1 ++ p.2

/-- The bytes of frames, one after the other. -/
def stream (c : Codec α) (frames : List (α × Bytes)) : Bytes := frames.flatMap (frame c)

@[simp] theorem stream_nil (c : Codec α) : stream c [] = [] := rfl

@[simp] theorem stream_cons (c : Codec α) (p : α × Bytes) (frames : List (α × Bytes)) :
    stream c (p :: frames) = c.encode p.1 ++ (p.2 ++ stream c frames) := by
  simp only [stream, List.flatMap_cons, frame, List.append_assoc]

theorem stream_append (c : Codec α) (frames frames' : List (α × Bytes)) :
    stream c (frames ++ frames') = stream c frames ++ stream c frames' :=
  List.flatMap_append

theorem stream_singleton (c : Codec α) (p : α × Bytes) : stream c [p] = frame c p := by
  rw [stream, List.flatMap_cons, List.flatMap_nil, List.append_nil]

/-- A reader that has taken in part of a head, or a head and part of the body. -/
inductive FrameReader (α : Type) where
  | atHead (got : Bytes)
  | inBody (head : α) (got : Bytes)
deriving DecidableEq

namespace FrameReader

/-- What the reader has taken in. -/
def consumed (c : Codec α) : FrameReader α → Bytes
  | .atHead got => got
  | .inBody head got => c.encode head ++ got

/-- How many bytes the reader wants. -/
def want (c : Codec α) (size : α → Nat) : FrameReader α → Nat
  | .atHead got => c.size - got.length
  | .inBody head got => size head - got.length

/-- The reader takes in bytes. -/
def push (c : Codec α) (bytes : Bytes) : FrameReader α → FrameReader α
  | .atHead got =>
      if (got ++ bytes).length = c.size then .inBody (c.decode (got ++ bytes)) []
      else .atHead (got ++ bytes)
  | .inBody head got => .inBody head (got ++ bytes)

end FrameReader

/-- A frame whose body is as long as its head says. -/
def Fits (size : α → Nat) (p : α × Bytes) : Prop := p.2.length = size p.1

/-- What the reader has taken in, and the rest of the stream, are the frames. -/
structure Reads (c : Codec α) (size : α → Nat) (frames : List (α × Bytes)) (r : FrameReader α)
    (rest : Bytes) : Prop where
  fits : ∀ p ∈ frames, Fits size p
  stream_eq : stream c frames = r.consumed c ++ rest
  /-- A head that was read is that of the first frame. -/
  head_eq : ∀ head got, r = .inBody head got →
    got.length ≤ size head ∧ ∃ p frames', frames = p :: frames' ∧ p.1 = head

namespace Reads

variable {c : Codec α} {size : α → Nat} {frames frames' : List (α × Bytes)} {r : FrameReader α}
  {bytes rest : Bytes}

theorem start (hfits : ∀ p ∈ frames, Fits size p) :
    Reads c size frames (.atHead []) (stream c frames) where
  fits := hfits
  stream_eq := rfl
  head_eq head got h := by cases h

/-- More frames are written. -/
theorem append (h : Reads c size frames r rest) (frames' : List (α × Bytes))
    (hfits : ∀ p ∈ frames', Fits size p) :
    Reads c size (frames ++ frames') r (rest ++ stream c frames') where
  fits p hp := by
    rcases List.mem_append.mp hp with hp | hp
    · exact h.fits p hp
    · exact hfits p hp
  stream_eq := by rw [stream_append, h.stream_eq, List.append_assoc]
  head_eq head got hr := by
    obtain ⟨hle, p, tail, rfl, hp⟩ := h.head_eq head got hr
    exact ⟨hle, p, tail ++ frames', rfl, hp⟩

/-- A head that is complete is that of the first frame. -/
theorem head_complete {got : Bytes} (hpos : 0 < c.size)
    (h : stream c frames = got ++ rest) (hlen : got.length = c.size) :
    ∃ p frames', frames = p :: frames' ∧ got = c.encode p.1 ∧
      p.2 ++ stream c frames' = rest := by
  cases frames with
  | nil =>
      have hnil := congrArg List.length h
      rw [stream_nil, List.length_nil, List.length_append] at hnil
      omega
  | cons p frames =>
      rw [stream_cons] at h
      have hsame : (c.encode p.1).length = got.length := by
        rw [c.length_encode, hlen]
      obtain ⟨hhead, hrest⟩ := List.append_inj h hsame
      exact ⟨p, frames, rfl, hhead.symm, hrest⟩

/-- The reader takes in the next piece of the stream, if it wants that much. -/
theorem push (hpos : 0 < c.size) (h : Reads c size frames r (bytes ++ rest))
    (hwant : bytes.length ≤ r.want c size) : Reads c size frames (r.push c bytes) rest := by
  cases r with
  | atHead got =>
      have hstream : stream c frames = (got ++ bytes) ++ rest := by
        rw [List.append_assoc]
        exact h.stream_eq
      rw [FrameReader.push]
      split
      next hlen =>
        obtain ⟨p, tail, rfl, hgot, hrest⟩ := head_complete hpos hstream hlen
        rw [hgot, c.decode_encode]
        refine ⟨h.fits, ?_, ?_⟩
        · rw [stream_cons, FrameReader.consumed, hrest, List.append_nil]
        · rintro head got' heq
          cases heq
          exact ⟨Nat.zero_le _, p, tail, rfl, rfl⟩
      next => exact ⟨h.fits, hstream, fun _ _ heq => by cases heq⟩
  | inBody head got =>
      obtain ⟨hle, p, tail, rfl, hp⟩ := h.head_eq head got rfl
      refine ⟨h.fits, ?_, ?_⟩
      · rw [h.stream_eq, FrameReader.push, FrameReader.consumed, FrameReader.consumed]
        simp only [List.append_assoc]
      · intro head' got' heq
        cases heq
        refine ⟨?_, p, tail, rfl, hp⟩
        rw [FrameReader.want] at hwant
        rw [List.length_append]
        omega

/-- A complete body is that of the first frame, and the reader starts again. -/
theorem complete {head : α} {got : Bytes} (h : Reads c size frames (.inBody head got) rest)
    (hlen : got.length = size head) :
    ∃ frames', frames = (head, got) :: frames' ∧ Reads c size frames' (.atHead []) rest := by
  obtain ⟨_, ⟨head', body⟩, tail, rfl, rfl⟩ := h.head_eq head got rfl
  have hfit : body.length = size head' := h.fits _ List.mem_cons_self
  have hstream := h.stream_eq
  rw [stream_cons, FrameReader.consumed, List.append_assoc] at hstream
  obtain ⟨hbody, hrest⟩ := List.append_inj (List.append_cancel_left hstream) (hfit.trans hlen.symm)
  have hgot : body = got := hbody
  subst hgot
  refine ⟨tail, rfl, fun p hp => h.fits p (List.mem_cons_of_mem _ hp), hrest, ?_⟩
  intro _ _ heq
  cases heq

end Reads

/-- The frames that the reader has completed are the first ones, and it reads the rest. -/
def Follows (c : Codec α) (size : α → Nat) (frames done : List (α × Bytes)) (r : FrameReader α)
    (rest : Bytes) : Prop :=
  ∃ ahead, frames = done ++ ahead ∧ Reads c size ahead r rest

namespace Follows

variable {c : Codec α} {size : α → Nat} {frames frames' done : List (α × Bytes)}
  {r : FrameReader α} {bytes rest : Bytes}

theorem start : Follows c size [] [] (.atHead []) [] :=
  ⟨[], rfl, Reads.start fun _ hp => by cases hp⟩

theorem append (h : Follows c size frames done r rest) (frames' : List (α × Bytes))
    (hfits : ∀ p ∈ frames', Fits size p) :
    Follows c size (frames ++ frames') done r (rest ++ stream c frames') := by
  obtain ⟨ahead, rfl, hreads⟩ := h
  exact ⟨ahead ++ frames', List.append_assoc _ _ _, hreads.append _ hfits⟩

theorem push (hpos : 0 < c.size) (h : Follows c size frames done r (bytes ++ rest))
    (hwant : bytes.length ≤ r.want c size) : Follows c size frames done (r.push c bytes) rest := by
  obtain ⟨ahead, hframes, hreads⟩ := h
  exact ⟨ahead, hframes, hreads.push hpos hwant⟩

theorem complete {head : α} {got : Bytes} (h : Follows c size frames done (.inBody head got) rest)
    (hlen : got.length = size head) :
    Follows c size frames (done ++ [(head, got)]) (.atHead []) rest := by
  obtain ⟨ahead, hframes, hreads⟩ := h
  obtain ⟨tail, rfl, hnext⟩ := hreads.complete hlen
  exact ⟨tail, by rw [hframes, List.append_assoc, List.singleton_append], hnext⟩

end Follows

end Framing
