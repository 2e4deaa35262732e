import Cococoir.Concurrency.Steps
import Mathlib.Data.List.Infix
import Mathlib.Logic.Function.Basic

/-!
# One relayed connection

An accepted connection is relayed to its destination by two copies, one for each direction, that run
side by side.  A copy moves all bytes up to the end of its stream, and is done then; the first one
that is done ends the connection, and what the other has not moved yet is dropped.

* `step`: what the peers and the two copies do.
* `kept_step`: no byte is lost, duplicated or reordered while both copies run.
* `cutShort`: a response that comes after the request has been relayed is not.
* `relay_delivers`: what arrives, over all schedules.

## What is promised, and what is not

The two directions are two streams that know nothing of each other but for the moment at which one
of them ends.  A stream has the bytes that were sent, those that were read and those that were
written, in this order, and what is written is always a beginning of what was sent: no schedule
changes that, and no size of the reads.  The connection ends with the first copy that has moved
its whole stream.  The other direction is then cut where it is.

So a whole exchange is promised only of the direction that ends first.  The source means it so:
the comment at the `select!` says that the faster direction ends the relay.  `relay_delivers`
states what holds over all schedules, and says of a connection that ended which of its streams
arrived whole.
-/

namespace Cococoir
namespace Forwarder
namespace Relay

open Concurrency

/-- The two ends of a relayed connection. -/
inductive Peer : Type where
  | src | dst
  deriving DecidableEq

def Peer.other : Peer → Peer
  | .src => .dst
  | .dst => .src

/-- The bytes that one peer sends, by how far they have come. -/
structure Stream : Type where
  /-- All that was sent. -/
  sent : List UInt8 := []
  /-- What the copy has not read. -/
  pending : List UInt8 := []
  /-- What the copy has read and not written. -/
  buffer : List UInt8 := []
  /-- What has arrived at the other peer. -/
  received : List UInt8 := []
  /-- Has the sender closed its side? -/
  closed : Bool := false
  deriving DecidableEq

/-- The peer sends some bytes. -/
def Stream.send (s : Stream) (bytes : List UInt8) : Stream :=
  { s with sent := s.sent ++ bytes, pending := s.pending ++ bytes }

/-- The peer closes its sending side. -/
def Stream.close (s : Stream) : Stream := { s with closed := true }

/-- The copy reads up to `n` bytes. -/
def Stream.read (s : Stream) (n : ℕ) : Stream :=
  { s with pending := s.pending.drop n, buffer := s.buffer ++ s.pending.take n }

/-- The copy writes up to `n` bytes. -/
def Stream.write (s : Stream) (n : ℕ) : Stream :=
  { s with buffer := s.buffer.drop n, received := s.received ++ s.buffer.take n }

/-- The copy has moved all bytes up to the end. -/
def Stream.Copied (s : Stream) : Prop := s.closed = true ∧ s.pending = [] ∧ s.buffer = []

instance (s : Stream) : Decidable s.Copied :=
  inferInstanceAs (Decidable (_ = true ∧ _ = ([] : List UInt8) ∧ _ = ([] : List UInt8)))

inductive Phase : Type where
  | dialing : Phase
  /-- The destination does not answer. -/
  | failed : Phase
  | copying : Phase
  /-- A copy is done, and both are dropped. -/
  | ended (first : Peer) : Phase
  deriving DecidableEq

structure Conn : Type where
  stream : Peer → Stream
  phase : Phase

/-- A connection that was just accepted. -/
def Conn.accepted : Conn := ⟨fun _ => {}, .dialing⟩

def Conn.update (c : Conn) (p : Peer) (s : Stream) : Conn :=
  ⟨Function.update c.stream p s, c.phase⟩

inductive Event : Type where
  | send (p : Peer) (bytes : List UInt8) : Event
  | close (p : Peer) : Event
  | dialed : Event
  | dialFails : Event
  | read (p : Peer) (n : ℕ) : Event
  | write (p : Peer) (n : ℕ) : Event
  /-- The copy from a peer has reached the end of the stream. -/
  | copied (p : Peer) : Event
  deriving DecidableEq

def step (c : Conn) : Event → Option Conn
  | .send p bytes =>
    if (c.stream p).closed then none else some (c.update p ((c.stream p).send bytes))
  | .close p => some (c.update p (c.stream p).close)
  | .dialed => if c.phase = .dialing then some ⟨c.stream, .copying⟩ else none
  | .dialFails => if c.phase = .dialing then some ⟨c.stream, .failed⟩ else none
  | .read p n => if c.phase = .copying then some (c.update p ((c.stream p).read n)) else none
  | .write p n => if c.phase = .copying then some (c.update p ((c.stream p).write n)) else none
  | .copied p =>
    -- the first copy that is done cancels the other
    if c.phase = .copying ∧ (c.stream p).Copied then some ⟨c.stream, .ended p⟩ else none

variable {c c' : Conn} {e : Event} {p q : Peer} {es : List Event}

@[simp] theorem update_phase {s : Stream} : (c.update p s).phase = c.phase := rfl

theorem update_stream {s : Stream} : (c.update p s).stream q = if q = p then s else c.stream q :=
  Function.update_apply ..

/-! ## What a step does -/

/-- What a stream keeps: nothing is lost, and a closed one does not grow. -/
structure Kept (s s' : Stream) : Prop where
  bytes : s.received ++ (s.buffer ++ s.pending) = s.sent →
    s'.received ++ (s'.buffer ++ s'.pending) = s'.sent
  arrived : s.received <+: s'.received
  closed : s.closed = true → s'.closed = true ∧ s'.sent = s.sent

theorem Kept.refl (s : Stream) : Kept s s := ⟨id, List.prefix_refl _, fun h => ⟨h, rfl⟩⟩

theorem Kept.trans {s t u : Stream} (h : Kept s t) (h' : Kept t u) : Kept s u where
  bytes := h'.bytes ∘ h.bytes
  arrived := h.arrived.trans h'.arrived
  closed hs := ⟨(h'.closed (h.closed hs).1).1, (h'.closed (h.closed hs).1).2.trans (h.closed hs).2⟩

theorem Stream.kept_send {s : Stream} (h : ¬s.closed) (bytes : List UInt8) : Kept s (s.send bytes) where
  bytes hbytes := by
    rw [send, ← hbytes]
    simp only [List.append_assoc]
  arrived := List.prefix_refl _
  closed hclosed := absurd hclosed h

theorem Stream.kept_close (s : Stream) : Kept s s.close where
  bytes := id
  arrived := List.prefix_refl _
  closed _ := ⟨rfl, rfl⟩

theorem Stream.kept_read (s : Stream) (n : ℕ) : Kept s (s.read n) where
  bytes hbytes := by
    rw [read, List.append_assoc, List.take_append_drop, hbytes]
  arrived := List.prefix_refl _
  closed h := ⟨h, rfl⟩

theorem Stream.kept_write (s : Stream) (n : ℕ) : Kept s (s.write n) where
  bytes hbytes := by
    rw [write, List.append_assoc, ← List.append_assoc (List.take n _), List.take_append_drop, hbytes]
  arrived := List.prefix_append _ _
  closed h := ⟨h, rfl⟩

theorem kept_update {s : Stream} (h : Kept (c.stream p) s) (q : Peer) :
    Kept (c.stream q) ((c.update p s).stream q) := by
  rw [update_stream]
  split_ifs with hq
  · exact hq ▸ h
  · exact Kept.refl _

/-- **No byte is lost**, whatever happens. -/
theorem kept_step (h : step c e = some c') (q : Peer) : Kept (c.stream q) (c'.stream q) := by
  cases e with
  | send p bytes =>
    obtain ⟨hclosed, h⟩ := Option.ite_none_left_eq_some.mp h
    exact Option.some.inj h ▸ kept_update (Stream.kept_send hclosed bytes) q
  | close p => exact Option.some.inj h ▸ kept_update (Stream.kept_close _) q
  | dialed =>
    obtain ⟨-, h⟩ := Option.ite_none_right_eq_some.mp h
    exact Option.some.inj h ▸ Kept.refl _
  | dialFails =>
    obtain ⟨-, h⟩ := Option.ite_none_right_eq_some.mp h
    exact Option.some.inj h ▸ Kept.refl _
  | read p n =>
    obtain ⟨-, h⟩ := Option.ite_none_right_eq_some.mp h
    exact Option.some.inj h ▸ kept_update (Stream.kept_read _ n) q
  | write p n =>
    obtain ⟨-, h⟩ := Option.ite_none_right_eq_some.mp h
    exact Option.some.inj h ▸ kept_update (Stream.kept_write _ n) q
  | copied p =>
    obtain ⟨-, h⟩ := Option.ite_none_right_eq_some.mp h
    exact Option.some.inj h ▸ Kept.refl _

theorem kept_runs (h : runs step c es = some c') (q : Peer) : Kept (c.stream q) (c'.stream q) :=
  runs_relation (fun c c' => Kept (c.stream q) (c'.stream q)) (fun _ => Kept.refl _) Kept.trans
    (fun _ _ _ hstep => kept_step hstep q) h

/-- Once a copy is done nothing arrives. -/
theorem ended_step (h : step c e = some c') {first : Peer} (hphase : c.phase = .ended first) :
    c'.phase = .ended first ∧ ∀ q, (c'.stream q).received = (c.stream q).received := by
  have hupdate : ∀ {p s}, c' = c.update p s → s.received = (c.stream p).received →
      c'.phase = .ended first ∧ ∀ q, (c'.stream q).received = (c.stream q).received := by
    rintro p s rfl hs
    refine ⟨hphase, fun q => ?_⟩
    rw [update_stream]
    split_ifs with hq
    · rw [hs, hq]
    · rfl
  cases e with
  | send p bytes =>
    obtain ⟨-, h⟩ := Option.ite_none_left_eq_some.mp h
    exact hupdate (Option.some.inj h).symm rfl
  | close p => exact hupdate (Option.some.inj h).symm rfl
  | dialed | dialFails | read p n | write p n =>
    obtain ⟨hother, -⟩ := Option.ite_none_right_eq_some.mp h
    rw [hphase] at hother
    cases hother
  | copied p =>
    obtain ⟨⟨hother, -⟩, -⟩ := Option.ite_none_right_eq_some.mp h
    rw [hphase] at hother
    cases hother

theorem ended_runs (h : runs step c es = some c') {first : Peer} (hphase : c.phase = .ended first) :
    c'.phase = .ended first ∧ ∀ q, (c'.stream q).received = (c.stream q).received :=
  runs_invariant
    (fun c' => c'.phase = .ended first ∧ ∀ q, (c'.stream q).received = (c.stream q).received)
    (fun _ _ _ hinv hstep =>
      ⟨(ended_step hstep hinv.1).1, fun q => ((ended_step hstep hinv.1).2 q).trans (hinv.2 q)⟩)
    ⟨hphase, fun _ => rfl⟩ h

/-- A copy that ends the connection has moved its whole stream. -/
theorem ends_step (h : step c e = some c') {first : Peer} (hbefore : c.phase ≠ .ended first)
    (hafter : c'.phase = .ended first) :
    e = .copied first ∧ c.phase = .copying ∧ (c.stream first).Copied ∧ c'.stream = c.stream := by
  cases e with
  | send p bytes =>
    obtain ⟨-, h⟩ := Option.ite_none_left_eq_some.mp h
    cases h
    exact absurd hafter hbefore
  | close p =>
    cases h
    exact absurd hafter hbefore
  | dialed | dialFails =>
    obtain ⟨-, h⟩ := Option.ite_none_right_eq_some.mp h
    cases h
    cases hafter
  | read p n | write p n =>
    obtain ⟨-, h⟩ := Option.ite_none_right_eq_some.mp h
    cases h
    exact absurd hafter hbefore
  | copied p =>
    obtain ⟨⟨hcopying, hcopied⟩, h⟩ := Option.ite_none_right_eq_some.mp h
    cases h
    cases hafter
    exact ⟨rfl, hcopying, hcopied, rfl⟩

/-! ## What arrives -/

/-- All bytes that were sent are accounted for. -/
theorem bytes_runs (h : runs step .accepted es = some c) (q : Peer) :
    (c.stream q).received ++ ((c.stream q).buffer ++ (c.stream q).pending) = (c.stream q).sent :=
  (kept_runs h q).bytes rfl

/-- Each peer has received all that the other one sent. -/
def Conn.Whole (c : Conn) : Prop := ∀ p, (c.stream p).received = (c.stream p).sent

/-- The client sends a request and closes its side, and the response comes when the request has been
relayed. -/
def shortRun : List Event :=
  [.dialed, .send .src [112], .close .src, .read .src 1, .write .src 1, .send .dst [79, 75],
    .close .dst, .copied .src]

/-- The response is lost. -/
theorem cutShort : ∃ c, runs step .accepted shortRun = some c ∧ c.phase = .ended .src ∧
    (c.stream .dst).sent = [79, 75] ∧ (c.stream .dst).received = [] := by
  refine ⟨_, rfl, ?_⟩
  decide

/-- **What arrives**, over all schedules: each peer receives a beginning of what the other one sent.
The direction that is done first arrives whole, and the other one does if and only if all that its
peer ever sends had arrived by then. -/
theorem relay_delivers (h : runs step .accepted es = some c) :
    (∀ p, (c.stream p).received <+: (c.stream p).sent) ∧
      ∀ first, c.phase = .ended first → (c.stream first).received = (c.stream first).sent ∧
        ∃ before after c₀, es = before ++ .copied first :: after ∧
          runs step .accepted before = some c₀ ∧ c₀.phase = .copying ∧
          (c.Whole ↔ (c₀.stream first.other).received = (c.stream first.other).sent) := by
  refine ⟨fun p => ⟨_, bytes_runs h p⟩, fun first hphase => ?_⟩
  obtain ⟨before, e, after, c₀, c₁, rfl, h₀, hstep, h₁, hbefore, hended⟩ :=
    exists_change (Q := fun c => c.phase = .ended first) h nofun hphase
  obtain ⟨rfl, hcopying, ⟨hclosed, hpending, hbuffer⟩, hstream⟩ := ends_step hstep hbefore hended
  have hreceived : ∀ q, (c.stream q).received = (c₀.stream q).received := fun q => by
    rw [(ended_runs h₁ hended).2 q, hstream]
  have hfirst : (c.stream first).received = (c.stream first).sent := by
    have hsent : (c.stream first).sent = (c₀.stream first).sent := by
      rw [← hstream] at hclosed ⊢
      exact ((kept_runs h₁ first).closed hclosed).2
    have hbytes := bytes_runs h₀ first
    rw [hpending, hbuffer, List.append_nil, List.append_nil] at hbytes
    rw [hreceived, hbytes, hsent]
  refine ⟨hfirst, before, after, c₀, rfl, h₀, hcopying, ?_⟩
  rw [← hreceived]
  constructor
  · exact fun hwhole => hwhole first.other
  · intro hother p
    by_cases hp : p = first
    · rw [hp, hfirst]
    · have hp : p = first.other := by
        cases p <;> cases first <;> first | rfl | exact absurd rfl hp
      rw [hp, hother]

/-- The response is relayed before the request's end. -/
def wholeRun : List Event :=
  [.dialed, .send .src [112], .read .src 1, .write .src 1, .send .dst [79, 75], .close .dst,
    .read .dst 2, .write .dst 2, .close .src, .copied .src]

theorem relay_delivers_whole : ∃ c, runs step .accepted wholeRun = some c ∧
    (c.stream .src).received = (c.stream .src).sent ∧ (c.stream .dst).received <+: (c.stream .dst).sent := by
  have h : runs step .accepted wholeRun = some _ := rfl
  exact ⟨_, h, ((relay_delivers h).2 .src rfl).1, (relay_delivers h).1 .dst⟩

end Relay
end Forwarder
end Cococoir
