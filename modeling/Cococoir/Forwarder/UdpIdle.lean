import Cococoir.Concurrency.Steps
import Mathlib.Order.Nat

/-!
# When a UDP flow expires

The relay task of a flow waits for a reply until a deadline, which it computes at the top of its loop
from the time of the last datagram.  The read loop moves that time on with every datagram of the
client, but a relay that waits does not look at it again.

* `step`: what the clock, the read loop and the relay do.
* `timed_runs`: what the deadline says about the datagrams before it was computed.
* `busyClient`: a client that keeps sending loses its flow.
* `expires_idle_iff`: exactly when an expiring flow was idle.

## Where the deadline comes from

There are two clocks in a flow: the time of its last datagram, which the read loop moves on, and
the deadline, which the relay computes at the top of its loop and then sleeps towards.  `Timed`
relates them.  At the top the last activity is the last datagram; while the relay waits, the
deadline is the timeout after the datagram that was the last when it began to wait, and any number
may have come since.  The relay comes back to the top with a reply only.  So a flow that expires
was idle exactly if none of the client's datagrams came while it waited, and a client that sends
and gets no reply loses its flow in the middle.
-/

namespace Cococoir
namespace Forwarder
namespace Udp

open Concurrency

/-- Where the relay task is. -/
inductive Phase : Type where
  /-- At the top of its loop. -/
  | top : Phase
  /-- Waiting for a reply, up to the deadline. -/
  | waiting (deadline : ℕ) : Phase
  /-- Writing a reply back to the client. -/
  | replying : Phase
  | expired : Phase
  /-- Ended by an error or by the shutdown. -/
  | stopped : Phase
  deriving DecidableEq

/-- One flow, at a moment of the clock. -/
structure Flow : Type where
  now : ℕ
  /-- The time of the last activity, which both tasks write. -/
  last : ℕ
  phase : Phase
  /-- When datagrams passed, in either direction. -/
  passed : List ℕ
  /-- When the client's datagrams passed since the deadline was computed. -/
  since : List ℕ
  deriving DecidableEq

/-- A flow that the client's first datagram opened. -/
def Flow.opened (now : ℕ) : Flow := ⟨now, now, .top, [now], []⟩

inductive Event : Type where
  | tick (n : ℕ) : Event
  /-- The read loop takes a datagram of the client, and finds the flow. -/
  | client : Event
  /-- The relay computes its deadline. -/
  | deadline : Event
  /-- The relay takes a reply of the destination. -/
  | reply : Event
  /-- The reply is written, and the activity time moved on. -/
  | replied : Event
  | expire : Event
  | stop : Event
  deriving DecidableEq

def step (idleTimeout : ℕ) (s : Flow) : Event → Option Flow
  | .tick n => some { s with now := s.now + n }
  | .client =>
    match s.phase with
    | .expired | .stopped => none
    | _ => some { s with last := s.now, passed := s.now :: s.passed, since := s.now :: s.since }
  | .deadline =>
    match s.phase with
    | .top => some { s with phase := .waiting (s.now + (idleTimeout - (s.now - s.last))), since := [] }
    | _ => none
  | .reply =>
    match s.phase with
    | .waiting _ => some { s with phase := .replying, passed := s.now :: s.passed }
    | _ => none
  | .replied =>
    match s.phase with
    | .replying => some { s with phase := .top, last := s.now }
    | _ => none
  | .expire =>
    match s.phase with
    | .waiting deadline => if deadline ≤ s.now then some { s with phase := .expired } else none
    | _ => none
  | .stop =>
    match s.phase with
    | .waiting _ | .replying => some { s with phase := .stopped }
    | _ => none

variable {idleTimeout start : ℕ} {s s' : Flow} {e : Event} {es : List Event}

/-! ## The deadline -/

/-- What the times say: at the top of the loop the last activity is the last datagram, and a deadline
is late enough for all datagrams but the client's later ones. -/
structure Timed (idleTimeout : ℕ) (s : Flow) : Prop where
  last : s.last ≤ s.now
  passed : ∀ p ∈ s.passed, p ≤ s.now
  since : ∀ p ∈ s.since, p ∈ s.passed
  top : s.phase = .top → ∀ p ∈ s.passed, p ≤ s.last
  waiting : ∀ deadline, s.phase = .waiting deadline →
    ∀ p ∈ s.passed, p ∈ s.since ∨ p + idleTimeout ≤ deadline

theorem timed_opened : Timed idleTimeout (Flow.opened start) where
  last := le_rfl
  passed p hp := (List.mem_singleton.mp hp).le
  since p hp := by cases hp
  top _ p hp := (List.mem_singleton.mp hp).le
  waiting deadline h := by cases h

theorem timed_step (hs : Timed idleTimeout s) (h : step idleTimeout s e = some s') :
    Timed idleTimeout s' := by
  obtain ⟨hlast, hpassed, hsince, htop, hwaiting⟩ := hs
  cases e with
  | tick n =>
    cases h
    exact ⟨Nat.le_add_right_of_le hlast, fun p hp => Nat.le_add_right_of_le (hpassed p hp), hsince,
      htop, hwaiting⟩
  | client =>
    have hs' : s' = { s with last := s.now, passed := s.now :: s.passed, since := s.now :: s.since } := by
      dsimp only [step] at h
      split at h
      · cases h
      · cases h
      · exact (Option.some.inj h).symm
    subst hs'
    refine ⟨le_rfl, List.forall_mem_cons.mpr ⟨le_rfl, hpassed⟩, fun p hp => ?_,
      fun _ => List.forall_mem_cons.mpr ⟨le_rfl, hpassed⟩, fun deadline hphase => ?_⟩
    · exact (List.mem_cons.mp hp).elim (fun h => h ▸ List.mem_cons_self)
        fun h => List.mem_cons_of_mem _ (hsince p h)
    · refine List.forall_mem_cons.mpr ⟨.inl List.mem_cons_self, fun p hp => ?_⟩
      exact (hwaiting deadline hphase p hp).imp_left (List.mem_cons_of_mem _)
  | deadline =>
    dsimp only [step] at h
    split at h
    · rename_i hphase
      cases h
      refine ⟨hlast, hpassed, nofun, nofun, fun deadline hdeadline p hp => .inr ?_⟩
      -- the whole timeout from the last activity, or none of it if that is over
      have hp : p ≤ s.last := htop hphase p hp
      cases hdeadline
      omega
    · cases h
  | reply =>
    dsimp only [step] at h
    split at h
    · cases h
      exact ⟨hlast, List.forall_mem_cons.mpr ⟨le_rfl, hpassed⟩,
        fun p hp => List.mem_cons_of_mem _ (hsince p hp), nofun, nofun⟩
    · cases h
  | replied =>
    dsimp only [step] at h
    split at h
    · cases h
      exact ⟨le_rfl, hpassed, hsince, fun _ => hpassed, nofun⟩
    · cases h
  | expire =>
    dsimp only [step] at h
    split at h
    · split_ifs at h
      cases h
      exact ⟨hlast, hpassed, hsince, nofun, nofun⟩
    · cases h
  | stop =>
    dsimp only [step] at h
    split at h
    · cases h
      exact ⟨hlast, hpassed, hsince, nofun, nofun⟩
    · cases h
      exact ⟨hlast, hpassed, hsince, nofun, nofun⟩
    · cases h

theorem timed_runs (h : runs (step idleTimeout) (.opened start) es = some s) : Timed idleTimeout s :=
  runs_invariant (Timed idleTimeout) (fun _ _ _ => timed_step) timed_opened h

/-! ## Expiry -/

/-- No datagram passed within the timeout. -/
def Flow.Idle (idleTimeout : ℕ) (s : Flow) : Prop := ∀ p ∈ s.passed, p + idleTimeout ≤ s.now

/-- A flow with a timeout of 300 whose client sends every 100, and gets no reply. -/
def busyRun : List Event := [.deadline, .tick 100, .client, .tick 100, .client, .tick 100]

/-- The flow expires 100 after its client's last datagram. -/
theorem busyClient : ∃ s s', runs (step 300) (.opened 0) busyRun = some s ∧
    step 300 s .expire = some s' ∧ ¬s.Idle 300 := by
  refine ⟨_, _, rfl, rfl, fun h => ?_⟩
  exact absurd (h 200 (by decide)) (by decide)

/-- **When an expiring flow was idle**: if and only if no datagram of the client passed within the
timeout while the relay waited for the last time. -/
theorem expires_idle_iff (h : runs (step idleTimeout) (.opened start) es = some s)
    (hexpire : step idleTimeout s .expire = some s') :
    s.Idle idleTimeout ↔ ∀ p ∈ s.since, p + idleTimeout ≤ s.now := by
  have htimed := timed_runs h
  obtain ⟨deadline, hphase, hdue⟩ : ∃ deadline, s.phase = .waiting deadline ∧ deadline ≤ s.now := by
    dsimp only [step] at hexpire
    split at hexpire
    · rename_i deadline hphase
      split_ifs at hexpire with hdue
      exact ⟨deadline, hphase, hdue⟩
    · cases hexpire
  constructor
  · exact fun hidle p hp => hidle p (htimed.since p hp)
  · intro hsince p hp
    rcases htimed.waiting deadline hphase p hp with hp | hp
    · exact hsince p hp
    · exact hp.trans hdue

/-- A flow whose client is silent after a reply. -/
def silentRun : List Event :=
  [.deadline, .tick 100, .client, .tick 50, .reply, .replied, .deadline, .tick 300]

/-- The flow when its deadline has come. -/
def silentFlow : Flow := ⟨450, 150, .waiting 450, [150, 100, 0], []⟩

theorem expires_idle_iff_silent :
    runs (step 300) (.opened 0) silentRun = some silentFlow ∧ silentFlow.Idle 300 := by
  have hruns : runs (step 300) (.opened 0) silentRun = some silentFlow := by decide
  have hexpire : step 300 silentFlow .expire = some { silentFlow with phase := .expired } := by decide
  exact ⟨hruns, (expires_idle_iff hruns hexpire).mpr nofun⟩

end Udp
end Forwarder
end Cococoir
