import Cococoir.Concurrency.Steps
import Cococoir.ControlPlane.Calls

/-!
# Keys that expire

`SETEX` and `SET … EX` give a key a time to live, every other command that stores drops it, and a
key whose time has come is not there any more.  `Clocked` is the server together with a clock and
with the times at which the keys will be gone.  Its events are those of the server, and that time
passes.

* `KeyOp.expires`: what a command does to the time at which its key is gone.
* `Clocked.step`: one event.
* `Clocked.step_serve`: what a command of a thread does.

## Time beside the store

Only what expires needs a clock, and most results do not: there an invite stays until it is
deleted.  Here a beat is an event of the server or the passing of time, and for each key there is
the time at which it will be gone, if it has one.  When time passes, the keys whose time has come
go.  The server inside is the one of the other modules, so the programs and what is known of their
commands are the same.

Time is a number of seconds, and it passes between commands and not in them.
-/

namespace Cococoir

/-- When the key is gone, once a command was executed at `now`. -/
def Redis.KeyOp.expires {V : Type} (now : ℕ) (isThere : Bool) (old : Option ℕ) :
    Redis.KeyOp V → Option ℕ
  | .get | .isThere => old
  | .set _ => none
  | .setEx _ ttl => some (now + ttl)
  | .setNx _ => if isThere then old else none
  | .setNxEx _ ttl => if isThere then old else some (now + ttl)
  | .del | .getDel => none

namespace ControlPlane

open Concurrency

/-- The times at which the keys will be gone, for those that have one. -/
abbrev Expiries : Type := Family → String → Option ℕ

/-- One key's time is another. -/
def Expiries.put (x : Expiries) (f : Family) (n : String) (time : Option ℕ) : Expiries :=
  fun f' n' => if f' = f ∧ n' = n then time else x f' n'

theorem Expiries.put_self {x : Expiries} {f : Family} {n : String} {time : Option ℕ} :
    x.put f n time f n = time := if_pos ⟨rfl, rfl⟩

theorem Expiries.put_of_ne {x : Expiries} {f f' : Family} {n n' : String} {time : Option ℕ}
    (h : ¬(f' = f ∧ n' = n)) : x.put f n time f' n' = x f' n' := if_neg h

/-- The times after a command that is executed.  The list and the counter have none. -/
def RedisOp.expires (now : ℕ) (w : World) (x : Expiries) : RedisOp → Expiries
  | .machine n op => x.put .machine n (op.expires now (w.machines n).isSome (x .machine n))
  | .index _ => x
  | .alloc _ => x
  | .invite n op => x.put .invite n (op.expires now (w.invites n).isSome (x .invite n))
  | .delivery n op => x.put .delivery n (op.expires now (w.deliveries n).isSome (x .delivery n))
  | .account n op => x.put .account n (op.expires now (w.accounts n).isSome (x .account n))
  | .verify n op => x.put .verify n (op.expires now (w.verifies n).isSome (x .verify n))
  | .reset n op => x.put .reset n (op.expires now (w.resets n).isSome (x .reset n))
  | .session n op => x.put .session n (op.expires now (w.sessions n).isSome (x .session n))

def Cmd.expires (now : ℕ) (w : World) (x : Expiries) : Cmd → Expiries
  | .redis op => op.expires now w x
  | _ => x

/-- The world without the keys that are gone. -/
def World.without (w : World) (gone : Family → String → Bool) : World :=
  { w with
    machines := fun n => if gone .machine n then none else w.machines n
    invites := fun n => if gone .invite n then none else w.invites n
    deliveries := fun n => if gone .delivery n then none else w.deliveries n
    accounts := fun n => if gone .account n then none else w.accounts n
    verifies := fun n => if gone .verify n then none else w.verifies n
    resets := fun n => if gone .reset n then none else w.resets n
    sessions := fun n => if gone .session n then none else w.sessions n }

/-- The server, the time in seconds, and the times at which the keys will be gone. -/
structure Clocked where
  server : Server
  now : ℕ
  expires : Expiries

/-- Nothing stored and nothing begun. -/
def Clocked.empty : Clocked := ⟨⟨World.empty, []⟩, 0, fun _ _ => none⟩

/-- What happens next: time passes, or the server goes on. -/
inductive Beat : Type where
  | pass (seconds : ℕ) : Beat
  | serve (tick : Tick) : Beat

/-- Whether a key is gone at a time. -/
def Expiries.gone (x : Expiries) (now : ℕ) (f : Family) (n : String) : Bool :=
  (x f n).any fun time => decide (time ≤ now)

/-- One event. -/
def Clocked.step (cp : ControlPlane) (σ : Clocked) : Beat → Option Clocked
  | .pass seconds =>
    let gone := σ.expires.gone (σ.now + seconds)
    some ⟨⟨σ.server.world.without gone, σ.server.pool⟩, σ.now + seconds,
      fun f n => if gone f n then none else σ.expires f n⟩
  | .serve (.start call) =>
    some { σ with server := Conf.next Cmd.exec cp.body σ.server (.start call) }
  | .serve (.step i ch) =>
    match σ.server.pool[i]?.bind Thread.pending with
    | none => none
    | some c => some { σ with
        server := Conf.next Cmd.exec cp.body σ.server (.step i ch)
        -- a command that fails is not executed
        expires := if ch.fails then σ.expires else c.expires σ.now σ.server.world σ.expires }

/-- The command that an event executes. -/
def Clocked.executed (σ : Clocked) : Beat → Option Cmd
  | .serve (.step i ch) => if ch.fails then none else σ.server.pool[i]?.bind Thread.pending
  | _ => none

variable {cp : ControlPlane} {σ σ' : Clocked} {i : ℕ} {ch : Choice}

/-- **A command of a thread.** -/
theorem Clocked.step_serve (h : σ.step cp (.serve (.step i ch)) = some σ') :
    ∃ t c k, σ.server.pool[i]? = some t ∧ t.prog = .cmd c k ∧
      σ.executed (.serve (.step i ch)) = (if ch.fails then none else some c) ∧
      σ' = ⟨⟨(Cmd.exec ch c σ.server.world).2,
          σ.server.pool.set i (t.resume c k (Cmd.exec ch c σ.server.world).1)⟩, σ.now,
        if ch.fails then σ.expires else c.expires σ.now σ.server.world σ.expires⟩ := by
  dsimp only [step] at h
  split at h
  case h_1 => cases h
  case h_2 c hpending =>
    obtain ⟨t, hi, ht⟩ := Option.bind_eq_some_iff.mp hpending
    cases hprog : t.prog with
    | done o => simp [Thread.pending, hprog] at ht
    | cmd c' k =>
      obtain rfl : c' = c := by simpa [Thread.pending, hprog] using ht
      refine ⟨t, c', k, hi, hprog, ?_, ?_⟩
      · rw [executed, hpending]
      · rw [Conf.next_step hi hprog] at h
        exact (Option.some.inj h).symm

end ControlPlane
end Cococoir
