import Cococoir.Concurrency.Protocol

/-!
# The live forwarder

What the tasks of one process do to add and remove forwards while it runs: the map of task
handles, the map of stats rows, and the serve tasks themselves.  Adding a forward looks for its
handle, binds, records the row, spawns the serve task and registers its handle, each under a
lock of its own or under none; removing one takes the handle, aborts the task and drops the row.
A serve task ends by itself when its accept fails, which is a move of the environment.

## The dictionary

The source has a forwarder behind a shared pointer, with a map of handles and a map of stats rows
behind a lock each.  Here these are two maps and the serve tasks that run, in one state; taking a
lock, doing one thing and releasing it is one command, so what two tasks can do between each
other's steps is what the locks allow.  `add_forward` is `addForward`, with its commands in the
source's order: it is between two of them that another task comes in.

A bind may fail, or may give the port that a `:0` asked for; both are the kernel's choice.  The
key of a forward is its protocol and the address it was asked to listen on, and two forwards with
one key differ in their destination at most.
-/

namespace Cococoir
namespace Forwarder

open Concurrency

/-! ## Forwards and their rows -/

inductive Proto : Type where
  | tcp | udp
  deriving DecidableEq

def Proto.asStr : Proto → String
  | .tcp => "tcp"
  | .udp => "udp"

structure Forward where
  listenAddr : String
  proto : Proto
  destAddr : String
  deriving DecidableEq

/-- Map key of a forward: `proto://listen_addr`. -/
def forwardKey (fwd : Forward) : String := s!"{fwd.proto.asStr}://{fwd.listenAddr}"

/-- A bind failure that survived retry, or was never retryable. -/
inductive BindError : Type where
  | nonTransient (network addr source : String) : BindError
  | timedOut (network addr timeout : String) (attempts : ℕ) (source : String) : BindError
  | cancelled : BindError
  deriving DecidableEq

def BindError.display : BindError → String
  | .nonTransient network addr source => s!"listen {network} {addr}: {source}"
  | .timedOut network addr timeout attempts source =>
    s!"listen {network} {addr}: gave up after {timeout} ({attempts} attempts): {source}"
  | .cancelled => "bind cancelled before the address became available"

/-- Why a forward was not added. -/
structure RunError where
  proto : String
  addr : String
  source : BindError
  deriving DecidableEq

def RunError.display (e : RunError) : String :=
  s!"forwarder: start {e.proto} {e.addr}: {e.source.display}"

/-- The stats row of a forward. -/
structure ForwardStat where
  proto : Proto
  listenAddr : String
  destAddr : String
  bound : Bool
  lastError : Option String
  deriving DecidableEq

/-- A serve task: it accepts on the listener that was bound for its forward, and relays to the
forward's destination. -/
structure ServeTask where
  fwd : Forward
  /-- The address its socket listens on. -/
  localAddr : String
  deriving DecidableEq

/-- What the tasks of the process share. -/
structure State where
  /-- The stats rows. -/
  forwards : String → Option ForwardStat
  /-- The abort handles, by the task they abort. -/
  handles : String → Option ℕ
  /-- The serve tasks that run. -/
  tasks : ℕ → Option ServeTask
  /-- How many tasks have been spawned. -/
  spawned : ℕ

/-- A forwarder that starts with zero forwards. -/
def State.live : State where
  forwards _ := none
  handles _ := none
  tasks _ := none
  spawned := 0

/-! ## Commands -/

/-- One atomic action on the state. -/
inductive Cmd : Type where
  /-- Is a handle registered under the key? -/
  | abortHandlePeek (key : String) : Cmd
  /-- Bind the listener, with all retries. -/
  | bind (fwd : Forward) : Cmd
  | recordBound (fwd : Forward) (localAddr : String) : Cmd
  | recordBindError (fwd : Forward) (err : BindError) : Cmd
  /-- Spawn the serve task. -/
  | spawn (fwd : Forward) (localAddr : String) : Cmd
  | insertHandle (key : String) (task : ℕ) : Cmd
  /-- Remove the handle from the map. -/
  | takeHandle (key : String) : Cmd
  | abort (task : ℕ) : Cmd
  /-- Drop the stats row. -/
  | removeStat (key : String) : Cmd
  /-- The task's accept fails, and the task returns. -/
  | acceptFails (task : ℕ) : Cmd
  deriving DecidableEq

@[reducible] def Cmd.Resp : Cmd → Type
  | .abortHandlePeek _ => Bool
  | .bind _ => Except BindError String
  | .recordBound _ _ => Unit
  | .recordBindError _ _ => Unit
  | .spawn _ _ => ℕ
  | .insertHandle _ _ => Unit
  | .takeHandle _ => Option ℕ
  | .abort _ => Unit
  | .removeStat _ => Unit
  | .acceptFails _ => Unit

/-- What the kernel decides about a bind: the error, or the address a `:0` resolves to. -/
structure Choice where
  bindError : Option BindError := none
  localAddr : Option String := none

instance : Inhabited Choice := ⟨{}⟩

def Cmd.exec (ch : Choice) : (c : Cmd) → State → c.Resp × State
  | .abortHandlePeek key, σ => ((σ.handles key).isSome, σ)
  | .bind fwd, σ =>
    match ch.bindError with
    | some err => (.error err, σ)
    | none => (.ok (ch.localAddr.getD fwd.listenAddr), σ)
  | .recordBound fwd localAddr, σ =>
    ((), { σ with
      forwards := Function.update σ.forwards (forwardKey fwd)
        (some ⟨fwd.proto, localAddr, fwd.destAddr, true, none⟩) })
  | .recordBindError fwd err, σ =>
    ((), { σ with
      forwards := Function.update σ.forwards (forwardKey fwd)
        (some ⟨fwd.proto, fwd.listenAddr, fwd.destAddr, false, some err.display⟩) })
  | .spawn fwd localAddr, σ =>
    (σ.spawned, { σ with
      tasks := Function.update σ.tasks σ.spawned (some ⟨fwd, localAddr⟩),
      spawned := σ.spawned + 1 })
  | .insertHandle key task, σ =>
    ((), { σ with handles := Function.update σ.handles key (some task) })
  | .takeHandle key, σ =>
    (σ.handles key, { σ with handles := Function.update σ.handles key none })
  | .abort task, σ => ((), { σ with tasks := Function.update σ.tasks task none })
  | .removeStat key, σ => ((), { σ with forwards := Function.update σ.forwards key none })
  | .acceptFails task, σ => ((), { σ with tasks := Function.update σ.tasks task none })

/-! ## Programs -/

/-- Add a forward at runtime.  One that is already there is left alone. -/
def addForward (fwd : Forward) : Prog Cmd Cmd.Resp RunError Unit := do
  let isThere ← Prog.issue (Cmd.abortHandlePeek (forwardKey fwd))
  if isThere then return ()
  else do
    match ← Prog.issue (Cmd.bind fwd) with
    | .error source => do
      let _ ← Prog.issue (Cmd.recordBindError fwd source)
      .throw ⟨fwd.proto.asStr, fwd.listenAddr, source⟩
    | .ok localAddr => do
      let _ ← Prog.issue (Cmd.recordBound fwd localAddr)
      let task ← Prog.issue (Cmd.spawn fwd localAddr)
      let _ ← Prog.issue (Cmd.insertHandle (forwardKey fwd) task)
      return ()

/-- Remove a live forward; whether there was one. -/
def removeForward (fwd : Forward) : Prog Cmd Cmd.Resp RunError Bool := do
  match ← Prog.issue (Cmd.takeHandle (forwardKey fwd)) with
  | none => return false
  | some task => do
    let _ ← Prog.issue (Cmd.abort task)
    let _ ← Prog.issue (Cmd.removeStat (forwardKey fwd))
    return true

inductive Call : Type where
  | add (fwd : Forward) : Call
  | remove (fwd : Forward) : Call
  /-- The environment's move: a serve task's accept fails. -/
  | acceptFails (task : ℕ) : Call
  deriving DecidableEq

inductive Reply : Type where
  | unit : Reply
  | existed (there : Bool) : Reply
  deriving DecidableEq

def body : Call → Prog Cmd Cmd.Resp RunError Reply
  | .add fwd => (addForward fwd).bimap id fun _ => .unit
  | .remove fwd => (removeForward fwd).bimap id .existed
  | .acceptFails task => (Prog.issue (Cmd.acceptFails task)).bimap id fun _ => .unit

/-- A call in progress. -/
abbrev Worker : Type := Thread Call Cmd Cmd.Resp RunError Reply

/-- The state and the calls accepted so far. -/
abbrev Process : Type := Conf State Call Cmd Cmd.Resp RunError Reply

/-- What the scheduler does next. -/
abbrev Tick : Type := Event Call Choice

/-- The process after a schedule. -/
abbrev Process.run (σ : Process) (ticks : List Tick) : Process := Conf.run Cmd.exec body σ ticks

/-- A schedule whose every event meets a condition. -/
abbrev Process.Admissible (allowed : Process → Tick → Prop) (σ : Process) (ticks : List Tick) :
    Prop :=
  Conf.Admissible Cmd.exec body allowed σ ticks

/-- The process before its first call. -/
def Process.init : Process := ⟨.live, []⟩

/-! ## Keys -/

/-- Forwards with one key differ in their destination at most. -/
theorem forwardKey_eq {f g : Forward} (h : forwardKey f = forwardKey g) :
    f.proto = g.proto ∧ f.listenAddr = g.listenAddr := by
  have hchars : ∀ f : Forward, (forwardKey f).toList =
      f.proto.asStr.toList ++ ("://".toList ++ f.listenAddr.toList) := by
    intro f
    have hself : ∀ s : String, toString s = s := fun _ => rfl
    simp [forwardKey, hself]
  have hlen : ∀ p : Proto, p.asStr.toList.length = 3 := by
    intro p
    cases p <;> rfl
  have hinj : ∀ p q : Proto, p.asStr.toList = q.asStr.toList → p = q := by
    intro p q
    cases p <;> cases q <;> decide
  have h := congrArg String.toList h
  rw [hchars, hchars] at h
  obtain ⟨hproto, hrest⟩ := List.append_inj h (by rw [hlen, hlen])
  exact ⟨hinj _ _ hproto, String.toList_injective (List.append_cancel_left hrest)⟩

/-- The key and the destination are the forward. -/
theorem Forward.eq_of_key {f g : Forward} (h : forwardKey f = forwardKey g)
    (hdest : f.destAddr = g.destAddr) : f = g := by
  obtain ⟨hproto, hlisten⟩ := forwardKey_eq h
  obtain ⟨_, _, _⟩ := f
  obtain ⟨_, _, _⟩ := g
  simp only at hproto hlisten hdest
  rw [hproto, hlisten, hdest]

end Forwarder
end Cococoir
