import Cococoir.Concurrency.Steps
import Cococoir.Forwarder.Live

/-!
# The shutdown of a forwarder

`run` binds the configured forwards and serves them until the shutdown is signalled; then it signals the
forwards that were added live, closes its tracker and waits, up to a timeout, until the tracker is
empty.  The serve tasks of the configured forwards and their connections are in that tracker.  A forward
that is added live has a tracker of its own, for which nobody waits.

* `step`: the run, the calls that add forwards, the serve tasks and the connections, one action at a time,
  and `acts_of_step`, what each does.
* `Tracked`: the tracker counts what is left of the configured forwards.
* `stopped_runs`: a serve task that has seen the signal accepts nothing any more.
* `undrained`: a connection of a live forward is not waited for.
* `run_drains_iff`: what holds when the run returns.
-/

namespace Cococoir
namespace Forwarder
namespace Drain

open Concurrency

structure Config : Type where
  forwards : List Forward
  shutdownTimeout : ℕ

/-- How a forward came to be served. -/
inductive Origin : Type where
  /-- It is configured, and the run serves it. -/
  | static : Origin
  | live : Origin
  deriving DecidableEq

inductive ServePhase : Type where
  /-- The destination of a UDP forward is being looked up. -/
  | resolving : ServePhase
  | waiting : ServePhase
  /-- A connection, or the first datagram of a flow, was taken. -/
  | taken : ServePhase
  | stopped : ServePhase
  deriving DecidableEq

structure Serve : Type where
  origin : Origin
  proto : Proto
  phase : ServePhase
  deriving DecidableEq

/-- The task of a connection or of a flow. -/
structure Task : Type where
  origin : Origin
  proto : Proto
  running : Bool
  deriving DecidableEq

/-- Where a call that adds a forward is. -/
inductive AddPhase : Type where
  /-- Binding its listener, with a receiver of the shutdown. -/
  | binding : AddPhase
  /-- Bound, and its serve task is not spawned yet. -/
  | bound : AddPhase
  | done : AddPhase
  deriving DecidableEq

inductive RunPhase : Type where
  /-- So many forwards are bound. -/
  | binding (bound : ℕ) : RunPhase
  | waiting : RunPhase
  /-- The signal was observed at a time. -/
  | observed (since : ℕ) : RunPhase
  /-- Waiting for the tracker. -/
  | draining (since deadline : ℕ) : RunPhase
  /-- A bind failed. -/
  | failed : RunPhase
  | returned (since : ℕ) : RunPhase
  deriving DecidableEq

structure State : Type where
  now : ℕ
  /-- Was the shutdown signalled to the run? -/
  shutdown : Bool
  /-- Was it passed on to the live forwards? -/
  liveShutdown : Bool
  run : RunPhase
  /-- How many tasks are in the tracker of the run. -/
  tracker : ℕ
  serves : List Serve
  tasks : List Task
  adds : List (Proto × AddPhase)
  deriving DecidableEq

def State.init : State := ⟨0, false, false, .binding 0, 0, [], [], []⟩

/-- A serve task begins by looking up where it is to send datagrams. -/
def Serve.spawned (origin : Origin) (p : Proto) : Serve :=
  ⟨origin, p, if p = .udp then .resolving else .waiting⟩

/-- A task is spawned on the tracker of its forward. -/
def State.track (s : State) (origin : Origin) : State :=
  if origin = .static then { s with tracker := s.tracker + 1 } else s

/-- A task ends. -/
def State.untrack (s : State) (origin : Origin) : State :=
  if origin = .static then { s with tracker := s.tracker - 1 } else s

/-- Does a serve task see the shutdown? -/
def State.signalled (s : State) : Origin → Bool
  | .static => s.shutdown
  | .live => s.liveShutdown

/-- Is anyone receiving the shutdown of the live forwards?  The serve tasks are, the flows are, and so is
every bind. -/
def State.received (s : State) : Bool :=
  (s.serves.any fun v => v.origin = .live && v.phase ≠ .stopped) ||
  (s.tasks.any fun t => t.origin = .live && t.proto = .udp && t.running) ||
  s.adds.any fun a => a.2 = .binding

def State.setServe (s : State) (l : ℕ) (v : Serve) : State := { s with serves := s.serves.set l v }

def State.setTask (s : State) (i : ℕ) (t : Task) : State := { s with tasks := s.tasks.set i t }

def State.setAdd (s : State) (a : ℕ) (p : Proto × AddPhase) : State := { s with adds := s.adds.set a p }

def State.addServe (s : State) (v : Serve) : State := { s with serves := s.serves ++ [v] }

def State.addTask (s : State) (t : Task) : State := { s with tasks := s.tasks ++ [t] }

def State.setRun (s : State) (phase : RunPhase) : State := { s with run := phase }

inductive Event : Type where
  | tick (d : ℕ) : Event
  /-- The shutdown is signalled, or its sender is gone. -/
  | signal : Event
  /-- The run binds its next forward, and spawns its serve task. -/
  | bound : Event
  | bindFails : Event
  | allBound : Event
  | observe : Event
  | propagate : Event
  /-- The tracker is closed, and empty. -/
  | drained : Event
  | timedOut : Event
  | addBegins (p : Proto) : Event
  | addFails (a : ℕ) : Event
  | addBound (a : ℕ) : Event
  | addSpawns (a : ℕ) : Event
  | resolved (l : ℕ) : Event
  /-- A connection is accepted, or a datagram is read whose source has no flow. -/
  | accept (l : ℕ) : Event
  | openFails (l : ℕ) : Event
  | spawn (l : ℕ) : Event
  /-- A serve task sees the shutdown. -/
  | stop (l : ℕ) : Event
  /-- A serve task ends by an error, or because its forward is removed. -/
  | ends (l : ℕ) : Event
  | taskEnds (i : ℕ) : Event
  deriving DecidableEq

variable (cfg : Config)

def step (s : State) : Event → Option State
  | .tick d => some { s with now := s.now + d }
  | .signal => some { s with shutdown := true }
  | .bound =>
    match s.run with
    | .binding k =>
      cfg.forwards[k]?.map fun fwd =>
        ((s.track .static).addServe (.spawned .static fwd.proto)).setRun (.binding (k + 1))
    | _ => none
  | .bindFails =>
    match s.run with
    | .binding k => if k < cfg.forwards.length then some (s.setRun .failed) else none
    | _ => none
  | .allBound => if s.run = .binding cfg.forwards.length then some (s.setRun .waiting) else none
  | .observe =>
    if s.run = .waiting ∧ s.shutdown = true then some (s.setRun (.observed s.now)) else none
  | .propagate =>
    match s.run with
    | .observed since =>
      -- without a receiver, the signal is not sent
      some ({ s with liveShutdown := s.liveShutdown || s.received }.setRun
        (.draining since (s.now + cfg.shutdownTimeout)))
    | _ => none
  | .drained =>
    match s.run with
    | .draining since _ => if s.tracker = 0 then some (s.setRun (.returned since)) else none
    | _ => none
  | .timedOut =>
    match s.run with
    | .draining since deadline =>
      if deadline ≤ s.now then some (s.setRun (.returned since)) else none
    | _ => none
  | .addBegins p => some { s with adds := s.adds ++ [(p, .binding)] }
  | .addFails a =>
    match s.adds[a]? with
    | some (p, .binding) => some (s.setAdd a (p, .done))
    | _ => none
  | .addBound a =>
    match s.adds[a]? with
    | some (p, .binding) => some (s.setAdd a (p, .bound))
    | _ => none
  | .addSpawns a =>
    match s.adds[a]? with
    | some (p, .bound) => some ((s.setAdd a (p, .done)).addServe (.spawned .live p))
    | _ => none
  | .resolved l =>
    match s.serves[l]? with
    | some ⟨o, p, .resolving⟩ => some (s.setServe l ⟨o, p, .waiting⟩)
    | _ => none
  | .accept l =>
    match s.serves[l]? with
    | some ⟨o, p, .waiting⟩ => some (s.setServe l ⟨o, p, .taken⟩)
    | _ => none
  | .openFails l =>
    match s.serves[l]? with
    | some ⟨o, .udp, .taken⟩ => some (s.setServe l ⟨o, .udp, .waiting⟩)
    | _ => none
  | .spawn l =>
    match s.serves[l]? with
    | some ⟨o, p, .taken⟩ =>
      some (((s.track o).addTask ⟨o, p, true⟩).setServe l ⟨o, p, .waiting⟩)
    | _ => none
  | .stop l =>
    match s.serves[l]? with
    | some ⟨o, p, .waiting⟩ =>
      if s.signalled o then some ((s.untrack o).setServe l ⟨o, p, .stopped⟩) else none
    | _ => none
  | .ends l =>
    match s.serves[l]? with
    | some ⟨o, p, .resolving⟩ | some ⟨o, p, .waiting⟩ => some ((s.untrack o).setServe l ⟨o, p, .stopped⟩)
    -- a live forward can be removed while it opens a flow
    | some ⟨.live, .udp, .taken⟩ => some (s.setServe l ⟨.live, .udp, .stopped⟩)
    | _ => none
  | .taskEnds i =>
    match s.tasks[i]? with
    | some ⟨o, p, true⟩ => some ((s.untrack o).setTask i ⟨o, p, false⟩)
    | _ => none

/-! ## What is to hold -/

/-- When the run observed the signal. -/
def RunPhase.since : RunPhase → Option ℕ
  | .observed since | .draining since _ | .returned since => some since
  | _ => none

/-- No connection and no flow is left. -/
def State.Idle (s : State) : Prop := ∀ t ∈ s.tasks, t.running = false

/-- None is left of a live forward. -/
def State.LiveIdle (s : State) : Prop := ∀ t ∈ s.tasks, t.origin = .live → t.running = false

/-- The timeout has passed since the run observed the signal. -/
def State.TimedOut (s : State) : Prop :=
  ∃ since, s.run.since = some since ∧ since + cfg.shutdownTimeout ≤ s.now

/-- What is to hold when the run returns. -/
def State.Drained (s : State) : Prop := s.Idle ∨ s.TimedOut cfg

/-- The run returns, and not with an error. -/
def Event.Returns (e : Event) : Prop := e = .drained ∨ e = .timedOut

/-! ## The actions -/

variable {cfg} {s s' : State} {e : Event} {es : List Event} {v v' : Serve} {t t' : Task} {l i : ℕ}

/-- What one action does, and when it can happen. -/
inductive Acts (cfg : Config) (s : State) : Event → State → Prop
  | tick (d : ℕ) : Acts cfg s (.tick d) { s with now := s.now + d }
  | signal : Acts cfg s .signal { s with shutdown := true }
  | bound {k : ℕ} {fwd : Forward} (hrun : s.run = .binding k) (hfwd : cfg.forwards[k]? = some fwd) :
      Acts cfg s .bound
        (((s.track .static).addServe (.spawned .static fwd.proto)).setRun (.binding (k + 1)))
  | bindFails : Acts cfg s .bindFails (s.setRun .failed)
  | allBound : Acts cfg s .allBound (s.setRun .waiting)
  | observe : Acts cfg s .observe (s.setRun (.observed s.now))
  | propagate {since : ℕ} (hrun : s.run = .observed since) : Acts cfg s .propagate
      ({ s with liveShutdown := s.liveShutdown || s.received }.setRun
        (.draining since (s.now + cfg.shutdownTimeout)))
  | drained {since deadline : ℕ} (hrun : s.run = .draining since deadline) (hzero : s.tracker = 0) :
      Acts cfg s .drained (s.setRun (.returned since))
  | timedOut {since deadline : ℕ} (hrun : s.run = .draining since deadline)
      (hdeadline : deadline ≤ s.now) : Acts cfg s .timedOut (s.setRun (.returned since))
  | addBegins (p : Proto) : Acts cfg s (.addBegins p) { s with adds := s.adds ++ [(p, .binding)] }
  | addFails {a : ℕ} (p : Proto) : Acts cfg s (.addFails a) (s.setAdd a (p, .done))
  | addBound {a : ℕ} (p : Proto) : Acts cfg s (.addBound a) (s.setAdd a (p, .bound))
  | addSpawns {a : ℕ} (p : Proto) :
      Acts cfg s (.addSpawns a) ((s.setAdd a (p, .done)).addServe (.spawned .live p))
  | resolved {l : ℕ} {o : Origin} {p : Proto} (hl : s.serves[l]? = some ⟨o, p, .resolving⟩) :
      Acts cfg s (.resolved l) (s.setServe l ⟨o, p, .waiting⟩)
  | accept {l : ℕ} {o : Origin} {p : Proto} (hl : s.serves[l]? = some ⟨o, p, .waiting⟩) :
      Acts cfg s (.accept l) (s.setServe l ⟨o, p, .taken⟩)
  | openFails {l : ℕ} {o : Origin} (hl : s.serves[l]? = some ⟨o, .udp, .taken⟩) :
      Acts cfg s (.openFails l) (s.setServe l ⟨o, .udp, .waiting⟩)
  | spawn {l : ℕ} {o : Origin} {p : Proto} (hl : s.serves[l]? = some ⟨o, p, .taken⟩) :
      Acts cfg s (.spawn l) (((s.track o).addTask ⟨o, p, true⟩).setServe l ⟨o, p, .waiting⟩)
  | stop {l : ℕ} {o : Origin} {p : Proto} (hl : s.serves[l]? = some ⟨o, p, .waiting⟩) :
      Acts cfg s (.stop l) ((s.untrack o).setServe l ⟨o, p, .stopped⟩)
  | ends {l : ℕ} {o : Origin} {p : Proto} {phase : ServePhase} (hl : s.serves[l]? = some ⟨o, p, phase⟩)
      (hphase : phase ≠ .stopped) : Acts cfg s (.ends l) ((s.untrack o).setServe l ⟨o, p, .stopped⟩)
  | removed {l : ℕ} (hl : s.serves[l]? = some ⟨.live, .udp, .taken⟩) :
      Acts cfg s (.ends l) (s.setServe l ⟨.live, .udp, .stopped⟩)
  | taskEnds {i : ℕ} {o : Origin} {p : Proto} (hi : s.tasks[i]? = some ⟨o, p, true⟩) :
      Acts cfg s (.taskEnds i) ((s.untrack o).setTask i ⟨o, p, false⟩)

/-- **A step is one of the actions.** -/
theorem acts_of_step (h : step cfg s e = some s') : Acts cfg s e s' := by
  cases e with
  | tick d => exact Option.some.inj h ▸ .tick d
  | signal => exact Option.some.inj h ▸ .signal
  | addBegins p => exact Option.some.inj h ▸ .addBegins p
  | allBound =>
    obtain ⟨-, hs⟩ := Option.ite_none_right_eq_some.mp h
    exact Option.some.inj hs ▸ .allBound
  | observe =>
    obtain ⟨-, hs⟩ := Option.ite_none_right_eq_some.mp h
    exact Option.some.inj hs ▸ .observe
  | bound =>
    dsimp only [step] at h
    split at h
    · case h_1 k hrun =>
      obtain ⟨fwd, hfwd, rfl⟩ := Option.map_eq_some_iff.mp h
      exact .bound hrun hfwd
    · cases h
  | bindFails =>
    dsimp only [step] at h
    split at h
    · obtain ⟨-, hs⟩ := Option.ite_none_right_eq_some.mp h
      exact Option.some.inj hs ▸ .bindFails
    · cases h
  | propagate =>
    dsimp only [step] at h
    split at h
    · case h_1 since hrun => exact Option.some.inj h ▸ .propagate hrun
    · cases h
  | drained =>
    dsimp only [step] at h
    split at h
    · case h_1 since deadline hrun =>
      obtain ⟨hzero, hs⟩ := Option.ite_none_right_eq_some.mp h
      exact Option.some.inj hs ▸ .drained hrun hzero
    · cases h
  | timedOut =>
    dsimp only [step] at h
    split at h
    · case h_1 since deadline hrun =>
      obtain ⟨hdeadline, hs⟩ := Option.ite_none_right_eq_some.mp h
      exact Option.some.inj hs ▸ .timedOut hrun hdeadline
    · cases h
  | addFails a =>
    dsimp only [step] at h
    split at h
    · case h_1 p _ => exact Option.some.inj h ▸ .addFails p
    · cases h
  | addBound a =>
    dsimp only [step] at h
    split at h
    · case h_1 p _ => exact Option.some.inj h ▸ .addBound p
    · cases h
  | addSpawns a =>
    dsimp only [step] at h
    split at h
    · case h_1 p _ => exact Option.some.inj h ▸ .addSpawns p
    · cases h
  | resolved l =>
    dsimp only [step] at h
    split at h
    · case h_1 hl => exact Option.some.inj h ▸ .resolved hl
    · cases h
  | accept l =>
    dsimp only [step] at h
    split at h
    · case h_1 hl => exact Option.some.inj h ▸ .accept hl
    · cases h
  | openFails l =>
    dsimp only [step] at h
    split at h
    · case h_1 hl => exact Option.some.inj h ▸ .openFails hl
    · cases h
  | spawn l =>
    dsimp only [step] at h
    split at h
    · case h_1 hl => exact Option.some.inj h ▸ .spawn hl
    · cases h
  | stop l =>
    dsimp only [step] at h
    split at h
    · case h_1 hl =>
      obtain ⟨-, hs⟩ := Option.ite_none_right_eq_some.mp h
      exact Option.some.inj hs ▸ .stop hl
    · cases h
  | ends l =>
    dsimp only [step] at h
    split at h
    · case h_1 hl => exact Option.some.inj h ▸ .ends hl (by simp)
    · case h_2 hl => exact Option.some.inj h ▸ .ends hl (by simp)
    · case h_3 hl => exact Option.some.inj h ▸ .removed hl
    · cases h
  | taskEnds i =>
    dsimp only [step] at h
    split at h
    · case h_1 hi => exact Option.some.inj h ▸ .taskEnds hi
    · cases h

/-! ## The tracker -/

/-- Is the serve task in the tracker of the run? -/
def Serve.tracked (v : Serve) : Bool := v.origin = .static ∧ v.phase ≠ .stopped

def Task.tracked (t : Task) : Bool := t.origin = .static ∧ t.running = true

/-- The tracker counts the tasks of the configured forwards. -/
def Tracked (s : State) : Prop :=
  s.tracker = s.serves.countP Serve.tracked + s.tasks.countP Task.tracked

theorem tracker_track (s : State) (o : Origin) :
    (s.track o).tracker = s.tracker + if o = .static then 1 else 0 := by
  unfold State.track
  split_ifs <;> rfl

theorem tracker_untrack (s : State) (o : Origin) :
    (s.untrack o).tracker = s.tracker - if o = .static then 1 else 0 := by
  unfold State.untrack
  split_ifs <;> rfl

@[simp] theorem serves_track (s : State) (o : Origin) : (s.track o).serves = s.serves := by
  unfold State.track
  split_ifs <;> rfl

@[simp] theorem tasks_track (s : State) (o : Origin) : (s.track o).tasks = s.tasks := by
  unfold State.track
  split_ifs <;> rfl

@[simp] theorem serves_untrack (s : State) (o : Origin) : (s.untrack o).serves = s.serves := by
  unfold State.untrack
  split_ifs <;> rfl

@[simp] theorem tasks_untrack (s : State) (o : Origin) : (s.untrack o).tasks = s.tasks := by
  unfold State.untrack
  split_ifs <;> rfl

@[simp] theorem serves_setServe (s : State) (l : ℕ) (v : Serve) :
    (s.setServe l v).serves = s.serves.set l v := rfl

/-- A serve task that goes on is tracked as before. -/
theorem Tracked.setServe (h : Tracked s) (hl : s.serves[l]? = some v) (hv : v'.tracked = v.tracked) :
    Tracked (s.setServe l v') := by
  have hcount := countP_set_of_some (y := v') Serve.tracked hl
  rw [hv, Nat.add_right_cancel_iff] at hcount
  show s.tracker = (s.serves.set l v').countP Serve.tracked + s.tasks.countP Task.tracked
  rw [hcount]
  exact h

/-- A serve task that ends leaves the tracker. -/
theorem Tracked.serveEnds (h : Tracked s) (hl : s.serves[l]? = some v) (hv : v.phase ≠ .stopped)
    (hv' : v'.phase = .stopped) : Tracked ((s.untrack v.origin).setServe l v') := by
  have hcount := countP_set_of_some (y := v') Serve.tracked hl
  have htracked : v.tracked = decide (v.origin = .static) := by simp [Serve.tracked, hv]
  have huntracked : v'.tracked = false := by simp [Serve.tracked, hv']
  simp only [htracked, huntracked, decide_eq_true_eq, Bool.false_eq_true, if_false] at hcount
  show (s.untrack v.origin).tracker = ((s.untrack v.origin).serves.set l v').countP Serve.tracked +
    (s.untrack v.origin).tasks.countP Task.tracked
  rw [tracker_untrack, serves_untrack, tasks_untrack, h]
  omega

/-- A connection that ends leaves the tracker. -/
theorem Tracked.taskEnds (h : Tracked s) (hi : s.tasks[i]? = some t) (ht : t.running = true)
    (ht' : t'.running = false) : Tracked ((s.untrack t.origin).setTask i t') := by
  have hcount := countP_set_of_some (y := t') Task.tracked hi
  have htracked : t.tracked = decide (t.origin = .static) := by simp [Task.tracked, ht]
  have huntracked : t'.tracked = false := by simp [Task.tracked, ht']
  simp only [htracked, huntracked, decide_eq_true_eq, Bool.false_eq_true, if_false] at hcount
  show (s.untrack t.origin).tracker = (s.untrack t.origin).serves.countP Serve.tracked +
    ((s.untrack t.origin).tasks.set i t').countP Task.tracked
  rw [tracker_untrack, serves_untrack, tasks_untrack, h]
  omega

/-- A serve task is spawned. -/
theorem Tracked.addServe (h : Tracked s) (hv : v.phase ≠ .stopped) :
    Tracked ((s.track v.origin).addServe v) := by
  have htracked : v.tracked = decide (v.origin = .static) := by simp [Serve.tracked, hv]
  show (s.track v.origin).tracker = ((s.track v.origin).serves ++ [v]).countP Serve.tracked +
    (s.track v.origin).tasks.countP Task.tracked
  rw [tracker_track, serves_track, tasks_track, List.countP_append, List.countP_singleton, htracked, h]
  simp only [decide_eq_true_eq]
  omega

/-- A connection is spawned. -/
theorem Tracked.addTask (h : Tracked s) (ht : t.running = true) :
    Tracked ((s.track t.origin).addTask t) := by
  have htracked : t.tracked = decide (t.origin = .static) := by simp [Task.tracked, ht]
  show (s.track t.origin).tracker = (s.track t.origin).serves.countP Serve.tracked +
    ((s.track t.origin).tasks ++ [t]).countP Task.tracked
  rw [tracker_track, serves_track, tasks_track, List.countP_append, List.countP_singleton, htracked, h]
  simp only [decide_eq_true_eq]
  omega

theorem phase_spawned (o : Origin) (p : Proto) : (Serve.spawned o p).phase ≠ .stopped := by
  cases p <;> simp [Serve.spawned]

/-- **The tracker stays right**, one action at a time. -/
theorem Tracked.step (h : Tracked s) (hstep : step cfg s e = some s') : Tracked s' := by
  cases acts_of_step hstep with
  | tick _ | signal | addBegins _ | allBound | observe | bindFails | propagate _ | drained _ _
  | timedOut _ _ | addFails _ | addBound _ => exact h
  | @bound k fwd hrun hfwd => exact h.addServe (phase_spawned .static fwd.proto)
  | @addSpawns a p =>
    exact Tracked.addServe (s := s.setAdd a (p, .done)) h (phase_spawned .live p)
  | resolved hl | accept hl | openFails hl | removed hl =>
    exact h.setServe hl (by simp [Serve.tracked])
  | @spawn l o p hl =>
    have htask : Tracked ((s.track o).addTask ⟨o, p, true⟩) := h.addTask (t := ⟨o, p, true⟩) rfl
    refine htask.setServe (v := ⟨o, p, .taken⟩) ?_ (by simp [Serve.tracked])
    exact (congrArg (·[l]?) (serves_track s o)).trans hl
  | stop hl => exact h.serveEnds hl (by simp) rfl
  | ends hl hphase => exact h.serveEnds hl hphase rfl
  | taskEnds hi => exact h.taskEnds hi rfl rfl

/-- An empty tracker: nothing is left of the configured forwards. -/
theorem Tracked.idle_of_liveIdle (h : Tracked s) (hzero : s.tracker = 0) (hlive : s.LiveIdle) :
    s.Idle := by
  intro t ht
  have hcount : s.tasks.countP Task.tracked = 0 := by
    have := h.symm.trans hzero
    omega
  have hnot := List.countP_eq_zero.mp hcount t ht
  cases horigin : t.origin with
  | static => simpa [Task.tracked, horigin] using hnot
  | live => exact hlive t ht horigin

/-! ## The signal -/

/-- The serve task has ended. -/
def State.Stopped (s : State) (l : ℕ) : Prop := ∃ v, s.serves[l]? = some v ∧ v.phase = .stopped

/-- What an action does to the serve tasks: it changes none, adds one, or changes one that has not
ended. -/
theorem serves_step (hstep : step cfg s e = some s') :
    s'.serves = s.serves ∨ (∃ v, s'.serves = s.serves ++ [v]) ∨
      ∃ l v v', s.serves[l]? = some v ∧ v.phase ≠ .stopped ∧ s'.serves = s.serves.set l v' := by
  cases acts_of_step hstep with
  | tick _ | signal | addBegins _ | allBound | observe | bindFails | propagate _ | drained _ _
  | timedOut _ _ | addFails _ | addBound _ => exact .inl rfl
  | @taskEnds i o p hi => exact .inl (serves_untrack s o)
  | bound hrun hfwd => exact .inr (.inl ⟨_, congrArg (· ++ _) (serves_track s .static)⟩)
  | addSpawns p => exact .inr (.inl ⟨_, rfl⟩)
  | resolved hl | accept hl | openFails hl | removed hl =>
    exact .inr (.inr ⟨_, _, _, hl, by simp, rfl⟩)
  | @spawn l o p hl =>
    exact .inr (.inr ⟨l, _, ⟨o, p, .waiting⟩, hl, by simp, by simp [State.addTask]⟩)
  | @stop l o p hl => exact .inr (.inr ⟨l, _, ⟨o, p, .stopped⟩, hl, by simp, by simp⟩)
  | @ends l o p phase hl hphase => exact .inr (.inr ⟨l, _, ⟨o, p, .stopped⟩, hl, hphase, by simp⟩)

/-- A serve task that has ended stays so. -/
theorem State.Stopped.step (h : s.Stopped l) (hstep : step cfg s e = some s') : s'.Stopped l := by
  obtain ⟨v, hl, hv⟩ := h
  rcases serves_step hstep with heq | ⟨v', heq⟩ | ⟨l', v', v'', hl', hv', heq⟩
  · exact ⟨v, by rw [heq, hl], hv⟩
  · have hlt := (List.getElem?_eq_some_iff.mp hl).1
    exact ⟨v, by rw [heq, List.getElem?_append_left hlt, hl], hv⟩
  · have hne : l ≠ l' := by
      rintro rfl
      cases hl.symm.trans hl'
      exact hv' hv
    exact ⟨v, by rw [heq, getElem?_set_of_some hl', if_neg hne, hl], hv⟩

theorem stopped_stop (hstep : step cfg s (.stop l) = some s') : s'.Stopped l := by
  cases acts_of_step hstep with
  | @stop l o p hl =>
    refine ⟨⟨o, p, .stopped⟩, ?_, rfl⟩
    show ((s.untrack o).serves.set l _)[l]? = _
    rw [serves_untrack, getElem?_set_of_some hl, if_pos rfl]

/-- A serve task that has ended accepts nothing. -/
theorem State.Stopped.not_accept (h : s.Stopped l) : Drain.step cfg s (.accept l) ≠ some s' := by
  obtain ⟨⟨o, p, phase⟩, hl, rfl⟩ := h
  intro hstep
  dsimp only [Drain.step] at hstep
  rw [hl] at hstep
  cases hstep

/-- **A serve task that has seen the signal accepts nothing any more**, whatever happens after. -/
theorem stopped_runs (h : runs (step cfg) s (.stop l :: es) = some s') : .accept l ∉ es := by
  obtain ⟨s₁, hstop, h⟩ := runs_cons.mp h
  intro hmem
  obtain ⟨before, after, rfl⟩ := List.append_of_mem hmem
  obtain ⟨s₂, s₃, hbefore, haccept, -⟩ := runs_split.mp h
  have hstopped : s₂.Stopped l :=
    runs_invariant (·.Stopped l) (fun _ _ _ hs hstep => hs.step hstep) (stopped_stop hstop) hbefore
  exact hstopped.not_accept haccept

/-! ## The deadline -/

/-- The run waits until its deadline, which is the timeout after it observed the signal, or later. -/
structure Due (cfg : Config) (s : State) : Prop where
  observed : ∀ since, s.run = .observed since → since ≤ s.now
  draining : ∀ since deadline, s.run = .draining since deadline → since + cfg.shutdownTimeout ≤ deadline

/-- What is not the run's own action leaves it where it is. -/
theorem Due.of_run (h : Due cfg s) (hrun : s'.run = s.run) (hnow : s.now ≤ s'.now) : Due cfg s' where
  observed since hs := (h.observed since (hrun ▸ hs)).trans hnow
  draining since deadline hs := h.draining since deadline (hrun ▸ hs)

theorem Due.step (h : Due cfg s) (hstep : step cfg s e = some s') : Due cfg s' := by
  have htrack (o : Origin) : (s.track o).run = s.run ∧ (s.track o).now = s.now := by
    unfold State.track
    split_ifs <;> exact ⟨rfl, rfl⟩
  have huntrack (o : Origin) : (s.untrack o).run = s.run ∧ (s.untrack o).now = s.now := by
    unfold State.untrack
    split_ifs <;> exact ⟨rfl, rfl⟩
  cases acts_of_step hstep with
  | tick d => exact h.of_run rfl (Nat.le_add_right _ _)
  | signal | addBegins _ | addFails _ | addBound _ | addSpawns _ | resolved _ | accept _ | openFails _
  | removed _ => exact h.of_run rfl le_rfl
  | observe => exact ⟨fun since hs => by cases hs; exact le_rfl, nofun⟩
  | bound _ _ | bindFails | allBound | drained _ _ | timedOut _ _ => exact ⟨nofun, nofun⟩
  | @propagate since hrun =>
    refine ⟨nofun, fun since' deadline hdraining => ?_⟩
    cases hdraining
    have := h.observed since hrun
    omega
  | spawn _ => exact h.of_run (htrack _).1 (htrack _).2.ge
  | stop _ | ends _ _ | taskEnds _ => exact h.of_run (huntrack _).1 (huntrack _).2.ge

/-! ## The run returns -/

/-- What holds at a return, and before it. -/
theorem drained_iff_of_returns (htracked : Tracked s) (hdue : Due cfg s) (he : e.Returns)
    (hstep : step cfg s e = some s') : s'.Drained cfg ↔ s.LiveIdle ∨ s.TimedOut cfg := by
  have hframe : s'.tasks = s.tasks ∧ s'.now = s.now ∧ s'.run.since = s.run.since := by
    rcases he with rfl | rfl
    all_goals
      cases acts_of_step hstep
      case _ hrun _ => exact ⟨rfl, rfl, by rw [hrun]; rfl⟩
  have htimed : s'.TimedOut cfg ↔ s.TimedOut cfg := by
    unfold State.TimedOut
    rw [hframe.2.1, hframe.2.2]
  have hidle : s'.Idle ↔ s.Idle := by
    unfold State.Idle
    rw [hframe.1]
  unfold State.Drained
  rw [htimed, hidle]
  constructor
  · exact Or.imp_left fun hs t ht _ => hs t ht
  · rintro (hlive | htimed)
    · rcases he with rfl | rfl
      · cases acts_of_step hstep with
        | drained hrun hzero => exact .inl (htracked.idle_of_liveIdle hzero hlive)
      · cases acts_of_step hstep with
        | @timedOut since deadline hrun hdeadline =>
          exact .inr ⟨since, by rw [hrun]; rfl, (hdue.draining since deadline hrun).trans hdeadline⟩
    · exact .inr htimed

/-- An edge that has one configured forward, and waits up to 30 for its connections. -/
def edge : Config := ⟨[⟨"[::]:8443", .tcp, "10.66.0.2:443"⟩], 30⟩

/-- The connection of a forward that was added live is not waited for: the run returns at once. -/
theorem undrained : ∃ s s', runs (step edge) .init
      [.bound, .allBound, .addBegins .tcp, .addBound 0, .addSpawns 0, .accept 1, .spawn 1, .signal,
        .observe, .propagate, .stop 0, .stop 1] = some s ∧
    step edge s .drained = some s' ∧ s'.run = .returned 0 ∧
    s'.tasks = [⟨.live, .tcp, true⟩] ∧ ¬s'.Drained edge := by
  refine ⟨_, _, rfl, rfl, rfl, rfl, ?_⟩
  rintro (hidle | ⟨since, hsince, hle⟩)
  · cases hidle ⟨.live, .tcp, true⟩ (List.mem_singleton_self _)
  · cases hsince
    exact absurd hle (by decide)

/-- **The shutdown of a forwarder**: in every run, a serve task that has seen the signal accepts nothing
any more; and when the run returns, nothing is left running or the timeout has passed, if and only if
nothing is left of a live forward or the timeout has passed. -/
theorem run_drains_iff (h : runs (step cfg) .init es = some s) :
    (∀ before l after, es = before ++ .stop l :: after → .accept l ∉ after) ∧
    ∀ before e after s₁ s₂, es = before ++ e :: after → runs (step cfg) .init before = some s₁ →
      step cfg s₁ e = some s₂ → e.Returns → (s₂.Drained cfg ↔ s₁.LiveIdle ∨ s₁.TimedOut cfg) := by
  constructor
  · rintro before l after rfl
    obtain ⟨s₁, -, hafter⟩ := runs_append.mp h
    exact stopped_runs hafter
  · rintro before e after s₁ s₂ - hbefore hstep he
    have hinit : Tracked .init ∧ Due cfg .init := ⟨rfl, nofun, nofun⟩
    have hinv : Tracked s₁ ∧ Due cfg s₁ :=
      runs_invariant (fun s => Tracked s ∧ Due cfg s)
        (fun _ _ _ hs hstep => ⟨hs.1.step hstep, hs.2.step hstep⟩) hinit hbefore
    exact drained_iff_of_returns hinv.1 hinv.2 he hstep

/-- A run without a live forward waits for its one connection. -/
theorem run_drains_iff_static : ∃ s s', runs (step edge) .init
      [.bound, .allBound, .accept 0, .spawn 0, .signal, .observe, .propagate, .stop 0, .tick 3,
        .taskEnds 0] = some s ∧
    step edge s .drained = some s' ∧ s'.Drained edge := by
  obtain ⟨s, hs⟩ : ∃ s, runs (step edge) .init
      [.bound, .allBound, .accept 0, .spawn 0, .signal, .observe, .propagate, .stop 0, .tick 3,
        .taskEnds 0, .drained] = some s := ⟨_, rfl⟩
  have hdrains := (run_drains_iff hs).2 [.bound, .allBound, .accept 0, .spawn 0, .signal, .observe,
    .propagate, .stop 0, .tick 3, .taskEnds 0] .drained [] _ _ rfl rfl rfl (.inl rfl)
  refine ⟨_, _, rfl, rfl, hdrains.mpr (.inl ?_)⟩
  rintro t ht hlive
  cases List.mem_singleton.mp ht
  rfl

end Drain
end Forwarder
end Cococoir
