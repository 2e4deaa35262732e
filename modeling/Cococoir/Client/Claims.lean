import Cococoir.Client.InviteUrl
import Cococoir.Concurrency.Steps
import Cococoir.ControlPlane.Invites

/-!
# Claiming a box from its dashboard

The owner pastes an invite link into the dashboard.  A request reads the state file and the claim state
under one lock and, when the link is good, leaves the state awaiting and spawns a claim task; the task
dials the edge, writes the state file on its own schedule, without the lock, and restarts the process.
A task that fails says so in the claim state.

* `step`: the requests, the claim tasks and the views, one action at a time, and `acts_of_step`.
* `Sound`: the invariant.
* `SingleClaim`: at most one claim is in flight, and the view says so.

## What the lock is for

A request looks at the state file and at the claim state, decides, and writes the claim state, all
under one lock; so of two requests one comes first, and the second sees a claim in flight.  What
is not under the lock is the task: it is spawned after the lock was released, writes the state
file when it comes to that, and says that it failed at the end.  `Sound` says how the claim state,
the requests that are about to spawn and the tasks that are in flight fit together: there is one
of them at most, and while there is one, and no enrollment is persisted, the state is awaiting.

A page reads the same two things, and what it shows is then about the moment at which it read
them.  The state file may have been half written at that moment; a beginning of its text does not
decode, which is what `Codec.Closed` asks of the codec.
-/

namespace Cococoir
namespace Client
namespace Claims

open Concurrency
open ControlPlane (trim)

/-! ## The state file -/

structure TunnelConfig : Type where
  iface : String
  ip : String
  prefixLen : UInt8
  edgePubkey : String
  edgeEndpoint : String
  edgeAllowedIps : String
  listenPort : UInt16
  deriving DecidableEq

/-- The persisted enrollment. -/
structure PersistedTunnel : Type where
  tunnel : TunnelConfig
  hostname : String
  deriving DecidableEq

/-- How an enrollment is written to the state file and read from it: the UTF-8 bytes of its JSON. -/
structure Codec : Type where
  toStringPretty : PersistedTunnel → List UInt8
  fromStr : List UInt8 → Option PersistedTunnel

/-- What is only the beginning of a written object is not read as one. -/
def Codec.Closed (codec : Codec) : Prop :=
  ∀ persisted bytes, bytes <+: codec.toStringPretty persisted →
    bytes ≠ codec.toStringPretty persisted → codec.fromStr bytes = none

/-- The enrollment in a state file, if there is one. -/
def persistedTunnelState (codec : Codec) (file : Option (List UInt8)) : Option PersistedTunnel :=
  file.bind codec.fromStr

/-! ## Model -/

inductive ClaimState : Type where
  | unclaimed : ClaimState
  | awaiting : ClaimState
  | failed (message : String) : ClaimState
  deriving DecidableEq

/-- What the dashboard shows. -/
inductive ClaimView : Type where
  | unclaimed : ClaimView
  | awaiting : ClaimView
  | failed (message : String) : ClaimView
  | claimed (hostname : String) : ClaimView
  deriving DecidableEq

/-- Where a request is. -/
inductive Handler : Type where
  | waiting (url : String) : Handler
  | locked (url : String) : Handler
  /-- It holds the lock and has read the state file. -/
  | checked (url : String) (persisted : Bool) : Handler
  /-- It has released the lock and spawns its claim. -/
  | accepted (url : String) : Handler
  | done : Handler
  deriving DecidableEq

/-- Where a claim task is. -/
inductive Task : Type where
  | spawned (url : String) : Task
  | dialing (url : String) : Task
  /-- It writes the state file; some bytes are left. -/
  | writing (url : String) (persisted : PersistedTunnel) (rest : List UInt8) : Task
  /-- The state file is written; the device token is not. -/
  | persisted (url : String) : Task
  | restarting (url : String) : Task
  /-- It is about to say that it failed. -/
  | failing (url : String) (message : String) : Task
  | ended (url : String) : Task
  deriving DecidableEq

/-- Where the rendering of a page is. -/
inductive View : Type where
  | reading : View
  /-- There was no enrollment in the file. -/
  | unread : View
  | shown (view : ClaimView) : View
  deriving DecidableEq

def Handler.holds : Handler → Bool
  | .locked _ | .checked _ _ => true
  | _ => false

def Handler.isAccepted : Handler → Bool
  | .accepted _ => true
  | _ => false

/-- The claim is in flight. -/
def Task.live : Task → Bool
  | .ended _ => false
  | _ => true

/-- The link that a claim was spawned for. -/
def Task.url : Task → String
  | .spawned url | .dialing url | .writing url _ _ | .persisted url | .restarting url
  | .failing url _ | .ended url => url

structure State : Type where
  /-- The state file, if it exists. -/
  file : Option (List UInt8)
  claim : ClaimState
  handlers : List Handler
  tasks : List Task
  views : List View
  deriving DecidableEq

/-- A process that has just started. -/
def State.init (file : Option (List UInt8)) : State := ⟨file, .unclaimed, [], [], []⟩

def State.holders (s : State) : ℕ := s.handlers.countP Handler.holds

/-- How many requests are about to spawn a claim. -/
def State.pending (s : State) : ℕ := s.handlers.countP Handler.isAccepted

def State.inFlight (s : State) : ℕ := s.tasks.countP Task.live

def State.setHandler (s : State) (i : ℕ) (h : Handler) : State :=
  { s with handlers := s.handlers.set i h }

def State.setTask (s : State) (j : ℕ) (t : Task) : State := { s with tasks := s.tasks.set j t }

def State.setView (s : State) (k : ℕ) (v : View) : State := { s with views := s.views.set k v }

/-- What a request does under the lock: the state it leaves, and where it goes from there. -/
def judge (state : ClaimState) (persisted : Bool) (url : String) : ClaimState × Handler :=
  if persisted then (.failed "This box is already claimed.", .done)
  else if state = .awaiting then (state, .done)
  else
    match parseInviteUrl url with
    | .ok _ => (.awaiting, .accepted url)
    | .error err => (.failed ("That is not an invite link: " ++ err.display), .done)

/-- What is said of a claim that failed. -/
def failure : EnrollError → String
  | .denied => "the owner denied this machine's enrollment"
  | other => other.display

/-- A claim task makes its edge client. -/
def connect (url : String) : Task :=
  match parseInviteUrl url with
  | .ok _ => .dialing url
  | .error err => .failing url err.display

/-- What a page shows of the claim state when no enrollment is persisted. -/
def ClaimState.view : ClaimState → ClaimView
  | .unclaimed => .unclaimed
  | .awaiting => .awaiting
  | .failed message => .failed message

inductive Event : Type where
  | submit (inviteUrl : Option String) : Event
  | lock (i : ℕ) : Event
  | check (i : ℕ) : Event
  /-- A request sets the claim state and releases the lock. -/
  | judge (i : ℕ) : Event
  | spawn (i : ℕ) : Event
  | connect (j : ℕ) : Event
  | dialFails (j : ℕ) (err : EnrollError) : Event
  /-- The owner has approved, and the state file is opened and truncated. -/
  | approved (j : ℕ) (persisted : PersistedTunnel) : Event
  | write (j : ℕ) : Event
  | written (j : ℕ) : Event
  | writeFails (j : ℕ) (msg : String) : Event
  | tokenSaved (j : ℕ) : Event
  | tokenFails (j : ℕ) (msg : String) : Event
  /-- A claim task sets the claim state. -/
  | fail (j : ℕ) : Event
  /-- An assertion of a claim task fails, or the process could not be replaced. -/
  | panic (j : ℕ) : Event
  /-- The process is replaced by a new one. -/
  | restart (j : ℕ) : Event
  /-- The process ends from outside, and a new one starts. -/
  | reboot : Event
  | look : Event
  | lookFile (k : ℕ) : Event
  | lookState (k : ℕ) : Event

variable (codec : Codec)

def State.persisted (s : State) : Option PersistedTunnel := persistedTunnelState codec s.file

def step (s : State) : Event → Option State
  | .submit inviteUrl =>
    some { s with handlers := s.handlers ++ [.waiting (trim (inviteUrl.getD ""))] }
  | .lock i =>
    match s.handlers[i]? with
    | some (.waiting url) => if s.holders = 0 then some (s.setHandler i (.locked url)) else none
    | _ => none
  | .check i =>
    match s.handlers[i]? with
    | some (.locked url) => some (s.setHandler i (.checked url (s.persisted codec).isSome))
    | _ => none
  | .judge i =>
    match s.handlers[i]? with
    | some (.checked url persisted) =>
      let verdict := Claims.judge s.claim persisted url
      some { s.setHandler i verdict.2 with claim := verdict.1 }
    | _ => none
  | .spawn i =>
    match s.handlers[i]? with
    | some (.accepted url) =>
      some { s.setHandler i .done with tasks := s.tasks ++ [.spawned url] }
    | _ => none
  | .connect j =>
    match s.tasks[j]? with
    | some (.spawned url) => some (s.setTask j (Claims.connect url))
    | _ => none
  | .dialFails j err =>
    match s.tasks[j]? with
    | some (.dialing url) => some (s.setTask j (.failing url (failure err)))
    | _ => none
  | .approved j persisted =>
    match s.tasks[j]? with
    | some (.dialing url) =>
      -- an empty hostname would fail an assertion
      if persisted.hostname = "" then some (s.setTask j (.ended url))
      else some { s.setTask j (.writing url persisted (codec.toStringPretty persisted)) with
        file := some [] }
    | _ => none
  | .write j =>
    match s.tasks[j]? with
    | some (.writing url persisted (b :: rest)) =>
      some { s.setTask j (.writing url persisted rest) with
        file := s.file.map fun bytes => bytes ++ [b] }
    | _ => none
  | .written j =>
    match s.tasks[j]? with
    | some (.writing url _ []) => some (s.setTask j (.persisted url))
    | _ => none
  | .writeFails j msg =>
    match s.tasks[j]? with
    | some (.writing url _ _) => some (s.setTask j (.failing url (failure (.io msg))))
    | _ => none
  | .tokenSaved j =>
    match s.tasks[j]? with
    | some (.persisted url) => some (s.setTask j (.restarting url))
    | _ => none
  | .tokenFails j msg =>
    match s.tasks[j]? with
    | some (.persisted url) => some (s.setTask j (.failing url (failure (.io msg))))
    | _ => none
  | .fail j =>
    match s.tasks[j]? with
    | some (.failing url message) =>
      if s.holders = 0 then some { s.setTask j (.ended url) with claim := .failed message } else none
    | _ => none
  | .panic j =>
    match s.tasks[j]? with
    | some t => if t.live then some (s.setTask j (.ended t.url)) else none
    | none => none
  | .restart j =>
    match s.tasks[j]? with
    | some (.restarting _) => some (State.init s.file)
    | _ => none
  | .reboot => some (State.init s.file)
  | .look => some { s with views := s.views ++ [.reading] }
  | .lookFile k =>
    match s.views[k]? with
    | some .reading =>
      match s.persisted codec with
      | some persisted => some (s.setView k (.shown (.claimed persisted.hostname)))
      | none => some (s.setView k .unread)
    | _ => none
  | .lookState k =>
    match s.views[k]? with
    | some .unread => if s.holders = 0 then some (s.setView k (.shown s.claim.view)) else none
    | _ => none

/-! ## What is to hold -/

/-- **What holds of claims**, in a state and for any step from it. -/
structure SingleClaim (s : State) : Prop where
  oneInFlight : s.inFlight ≤ 1
  /-- A claim is spawned for a good link, and never beside a persisted enrollment. -/
  spawns : ∀ e s', step codec s e = some s' → s.tasks.length < s'.tasks.length →
    ∃ url parsed, s'.tasks = s.tasks ++ [.spawned url] ∧ parseInviteUrl url = .ok parsed ∧
      s.persisted codec = none
  /-- While a claim is in flight and nothing is persisted the state is awaiting, -/
  awaiting : 0 < s.inFlight → s.persisted codec = none → s.claim = .awaiting
  /-- and so is what a page then shows. -/
  shown : ∀ e s' (k : ℕ) view, step codec s e = some s' → s'.views[k]? = some (View.shown view) →
    s.views[k]? ≠ some (View.shown view) → 0 < s.inFlight → s.persisted codec = none → view = ClaimView.awaiting

/-! ## The actions -/

variable {codec} {s s' : State} {e : Event} {i j : ℕ} {h h' : Handler} {t t' : Task}

/-- What a claim task has to do with the state file. -/
def Task.Fits (codec : Codec) (file : Option (List UInt8)) : Task → Prop
  | .spawned _ | .dialing _ => persistedTunnelState codec file = none
  | .writing _ tunnel rest =>
    ∃ written, file = some written ∧ written ++ rest = codec.toStringPretty tunnel
  | _ => True

/-- What one action does, and when it can happen. -/
inductive Acts (codec : Codec) (s : State) : Event → State → Prop
  | submit (inviteUrl : Option String) : Acts codec s (.submit inviteUrl)
      { s with handlers := s.handlers ++ [.waiting (trim (inviteUrl.getD ""))] }
  | lock {i : ℕ} {url : String} (hi : s.handlers[i]? = some (.waiting url)) (hfree : s.holders = 0) :
      Acts codec s (.lock i) (s.setHandler i (.locked url))
  | check {i : ℕ} {url : String} (hi : s.handlers[i]? = some (.locked url)) :
      Acts codec s (.check i) (s.setHandler i (.checked url (s.persisted codec).isSome))
  | judge {i : ℕ} {url : String} {persisted : Bool}
      (hi : s.handlers[i]? = some (.checked url persisted)) : Acts codec s (.judge i)
      { s.setHandler i (judge s.claim persisted url).2 with claim := (judge s.claim persisted url).1 }
  | spawn {i : ℕ} {url : String} (hi : s.handlers[i]? = some (.accepted url)) : Acts codec s (.spawn i)
      { s.setHandler i .done with tasks := s.tasks ++ [.spawned url] }
  /-- A claim task goes on and leaves the file alone. -/
  | advance {e : Event} {j : ℕ} {t t' : Task} (hj : s.tasks[j]? = some t) (hlive : t.live = true)
      (hfits : t.Fits codec s.file → t'.Fits codec s.file) : Acts codec s e (s.setTask j t')
  | truncate {j : ℕ} {url : String} (persisted : PersistedTunnel)
      (hj : s.tasks[j]? = some (.dialing url)) : Acts codec s (.approved j persisted)
      { s.setTask j (.writing url persisted (codec.toStringPretty persisted)) with file := some [] }
  | write {j : ℕ} {url : String} {persisted : PersistedTunnel} {b : UInt8} {rest : List UInt8}
      (hj : s.tasks[j]? = some (.writing url persisted (b :: rest))) : Acts codec s (.write j)
      { s.setTask j (.writing url persisted rest) with file := s.file.map fun bytes => bytes ++ [b] }
  | fail {j : ℕ} {url message : String} (hj : s.tasks[j]? = some (.failing url message))
      (hfree : s.holders = 0) : Acts codec s (.fail j)
      { s.setTask j (.ended url) with claim := .failed message }
  | reset {e : Event} : Acts codec s e (State.init s.file)
  | look {e : Event} {views : List View} (hviews : ∀ (k : ℕ) view, views[k]? = some (View.shown view) →
      s.views[k]? = some (View.shown view) ∨ s.persisted codec ≠ none ∨ view = s.claim.view) :
      Acts codec s e { s with views }

theorem fits_connect (url : String) : Task.Fits codec s.file (.spawned url) →
    Task.Fits codec s.file (connect url) := by
  intro hfits
  unfold connect
  cases parseInviteUrl url with
  | ok _ => exact hfits
  | error _ => trivial

/-- A view that goes on. -/
theorem acts_setView {k : ℕ} {v v' : View} (hk : s.views[k]? = some v)
    (hv : ∀ view, v' = .shown view → s.persisted codec ≠ none ∨ view = s.claim.view) :
    Acts codec s e (s.setView k v') := by
  refine .look fun k' view hview => ?_
  rw [getElem?_set_of_some hk] at hview
  split_ifs at hview with heq
  · exact .inr (hv view (Option.some.inj hview))
  · exact .inl hview

/-- **A step is one of the actions.** -/
theorem acts_of_step (hstep : step codec s e = some s') : Acts codec s e s' := by
  cases e with
  | submit inviteUrl => exact Option.some.inj hstep ▸ .submit inviteUrl
  | lock i =>
    dsimp only [step] at hstep
    split at hstep
    · case h_1 url hi =>
      obtain ⟨hfree, hs⟩ := Option.ite_none_right_eq_some.mp hstep
      exact Option.some.inj hs ▸ .lock hi hfree
    · cases hstep
  | check i =>
    dsimp only [step] at hstep
    split at hstep
    · case h_1 url hi => exact Option.some.inj hstep ▸ .check hi
    · cases hstep
  | judge i =>
    dsimp only [step] at hstep
    split at hstep
    · case h_1 url persisted hi => exact Option.some.inj hstep ▸ .judge hi
    · cases hstep
  | spawn i =>
    dsimp only [step] at hstep
    split at hstep
    · case h_1 url hi => exact Option.some.inj hstep ▸ .spawn hi
    · cases hstep
  | connect j =>
    dsimp only [step] at hstep
    split at hstep
    · case h_1 url hj => exact Option.some.inj hstep ▸ .advance hj rfl (fits_connect url)
    · cases hstep
  | dialFails j err =>
    dsimp only [step] at hstep
    split at hstep
    · case h_1 url hj => exact Option.some.inj hstep ▸ .advance hj rfl fun _ => trivial
    · cases hstep
  | approved j persisted =>
    dsimp only [step] at hstep
    split at hstep
    · case h_1 url hj =>
      split_ifs at hstep
      · exact Option.some.inj hstep ▸ .advance hj rfl fun _ => trivial
      · exact Option.some.inj hstep ▸ .truncate persisted hj
    · cases hstep
  | write j =>
    dsimp only [step] at hstep
    split at hstep
    · case h_1 url persisted b rest hj => exact Option.some.inj hstep ▸ .write hj
    · cases hstep
  | written j =>
    dsimp only [step] at hstep
    split at hstep
    · case h_1 url persisted hj => exact Option.some.inj hstep ▸ .advance hj rfl fun _ => trivial
    · cases hstep
  | writeFails j msg =>
    dsimp only [step] at hstep
    split at hstep
    · case h_1 url persisted rest hj => exact Option.some.inj hstep ▸ .advance hj rfl fun _ => trivial
    · cases hstep
  | tokenSaved j =>
    dsimp only [step] at hstep
    split at hstep
    · case h_1 url hj => exact Option.some.inj hstep ▸ .advance hj rfl fun _ => trivial
    · cases hstep
  | tokenFails j msg =>
    dsimp only [step] at hstep
    split at hstep
    · case h_1 url hj => exact Option.some.inj hstep ▸ .advance hj rfl fun _ => trivial
    · cases hstep
  | fail j =>
    dsimp only [step] at hstep
    split at hstep
    · case h_1 url message hj =>
      obtain ⟨hfree, hs⟩ := Option.ite_none_right_eq_some.mp hstep
      exact Option.some.inj hs ▸ .fail hj hfree
    · cases hstep
  | panic j =>
    dsimp only [step] at hstep
    split at hstep
    · case h_1 t hj =>
      obtain ⟨hlive, hs⟩ := Option.ite_none_right_eq_some.mp hstep
      exact Option.some.inj hs ▸ .advance hj hlive fun _ => trivial
    · cases hstep
  | restart j =>
    dsimp only [step] at hstep
    split at hstep
    · exact Option.some.inj hstep ▸ .reset
    · cases hstep
  | reboot => exact Option.some.inj hstep ▸ .reset
  | look =>
    refine Option.some.inj hstep ▸ .look fun k view hview => ?_
    rcases getElem?_concat_cases hview with hview | ⟨-, hview⟩
    · exact .inl hview
    · cases hview
  | lookFile k =>
    dsimp only [step] at hstep
    split at hstep
    · case h_1 hk =>
      cases hpersisted : s.persisted codec with
      | some persisted =>
        rw [hpersisted] at hstep
        refine Option.some.inj hstep ▸ acts_setView hk fun view _ => .inl ?_
        rw [hpersisted]
        nofun
      | none =>
        rw [hpersisted] at hstep
        exact Option.some.inj hstep ▸ acts_setView hk nofun
    · cases hstep
  | lookState k =>
    dsimp only [step] at hstep
    split at hstep
    · case h_1 hk =>
      obtain ⟨-, hs⟩ := Option.ite_none_right_eq_some.mp hstep
      exact Option.some.inj hs ▸ acts_setView hk fun view hview => .inr (View.shown.inj hview).symm
    · cases hstep

/-! ## The invariant -/

/-- What holds between any two actions. -/
structure Sound (codec : Codec) (s : State) : Prop where
  holders : s.holders ≤ 1
  single : s.pending + s.inFlight ≤ 1
  awaiting : 0 < s.pending + s.inFlight → s.persisted codec = none → s.claim = .awaiting
  accepted : ∀ url, .accepted url ∈ s.handlers →
    (∃ parsed, parseInviteUrl url = .ok parsed) ∧ s.persisted codec = none
  fits : ∀ t ∈ s.tasks, t.Fits codec s.file
  /-- What a request has read under the lock is still so, -/
  claimed : ∀ url, .checked url true ∈ s.handlers → s.persisted codec ≠ none
  /-- unless a claim is in flight. -/
  unclaimed : ∀ url, .checked url false ∈ s.handlers → s.claim ≠ .awaiting →
    s.persisted codec = none ∧ s.pending + s.inFlight = 0

theorem sound_init (file : Option (List UInt8)) : Sound codec (State.init file) where
  holders := Nat.zero_le 1
  single := Nat.zero_le 1
  awaiting h := absurd h (lt_irrefl 0)
  accepted := nofun
  fits := nofun
  claimed := nofun
  unclaimed := nofun

theorem holders_setHandler (h' : Handler) (hi : s.handlers[i]? = some h) :
    (s.setHandler i h').holders + (if h.holds then 1 else 0) =
      s.holders + if h'.holds then 1 else 0 :=
  countP_set_of_some Handler.holds hi

theorem pending_setHandler (h' : Handler) (hi : s.handlers[i]? = some h) :
    (s.setHandler i h').pending + (if h.isAccepted then 1 else 0) =
      s.pending + if h'.isAccepted then 1 else 0 :=
  countP_set_of_some Handler.isAccepted hi

theorem inFlight_setTask (t' : Task) (hj : s.tasks[j]? = some t) :
    (s.setTask j t').inFlight + (if t.live then 1 else 0) = s.inFlight + if t'.live then 1 else 0 :=
  countP_set_of_some Task.live hj

theorem inFlight_pos (hj : s.tasks[j]? = some t) (hlive : t.live = true) : 0 < s.inFlight :=
  List.countP_pos_iff.mpr ⟨t, List.mem_of_getElem? hj, hlive⟩

theorem pending_pos {url : String} (h : .accepted url ∈ s.handlers) : 0 < s.pending :=
  List.countP_pos_iff.mpr ⟨_, h, rfl⟩

theorem holders_pos {url : String} {b : Bool} (h : .checked url b ∈ s.handlers) : 0 < s.holders :=
  List.countP_pos_iff.mpr ⟨_, h, rfl⟩

/-- A request that goes on by itself, and neither judges nor is accepted. -/
theorem Sound.setHandler (hs : Sound codec s) (hi : s.handlers[i]? = some h)
    (hholds : h'.holds = true → h.holds = true ∨ s.holders = 0) (hold : h.isAccepted = false)
    (hnew : h'.isAccepted = false)
    (hread : ∀ url b, h' = .checked url b → b = (s.persisted codec).isSome) :
    Sound codec (s.setHandler i h') := by
  have hpending : (s.setHandler i h').pending = s.pending := by
    have hcount := pending_setHandler h' hi
    rw [hold, hnew] at hcount
    exact Nat.add_right_cancel hcount
  have hmem : ∀ g ∈ (s.setHandler i h').handlers, g ∈ s.handlers ∨ g = h' := fun g hg =>
    List.mem_or_eq_of_mem_set hg
  refine ⟨?_, ?_, ?_, ?_, hs.fits, ?_, ?_⟩
  · have hcount := holders_setHandler h' hi
    have hle := hs.holders
    by_cases hh : h'.holds = true
    · rcases hholds hh with hold | hfree
      · simp only [hh, hold] at hcount
        omega
      · rw [hfree, if_pos hh] at hcount
        omega
    · rw [if_neg hh] at hcount
      omega
  · rw [hpending]
    exact hs.single
  · rw [hpending]
    exact hs.awaiting
  · intro url hurl
    rcases hmem _ hurl with hurl | rfl
    · exact hs.accepted url hurl
    · cases hnew
  · intro url hurl
    rcases hmem _ hurl with hurl | heq
    · exact hs.claimed url hurl
    · have hsome := hread url true heq.symm
      exact Option.isSome_iff_ne_none.mp hsome.symm
  · intro url hurl hclaim
    rw [hpending]
    rcases hmem _ hurl with hurl | heq
    · exact hs.unclaimed url hurl hclaim
    · -- with a claim about or in flight the state would be awaiting
      have hnone : s.persisted codec = none := by
        simpa using (hread url false heq.symm).symm
      refine ⟨hnone, Nat.eq_zero_of_not_pos fun hpos => hclaim (hs.awaiting hpos hnone)⟩

/-- A request that releases the lock. -/
theorem Sound.release {url : String} {b : Bool} {claim : ClaimState} (hs : Sound codec s)
    (hi : s.handlers[i]? = some (.checked url b)) (hnot : h'.holds = false)
    (hsingle : s.pending + (if h'.isAccepted then 1 else 0) + s.inFlight ≤ 1)
    (hawaiting : 0 < s.pending + (if h'.isAccepted then 1 else 0) + s.inFlight →
      s.persisted codec = none → claim = .awaiting)
    (haccepted : ∀ url, h' = .accepted url →
      (∃ parsed, parseInviteUrl url = .ok parsed) ∧ s.persisted codec = none) :
    Sound codec { s.setHandler i h' with claim } := by
  have hpending := pending_setHandler h' hi
  rw [show (Handler.checked url b).isAccepted = false from rfl, if_neg Bool.false_ne_true,
    Nat.add_zero] at hpending
  have hholders := holders_setHandler h' hi
  rw [show (Handler.checked url b).holds = true from rfl, if_pos rfl, hnot,
    if_neg Bool.false_ne_true] at hholders
  have hfree : (s.setHandler i h').holders = 0 := by
    have hle := hs.holders
    omega
  refine ⟨hfree.le.trans (Nat.zero_le 1), ?_, ?_, ?_, hs.fits, ?_, ?_⟩
  · show (s.setHandler i h').pending + s.inFlight ≤ 1
    rwa [hpending]
  · show 0 < (s.setHandler i h').pending + s.inFlight → _
    rwa [hpending]
  · intro url' hurl
    rcases List.mem_or_eq_of_mem_set hurl with hurl | heq
    · exact hs.accepted url' hurl
    · exact haccepted url' heq.symm
  · intro url' hurl
    exact absurd hfree (holders_pos hurl).ne'
  · intro url' hurl
    exact absurd hfree (holders_pos hurl).ne'

/-- What a request judges under the lock. -/
theorem Sound.judge {url : String} {b : Bool} (hs : Sound codec s)
    (hi : s.handlers[i]? = some (.checked url b)) :
    Sound codec { s.setHandler i (judge s.claim b url).2 with claim := (judge s.claim b url).1 } := by
  have hmem := List.mem_of_getElem? hi
  unfold Claims.judge
  cases b with
  | true =>
    rw [if_pos rfl]
    exact hs.release hi rfl hs.single (fun _ hnone => absurd hnone (hs.claimed url hmem)) nofun
  | false =>
    rw [if_neg Bool.false_ne_true]
    by_cases hclaim : s.claim = .awaiting
    · rw [if_pos hclaim]
      exact hs.release hi rfl hs.single hs.awaiting nofun
    · rw [if_neg hclaim]
      obtain ⟨hnone, hidle⟩ := hs.unclaimed url hmem hclaim
      cases hparse : parseInviteUrl url with
      | ok parsed =>
        refine hs.release hi rfl ?_ (fun _ _ => rfl) fun url' heq => ?_
        · show s.pending + 1 + s.inFlight ≤ 1
          omega
        · cases heq
          exact ⟨⟨parsed, hparse⟩, hnone⟩
      | error err =>
        exact hs.release hi rfl hs.single (fun hpos => absurd hidle hpos.ne') nofun

theorem Sound.submit (hs : Sound codec s) (url : String) :
    Sound codec { s with handlers := s.handlers ++ [.waiting url] } := by
  have hmem : ∀ g ∈ s.handlers ++ [Handler.waiting url], g ∈ s.handlers ∨ g = .waiting url := fun g hg => by
    simpa using hg
  have hholders : (s.handlers ++ [Handler.waiting url]).countP Handler.holds = s.holders :=
    List.countP_append
  have hpending : (s.handlers ++ [Handler.waiting url]).countP Handler.isAccepted = s.pending :=
    List.countP_append
  refine ⟨hholders.le.trans hs.holders, ?_, ?_, ?_, hs.fits, ?_, ?_⟩
  · show List.countP Handler.isAccepted (s.handlers ++ [Handler.waiting url]) + s.inFlight ≤ 1
    rw [hpending]
    exact hs.single
  · show 0 < List.countP Handler.isAccepted (s.handlers ++ [Handler.waiting url]) + s.inFlight → _
    rw [hpending]
    exact hs.awaiting
  · intro url' hurl
    rcases hmem _ hurl with hurl | heq
    · exact hs.accepted url' hurl
    · cases heq
  · intro url' hurl
    rcases hmem _ hurl with hurl | heq
    · exact hs.claimed url' hurl
    · cases heq
  · intro url' hurl hclaim
    show _ ∧ List.countP _ _ + s.inFlight = 0
    rw [hpending]
    rcases hmem _ hurl with hurl | heq
    · exact hs.unclaimed url' hurl hclaim
    · cases heq

/-- An accepted request becomes a claim in flight. -/
theorem Sound.spawn {url : String} (hs : Sound codec s) (hi : s.handlers[i]? = some (.accepted url)) :
    Sound codec { s.setHandler i .done with tasks := s.tasks ++ [.spawned url] } := by
  have haccepted := List.mem_of_getElem? hi
  have hpending : (s.setHandler i .done).pending + 1 = s.pending := pending_setHandler .done hi
  have hholders : (s.setHandler i .done).holders = s.holders := holders_setHandler .done hi
  have hinFlight : (s.tasks ++ [Task.spawned url]).countP Task.live = s.inFlight + 1 :=
    List.countP_append
  have hbusy : (s.setHandler i .done).pending + (s.tasks ++ [Task.spawned url]).countP Task.live =
      s.pending + s.inFlight := by omega
  have hmem : ∀ g ∈ (s.setHandler i .done).handlers, g ≠ .done → g ∈ s.handlers := fun g hg hne =>
    (List.mem_or_eq_of_mem_set hg).resolve_right hne
  refine ⟨hholders.le.trans hs.holders, hbusy.le.trans hs.single, ?_, ?_, ?_, ?_, ?_⟩
  · show 0 < (s.setHandler i .done).pending + List.countP _ _ → _
    rw [hbusy]
    exact hs.awaiting
  · exact fun url' hurl => hs.accepted url' (hmem _ hurl nofun)
  · intro t ht
    rcases List.mem_append.mp ht with ht | ht
    · exact hs.fits t ht
    · rw [List.mem_singleton.mp ht]
      exact (hs.accepted url haccepted).2
  · exact fun url' hurl => hs.claimed url' (hmem _ hurl nofun)
  · intro url' hurl hclaim
    show _ ∧ (s.setHandler i .done).pending + List.countP _ _ = 0
    rw [hbusy]
    exact hs.unclaimed url' (hmem _ hurl nofun) hclaim

/-- While a claim is in flight no request is accepted, and none that has the lock will be. -/
theorem Sound.of_inFlight (hs : Sound codec s) (hlive : 0 < s.inFlight) :
    (∀ url, .accepted url ∉ s.handlers) ∧
      ∀ url, .checked url false ∈ s.handlers → s.claim = .awaiting := by
  refine ⟨fun url hurl => ?_, fun url hurl => ?_⟩
  · have hpos := pending_pos hurl
    have hsingle := hs.single
    omega
  · by_contra hclaim
    have hidle := (hs.unclaimed url hurl hclaim).2
    omega

/-- A claim task that goes on, and what it does to the file. -/
theorem Sound.setTask {file : Option (List UInt8)} (hs : Sound codec s) (t' : Task)
    (hj : s.tasks[j]? = some t) (hlive : t.live = true) (hfits : t'.Fits codec file)
    (hfile : s.persisted codec ≠ none → file = s.file) :
    Sound codec { s.setTask j t' with file } := by
  have hpos := inFlight_pos hj hlive
  obtain ⟨hnone, hchecked⟩ := hs.of_inFlight hpos
  have hinFlight := inFlight_setTask t' hj
  have hle : (s.setTask j t').inFlight ≤ s.inFlight := by
    rw [if_pos hlive] at hinFlight
    split_ifs at hinFlight <;> omega
  have hkept : persistedTunnelState codec file = none → s.persisted codec = none := by
    intro hpersisted
    by_contra hne
    rw [hfile hne] at hpersisted
    exact hne hpersisted
  refine ⟨hs.holders, ?_, ?_, fun url hurl => absurd hurl (hnone url), ?_, ?_, ?_⟩
  · show s.pending + (s.setTask j t').inFlight ≤ 1
    have hsingle := hs.single
    omega
  · intro _ hpersisted
    exact hs.awaiting (by omega) (hkept hpersisted)
  · intro g hg
    obtain ⟨l, hl⟩ := List.mem_iff_getElem?.mp hg
    have hl : (s.tasks.set j t')[l]? = some g := hl
    rw [getElem?_set_of_some hj] at hl
    split_ifs at hl with heq
    · exact Option.some.inj hl ▸ hfits
    · -- any other task is over
      have hsingle : s.tasks.countP Task.live ≤ 1 := (Nat.le_add_left _ _).trans hs.single
      have hover : g.live ≠ true := fun hg => heq (eq_of_countP_le_one hsingle hl hg hj hlive)
      cases g with
      | ended url => trivial
      | _ => exact absurd rfl hover
  · intro url hurl hpersisted
    exact hs.claimed url hurl (hkept hpersisted)
  · intro url hurl hclaim
    exact absurd (hchecked url hurl) hclaim

/-- A claim task that says that it failed. -/
theorem Sound.fail {url message : String} (hs : Sound codec s)
    (hj : s.tasks[j]? = some (.failing url message)) (hfree : s.holders = 0) :
    Sound codec { s.setTask j (.ended url) with claim := .failed message } := by
  have hset : Sound codec (s.setTask j (.ended url)) :=
    hs.setTask (.ended url) hj rfl trivial fun _ => rfl
  have hinFlight : (s.setTask j (.ended url)).inFlight + 1 = s.inFlight :=
    inFlight_setTask (.ended url) hj
  have hidle : s.pending + (s.setTask j (.ended url)).inFlight = 0 := by
    have hsingle := hs.single
    omega
  exact ⟨hset.holders, hset.single, fun hpos => absurd hidle hpos.ne', hset.accepted, hset.fits,
    hset.claimed, fun url' hurl => absurd hfree (holders_pos hurl).ne'⟩

/-- **Every action keeps the invariant.** -/
theorem Sound.step (hclosed : codec.Closed) (hs : Sound codec s) (hstep : step codec s e = some s') :
    Sound codec s' := by
  cases acts_of_step hstep with
  | submit inviteUrl => exact hs.submit _
  | lock hi hfree => exact hs.setHandler hi (fun _ => .inr hfree) rfl rfl nofun
  | check hi =>
    refine hs.setHandler hi (fun _ => .inl rfl) rfl rfl fun url b heq => ?_
    cases heq
    rfl
  | judge hi => exact hs.judge hi
  | spawn hi => exact hs.spawn hi
  | advance hj hlive hfits =>
    exact hs.setTask _ hj hlive (hfits (hs.fits _ (List.mem_of_getElem? hj))) fun _ => rfl
  | truncate persisted hj =>
    have hnone : s.persisted codec = none := hs.fits _ (List.mem_of_getElem? hj)
    exact hs.setTask _ hj rfl ⟨[], rfl, rfl⟩ fun hne => absurd hnone hne
  | @write j url persisted b rest hj =>
    obtain ⟨written, hfile, hwhole⟩ := hs.fits _ (List.mem_of_getElem? hj)
    -- what is in the file is not the whole object yet
    have hnone : s.persisted codec = none := by
      rw [State.persisted, hfile]
      refine hclosed persisted written ⟨b :: rest, hwhole⟩ fun heq => ?_
      rw [← heq] at hwhole
      exact absurd (List.append_right_eq_self.mp hwhole) (List.cons_ne_nil b rest)
    refine hs.setTask _ hj rfl ⟨written ++ [b], ?_, ?_⟩ fun hne => absurd hnone hne
    · rw [hfile]
      rfl
    · rw [← hwhole, List.append_assoc]
      rfl
  | fail hj hfree => exact hs.fail hj hfree
  | reset => exact sound_init s.file
  | look => exact ⟨hs.holders, hs.single, hs.awaiting, hs.accepted, hs.fits, hs.claimed, hs.unclaimed⟩

/-! ## Main result -/

/-- The invariant gives what is to hold. -/
theorem Sound.singleClaim (hs : Sound codec s) : SingleClaim codec s := by
  have hawaiting : 0 < s.inFlight → s.persisted codec = none → s.claim = .awaiting :=
    fun hpos => hs.awaiting (Nat.lt_of_lt_of_le hpos (Nat.le_add_left _ _))
  refine ⟨(Nat.le_add_left _ _).trans hs.single, ?_, hawaiting, ?_⟩
  · intro e s' hstep hlength
    cases acts_of_step hstep with
    | @spawn i url hi =>
      obtain ⟨⟨parsed, hparse⟩, hnone⟩ := hs.accepted url (List.mem_of_getElem? hi)
      exact ⟨url, parsed, rfl, hparse, hnone⟩
    | advance hj => exact absurd hlength (by simp [State.setTask])
    | truncate persisted hj => exact absurd hlength (by simp [State.setTask])
    | write hj => exact absurd hlength (by simp [State.setTask])
    | fail hj => exact absurd hlength (by simp [State.setTask])
    | reset => exact absurd hlength (Nat.not_lt_zero _)
    | _ => exact absurd hlength (lt_irrefl _)
  · intro e s' k view hstep hview hbefore hpos hnone
    cases acts_of_step hstep with
    | look hviews =>
      rcases hviews k view hview with hold | hpersisted | rfl
      · exact absurd hold hbefore
      · exact absurd hnone hpersisted
      · rw [hawaiting hpos hnone]
        rfl
    | reset => cases hview
    | _ => exact absurd hview hbefore

/-- **In every run at most one claim is in flight, and the dashboard says so.** -/
theorem single_claim (hclosed : codec.Closed) {file : Option (List UInt8)} {es : List Event}
    (hruns : runs (step codec) (State.init file) es = some s) : SingleClaim codec s :=
  (runs_invariant (Sound codec) (fun _ _ _ hs => hs.step hclosed) (sound_init file) hruns).singleClaim

def sampleTunnel : PersistedTunnel where
  tunnel := ⟨"wg0", "10.10.0.2", 24, "AAAAAAAAAAAAAAAAAAAAAAAAAAAAAAAAAAAAAAAAAAA=",
    "example.net:51820", "10.10.0.0/24", 0⟩
  hostname := "kitchen.example.net"

/-- The JSON of the sample. -/
def sampleText : String :=
  "\x7b\n  \"tunnel\": \x7b\n    \"iface\": \"wg0\",\n    \"ip\": \"10.10.0.2\",\n" ++
  "    \"prefix\": 24,\n    \"edge_pubkey\": \"AAAAAAAAAAAAAAAAAAAAAAAAAAAAAAAAAAAAAAAAAAA=\",\n" ++
  "    \"edge_endpoint\": \"example.net:51820\",\n    \"edge_allowed_ips\": \"10.10.0.0/24\",\n" ++
  "    \"listen_port\": 0\n  \x7d,\n  \"hostname\": \"kitchen.example.net\"\n\x7d"

/-- JSON, tabulated at the sample. -/
def sampleCodec : Codec where
  toStringPretty persisted := if persisted = sampleTunnel then sampleText.toUTF8.toList else []
  fromStr bytes := if bytes = sampleText.toUTF8.toList then some sampleTunnel else none

theorem sampleCodec_closed : sampleCodec.Closed := by
  intro persisted bytes hpre hne
  refine if_neg fun heq => ?_
  unfold sampleCodec at hpre hne
  dsimp only at hpre hne
  split_ifs at hpre hne with hsample
  · exact hne heq
  · exact hne (List.prefix_nil.mp hpre)

def sampleUrl : String := "https://example.net/i/polluted-move-cheetah-apple"

/-- A second request has the lock while the first claim is in flight. -/
theorem single_claim_twice : SingleClaim sampleCodec
    ⟨none, .awaiting, [.done, .checked sampleUrl false], [.spawned sampleUrl], []⟩ := by
  have hruns : runs (step sampleCodec) (State.init none) [.submit (some sampleUrl), .lock 0, .check 0,
      .submit (some sampleUrl), .judge 0, .lock 1, .spawn 0, .check 1] =
      some ⟨none, .awaiting, [.done, .checked sampleUrl false], [.spawned sampleUrl], []⟩ := by
    decide
  exact single_claim sampleCodec_closed hruns

end Claims
end Client
end Cococoir
