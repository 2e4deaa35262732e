import Cococoir.Concurrency.Steps
import Cococoir.Forwarder.Live
import Mathlib.Data.List.Basic
import Mathlib.Logic.Function.Basic
import Mathlib.Order.Basic

/-!
# Serve tasks and what they spawn

A serve task accepts connections, or reads datagrams; each connection, and the flow of each new source,
gets a task of its own.  The counters count those tasks.  The read loop of a UDP forward spawns the
relay of a flow first and inserts the flow into its map afterwards, and the relay removes it by its
source when it ends.

* `step`: the read loops and the relays, one action at a time, and `acts_of_step`, what each does.
* `Sound`: what is to hold of the map and the counters.
* `deadEntry`: a relay that ends before its flow is inserted leaves it there.
* `sound_runs`: in every run without that, the map and the counters are right throughout.

## In whose hand

A flow comes into being in three actions: the read loop finds no flow for the source, counts and
spawns a task, and inserts the flow.  Between the last two the relay runs already.  `InHand` says
what a serve task is in the middle of, and `Wired` that flows and relays belong together one to
one, but for what is in hand.  The relay's own end removes the flow by its source.  If this comes
before the insertion there is nothing to remove, and the insertion puts in a flow whose relay is
dead; nobody will remove it, and later datagrams of the source go nowhere.

`Inserted` excludes this one order.  The counters need no such condition: a task is counted before
it is spawned and uncounted when it ends, whatever the flows are.
-/

namespace Cococoir
namespace Forwarder
namespace Flows

open Concurrency

abbrev SocketAddr : Type := String

/-- Where the task of a connection or of a flow is. -/
inductive TaskPhase : Type where
  /-- Counted by its serve task, and not spawned yet. -/
  | counted : TaskPhase
  | running : TaskPhase
  /-- Out of the relay's loop, with its flow still in the map. -/
  | leaving : TaskPhase
  | left : TaskPhase
  /-- The counter was positive. -/
  | checked : TaskPhase
  | done : TaskPhase
  deriving DecidableEq

structure Task : Type where
  proto : Proto
  /-- The serve task that spawned it. -/
  serve : ℕ
  src : SocketAddr
  phase : TaskPhase
  deriving DecidableEq

/-- Where a serve task is. -/
inductive ServePhase : Type where
  /-- Waiting for a connection, a datagram or the shutdown. -/
  | waiting : ServePhase
  /-- A datagram was read. -/
  | taken (src : SocketAddr) : ServePhase
  /-- Its source has no flow, and the socket to the destination is being opened. -/
  | opening (src : SocketAddr) : ServePhase
  | counted (task : ℕ) (src : SocketAddr) : ServePhase
  | spawned (task : ℕ) (src : SocketAddr) : ServePhase
  /-- The datagram is being sent on. -/
  | sending : ServePhase
  | stopped : ServePhase
  deriving DecidableEq

structure State : Type where
  serves : ℕ → ServePhase
  /-- The flows of each UDP serve task, by source, with the task that relays for them. -/
  flows : ℕ × SocketAddr → Option ℕ
  tasks : List Task
  counter : Proto → ℤ

/-- Before the first datagram. -/
def State.init : State := ⟨fun _ => .waiting, fun _ => none, [], fun _ => 0⟩

def State.setServe (s : State) (l : ℕ) (p : ServePhase) : State :=
  { s with serves := Function.update s.serves l p }

def State.setTask (s : State) (i : ℕ) (t : Task) : State := { s with tasks := s.tasks.set i t }

def State.setFlow (s : State) (key : ℕ × SocketAddr) (flow : Option ℕ) : State :=
  { s with flows := Function.update s.flows key flow }

def State.uncount (s : State) (p : Proto) : State :=
  { s with counter := Function.update s.counter p (s.counter p - 1) }

inductive Event : Type where
  /-- A connection is accepted, and counted. -/
  | accept (l : ℕ) (src : SocketAddr) : Event
  /-- A datagram is read. -/
  | take (l : ℕ) (src : SocketAddr) : Event
  | lookup (l : ℕ) : Event
  | openFails (l : ℕ) : Event
  /-- The socket to the destination is open, and the flow is counted. -/
  | opened (l : ℕ) : Event
  | spawn (l : ℕ) : Event
  | insert (l : ℕ) : Event
  | sent (l : ℕ) : Event
  /-- A serve task ends: by the shutdown, by an error, or because its forward is removed. -/
  | stop (l : ℕ) : Event
  /-- A connection or a relay's loop ends, for whatever reason. -/
  | leave (i : ℕ) : Event
  /-- A relay removes its source from the map. -/
  | remove (i : ℕ) : Event
  | check (i : ℕ) : Event
  | uncount (i : ℕ) : Event
  deriving DecidableEq

variable (proto : ℕ → Proto)

/-- A new task, counted. -/
def State.count (s : State) (l : ℕ) (src : SocketAddr) : State where
  serves := Function.update s.serves l (.counted s.tasks.length src)
  flows := s.flows
  tasks := s.tasks ++ [⟨proto l, l, src, .counted⟩]
  counter := Function.update s.counter (proto l) (s.counter (proto l) + 1)

def step (s : State) : Event → Option State
  | .accept l src =>
    if s.serves l = .waiting ∧ proto l = .tcp then some (s.count proto l src) else none
  | .take l src =>
    if s.serves l = .waiting ∧ proto l = .udp then some (s.setServe l (.taken src)) else none
  | .lookup l =>
    match s.serves l with
    | .taken src =>
      some (s.setServe l (if (s.flows (l, src)).isSome then .sending else .opening src))
    | _ => none
  | .openFails l =>
    match s.serves l with
    | .opening _ => some (s.setServe l .waiting)
    | _ => none
  | .opened l =>
    match s.serves l with
    | .opening src => some (s.count proto l src)
    | _ => none
  | .spawn l =>
    match s.serves l with
    | .counted i src =>
      some ((s.setTask i ⟨proto l, l, src, .running⟩).setServe l
        (if proto l = .udp then .spawned i src else .waiting))
    | _ => none
  | .insert l =>
    match s.serves l with
    | .spawned i src => some ((s.setFlow (l, src) (some i)).setServe l .sending)
    | _ => none
  | .sent l => if s.serves l = .sending then some (s.setServe l .waiting) else none
  | .stop l =>
    -- it can be dropped where it waits, and nowhere else
    match s.serves l with
    | .waiting | .opening _ | .sending => some (s.setServe l .stopped)
    | _ => none
  | .leave i =>
    match s.tasks[i]? with
    | some ⟨p, l, src, .running⟩ =>
      some (s.setTask i ⟨p, l, src, if p = .udp then .leaving else .left⟩)
    | _ => none
  | .remove i =>
    match s.tasks[i]? with
    | some ⟨p, l, src, .leaving⟩ => some ((s.setFlow (l, src) none).setTask i ⟨p, l, src, .left⟩)
    | _ => none
  | .check i =>
    match s.tasks[i]? with
    | some ⟨p, l, src, .left⟩ =>
      some (s.setTask i ⟨p, l, src, if 0 < s.counter p then .checked else .done⟩)
    | _ => none
  | .uncount i =>
    match s.tasks[i]? with
    | some ⟨p, l, src, .checked⟩ => some ((s.setTask i ⟨p, l, src, .done⟩).uncount p)
    | _ => none

/-! ## What is to hold -/

/-- A relay that has not removed its flow. -/
def Task.Relays (t : Task) : Prop := t.proto = .udp ∧ (t.phase = .running ∨ t.phase = .leaving)

/-- A task of the protocol that has been counted and not uncounted. -/
def Task.live (p : Proto) (t : Task) : Bool := t.proto = p ∧ t.phase ≠ .done

/-- Task `i` relays for the source. -/
def State.RelayOf (s : State) (i l : ℕ) (src : SocketAddr) : Prop :=
  ∃ t : Task, s.tasks[i]? = some t ∧ t.Relays ∧ t.serve = l ∧ t.src = src

/-- The flows and the counters are right. -/
structure Sound (s : State) : Prop where
  /-- A source has one relay at most. -/
  single : ∀ i j l src, s.RelayOf i l src → s.RelayOf j l src → i = j
  /-- Every entry belongs to a relay. -/
  entries : ∀ l src i, s.flows (l, src) = some i → s.RelayOf i l src
  /-- What a relay is about to remove is its own. -/
  own : ∀ i j l src, s.RelayOf i l src → s.flows (l, src) = some j → j = i
  counters : ∀ p, s.counter p = s.tasks.countP (Task.live p)
  nonneg : ∀ p, 0 ≤ s.counter p

/-- A relay does not remove its flow before it is inserted. -/
def Inserted (s : State) (e : Event) : Prop :=
  ∀ i, e = .remove i → ∀ l src, s.serves l ≠ .spawned i src

/-! ## The invariant -/

variable {proto} {s s' : State} {i j l : ℕ} {t t' t'' : Task} {src : SocketAddr} {e : Event}
  {es : List Event} {p : ServePhase}

/-- What one action does, and when it can happen. -/
inductive Acts (proto : ℕ → Proto) (s : State) : Event → State → Prop
  | accept {l : ℕ} (src : SocketAddr) (hl : s.serves l = .waiting) (hproto : proto l = .tcp) :
      Acts proto s (.accept l src) (s.count proto l src)
  | take {l : ℕ} (src : SocketAddr) (hl : s.serves l = .waiting) :
      Acts proto s (.take l src) (s.setServe l (.taken src))
  | lookup {l : ℕ} {src : SocketAddr} (hl : s.serves l = .taken src) : Acts proto s (.lookup l)
      (s.setServe l (if (s.flows (l, src)).isSome then .sending else .opening src))
  | openFails {l : ℕ} {src : SocketAddr} (hl : s.serves l = .opening src) :
      Acts proto s (.openFails l) (s.setServe l .waiting)
  | opened {l : ℕ} {src : SocketAddr} (hl : s.serves l = .opening src) :
      Acts proto s (.opened l) (s.count proto l src)
  | spawn {l i : ℕ} {src : SocketAddr} (hl : s.serves l = .counted i src) : Acts proto s (.spawn l)
      ((s.setTask i ⟨proto l, l, src, .running⟩).setServe l
        (if proto l = .udp then .spawned i src else .waiting))
  | insert {l i : ℕ} {src : SocketAddr} (hl : s.serves l = .spawned i src) :
      Acts proto s (.insert l) ((s.setFlow (l, src) (some i)).setServe l .sending)
  | sent {l : ℕ} (hl : s.serves l = .sending) : Acts proto s (.sent l) (s.setServe l .waiting)
  | stop {l : ℕ} (hl : ∀ i src, s.serves l ≠ .spawned i src) :
      Acts proto s (.stop l) (s.setServe l .stopped)
  | leave {i l : ℕ} {p : Proto} {src : SocketAddr} (hi : s.tasks[i]? = some ⟨p, l, src, .running⟩) :
      Acts proto s (.leave i) (s.setTask i ⟨p, l, src, if p = .udp then .leaving else .left⟩)
  | remove {i l : ℕ} {p : Proto} {src : SocketAddr} (hi : s.tasks[i]? = some ⟨p, l, src, .leaving⟩) :
      Acts proto s (.remove i) ((s.setFlow (l, src) none).setTask i ⟨p, l, src, .left⟩)
  | check {i l : ℕ} {p : Proto} {src : SocketAddr} (hi : s.tasks[i]? = some ⟨p, l, src, .left⟩) :
      Acts proto s (.check i)
        (s.setTask i ⟨p, l, src, if 0 < s.counter p then .checked else .done⟩)
  | uncount {i l : ℕ} {p : Proto} {src : SocketAddr} (hi : s.tasks[i]? = some ⟨p, l, src, .checked⟩) :
      Acts proto s (.uncount i) ((s.setTask i ⟨p, l, src, .done⟩).uncount p)

/-- **A step is one of the actions.** -/
theorem acts_of_step (h : step proto s e = some s') : Acts proto s e s' := by
  cases e with
  | accept l src =>
    obtain ⟨⟨hl, hproto⟩, hs⟩ := Option.ite_none_right_eq_some.mp h
    cases hs
    exact .accept src hl hproto
  | take l src =>
    obtain ⟨⟨hl, -⟩, hs⟩ := Option.ite_none_right_eq_some.mp h
    cases hs
    exact .take src hl
  | sent l =>
    obtain ⟨hl, hs⟩ := Option.ite_none_right_eq_some.mp h
    cases hs
    exact .sent hl
  | lookup l =>
    dsimp only [step] at h
    split at h
    · case h_1 hl => exact Option.some.inj h ▸ .lookup hl
    · cases h
  | openFails l =>
    dsimp only [step] at h
    split at h
    · case h_1 hl => exact Option.some.inj h ▸ .openFails hl
    · cases h
  | opened l =>
    dsimp only [step] at h
    split at h
    · case h_1 hl => exact Option.some.inj h ▸ .opened hl
    · cases h
  | spawn l =>
    dsimp only [step] at h
    split at h
    · case h_1 hl => exact Option.some.inj h ▸ .spawn hl
    · cases h
  | insert l =>
    dsimp only [step] at h
    split at h
    · case h_1 hl => exact Option.some.inj h ▸ .insert hl
    · cases h
  | stop l =>
    cases hl : s.serves l with
    | waiting | opening src | sending =>
      simp only [step, hl, Option.some.injEq] at h
      exact h ▸ .stop (by simp [hl])
    | _ => simp [step, hl] at h
  | leave i =>
    dsimp only [step] at h
    split at h
    · case h_1 hi => exact Option.some.inj h ▸ .leave hi
    · cases h
  | remove i =>
    dsimp only [step] at h
    split at h
    · case h_1 hi => exact Option.some.inj h ▸ .remove hi
    · cases h
  | check i =>
    dsimp only [step] at h
    split at h
    · case h_1 hi => exact Option.some.inj h ▸ .check hi
    · cases h
  | uncount i =>
    dsimp only [step] at h
    split at h
    · case h_1 hi => exact Option.some.inj h ▸ .uncount hi
    · cases h

/-- What a serve task has in hand: a source without a flow, and the task that it counted or spawned
for it. -/
def InHand (proto : ℕ → Proto) (s : State) (l : ℕ) : ServePhase → Prop
  | .opening src => s.flows (l, src) = none
  | .counted i src => s.tasks[i]? = some ⟨proto l, l, src, .counted⟩ ∧ s.flows (l, src) = none
  | .spawned i src => s.RelayOf i l src ∧ s.flows (l, src) = none
  | _ => True

/-- Relays and flows belong together, but for the one that is to be inserted. -/
structure Wired (proto : ℕ → Proto) (s : State) : Prop where
  protos : ∀ (i : ℕ) (t : Task), s.tasks[i]? = some t → t.proto = proto t.serve
  entries : ∀ l src i, s.flows (l, src) = some i → s.RelayOf i l src
  relays : ∀ i l src, s.RelayOf i l src → s.flows (l, src) = some i ∨ s.serves l = .spawned i src
  inHand : ∀ l, InHand proto s l (s.serves l)

/-- The counters count the live tasks. -/
def Counted (s : State) : Prop := ∀ p, s.counter p = s.tasks.countP (Task.live p)

theorem wired_init : Wired proto .init where
  protos _ _ h := by cases h
  entries _ _ _ h := by cases h
  relays _ _ _ := by rintro ⟨_, h, -⟩; cases h
  inHand _ := trivial

/-- What a serve task has in hand stays, when its flows and its task do. -/
theorem InHand.of (h : InHand proto s l p)
    (hflows : ∀ src, s.flows (l, src) = none → s'.flows (l, src) = none)
    (hcounted : ∀ i src, p = .counted i src → s.tasks[i]? = some ⟨proto l, l, src, .counted⟩ →
      s'.tasks[i]? = some ⟨proto l, l, src, .counted⟩)
    (hspawned : ∀ i src, p = .spawned i src → s.RelayOf i l src → s'.RelayOf i l src) :
    InHand proto s' l p := by
  cases p with
  | opening src => exact hflows src h
  | counted i src => exact ⟨hcounted i src rfl h.1, hflows src h.2⟩
  | spawned i src => exact ⟨hspawned i src rfl h.1, hflows src h.2⟩
  | waiting | taken src | sending | stopped => trivial

/-- Who relays, after a task went on. -/
theorem relayOf_setTask (hi : s.tasks[i]? = some t) : (s.setTask i t').RelayOf j l src ↔
    (j = i ∧ t'.Relays ∧ t'.serve = l ∧ t'.src = src) ∨ (j ≠ i ∧ s.RelayOf j l src) := by
  show (∃ u, (s.tasks.set i t')[j]? = some u ∧ _) ↔ _
  rw [getElem?_set_of_some hi]
  by_cases hj : j = i
  · rw [if_pos hj]
    constructor
    · rintro ⟨u, hu, h⟩
      cases hu
      exact .inl ⟨hj, h⟩
    · rintro (⟨-, h⟩ | ⟨hne, -⟩)
      · exact ⟨t', rfl, h⟩
      · exact absurd hj hne
  · rw [if_neg hj]
    constructor
    · exact fun h => .inr ⟨hj, h⟩
    · rintro (⟨heq, -⟩ | ⟨-, h⟩)
      · exact absurd heq hj
      · exact h

/-- A task relays as before, when it relays for the same source or for none. -/
theorem relayOf_setTask_iff (hi : s.tasks[i]? = some t) (hserve : t'.serve = t.serve) (hsrc : t'.src = t.src)
    (hrelays : t'.Relays ↔ t.Relays) : (s.setTask i t').RelayOf j l src ↔ s.RelayOf j l src := by
  rw [relayOf_setTask hi, hserve, hsrc, hrelays]
  constructor
  · rintro (⟨rfl, h⟩ | ⟨-, h⟩)
    · exact ⟨t, hi, h⟩
    · exact h
  · intro h
    by_cases hj : j = i
    · subst hj
      obtain ⟨u, hu, h⟩ := h
      cases hi.symm.trans hu
      exact .inl ⟨rfl, h⟩
    · exact .inr ⟨hj, h⟩

/-! ## What the actions keep -/

/-- A serve task goes on, and has in hand what it should. -/
theorem Wired.setServe (h : Wired proto s) (hold : ∀ i src, s.serves l ≠ .spawned i src)
    (hp : InHand proto s l p) : Wired proto (s.setServe l p) where
  protos := h.protos
  entries := h.entries
  relays i l' src hi := by
    refine (h.relays i l' src hi).imp_right fun hserve => ?_
    have hl : l' ≠ l := fun hl => hold _ _ (hl ▸ hserve)
    exact (Function.update_of_ne hl _ _).trans hserve
  inHand l' := by
    show InHand proto s l' (Function.update s.serves l p l')
    by_cases hl : l' = l
    · rw [hl, Function.update_self]
      exact hp
    · rw [Function.update_of_ne hl]
      exact h.inHand l'

/-- The protocol of a task stays that of its serve task. -/
theorem protos_setTask (h : ∀ (i : ℕ) (t : Task), s.tasks[i]? = some t → t.proto = proto t.serve)
    (hi : s.tasks[i]? = some t) (ht' : t'.proto = proto t'.serve)
    (hj : (s.setTask i t').tasks[j]? = some t'') : t''.proto = proto t''.serve := by
  replace hj := (getElem?_set_of_some hi).symm.trans hj
  split_ifs at hj with hji
  · exact Option.some.inj hj ▸ ht'
  · exact h j t'' hj

/-- A task goes on, and relays as before. -/
theorem Wired.setTask (h : Wired proto s) (hi : s.tasks[i]? = some t) (hproto : t'.proto = t.proto)
    (hserve : t'.serve = t.serve) (hsrc : t'.src = t.src) (hrelays : t'.Relays ↔ t.Relays)
    (hphase : t.phase ≠ .counted) : Wired proto (s.setTask i t') := by
  have hrelay {j l : ℕ} {src : SocketAddr} : (s.setTask i t').RelayOf j l src ↔ s.RelayOf j l src :=
    relayOf_setTask_iff hi hserve hsrc hrelays
  refine ⟨fun j u => protos_setTask h.protos hi ?_, fun l src j hj => hrelay.mpr (h.entries l src j hj),
    fun j l src hj => h.relays j l src (hrelay.mp hj), fun l => ?_⟩
  · rw [hproto, hserve, h.protos i t hi]
  · refine (h.inHand l).of (fun _ hflow => hflow) (fun j src _ hj => ?_) fun j src _ => hrelay.mpr
    have hji : j ≠ i := by
      rintro rfl
      cases hi.symm.trans hj
      exact hphase rfl
    exact (getElem?_set_of_some hi).trans ((if_neg hji).trans hj)

/-- A new task, for a source without a flow. -/
theorem Wired.count (h : Wired proto s) (hold : ∀ i src, s.serves l ≠ .spawned i src)
    (hflow : s.flows (l, src) = none) : Wired proto (s.count proto l src) := by
  have hlast : (s.count proto l src).tasks[s.tasks.length]? = some ⟨proto l, l, src, .counted⟩ :=
    List.getElem?_concat_length
  have hbefore {j : ℕ} {u : Task} (hj : s.tasks[j]? = some u) : (s.count proto l src).tasks[j]? = some u :=
    (List.getElem?_append_left (List.getElem?_eq_some_iff.mp hj).1).trans hj
  have htasks {j : ℕ} {u : Task} (hj : (s.count proto l src).tasks[j]? = some u) :
      s.tasks[j]? = some u ∨ u = ⟨proto l, l, src, .counted⟩ :=
    (getElem?_concat_cases hj).imp_right And.right
  have hrelay {j l' : ℕ} {src' : SocketAddr} :
      (s.count proto l src).RelayOf j l' src' ↔ s.RelayOf j l' src' := by
    constructor
    · rintro ⟨u, hj, hu, h⟩
      rcases htasks hj with hj | rfl
      · exact ⟨u, hj, hu, h⟩
      · obtain ⟨-, hphase | hphase⟩ := hu <;> cases hphase
    · rintro ⟨u, hj, h⟩
      exact ⟨u, hbefore hj, h⟩
  refine ⟨fun j u hj => ?_, fun l' src' j hj => hrelay.mpr (h.entries l' src' j hj),
    fun j l' src' hj => ?_, fun l' => ?_⟩
  · rcases htasks hj with hj | rfl
    · exact h.protos j u hj
    · rfl
  · refine (h.relays j l' src' (hrelay.mp hj)).imp_right fun hserve => ?_
    have hl : l' ≠ l := fun hl => hold _ _ (hl ▸ hserve)
    exact (Function.update_of_ne hl _ _).trans hserve
  · show InHand proto (s.count proto l src) l' (Function.update s.serves l _ l')
    by_cases hl : l' = l
    · rw [hl, Function.update_self]
      exact ⟨hlast, hflow⟩
    · rw [Function.update_of_ne hl]
      exact (h.inHand l').of (fun _ hflow => hflow) (fun _ _ _ => hbefore) fun _ _ _ => hrelay.mpr

/-- The task that a serve task counted is spawned. -/
theorem Wired.spawn (h : Wired proto s) (hl : s.serves l = .counted i src) :
    Wired proto ((s.setTask i ⟨proto l, l, src, .running⟩).setServe l
      (if proto l = .udp then .spawned i src else .waiting)) := by
  have hin : s.tasks[i]? = some ⟨proto l, l, src, .counted⟩ ∧ s.flows (l, src) = none := by
    have hin := h.inHand l
    rwa [hl] at hin
  -- a task that is only counted does not relay
  have hne {j l' : ℕ} {src' : SocketAddr} (hj : s.RelayOf j l' src') : j ≠ i := by
    rintro rfl
    obtain ⟨u, hu, ⟨-, hphase | hphase⟩, -⟩ := hj <;> cases hin.1.symm.trans hu <;> cases hphase
  have hkeep {j l' : ℕ} {src' : SocketAddr} (hj : s.RelayOf j l' src') :
      (s.setTask i ⟨proto l, l, src, .running⟩).RelayOf j l' src' :=
    (relayOf_setTask hin.1).mpr (.inr ⟨hne hj, hj⟩)
  refine ⟨fun j u => protos_setTask h.protos hin.1 rfl, fun l' src' j hj => hkeep (h.entries l' src' j hj),
    fun j l' src' hj => ?_, fun l' => ?_⟩
  · rcases (relayOf_setTask hin.1).mp hj with ⟨rfl, ⟨hproto, -⟩, rfl, rfl⟩ | ⟨-, hj⟩
    · refine .inr ((Function.update_self _ _ _).trans ?_)
      exact if_pos hproto
    · refine (h.relays j l' src' hj).imp_right fun hserve => ?_
      have hl' : l' ≠ l := by
        rintro rfl
        cases hl.symm.trans hserve
      exact (Function.update_of_ne hl' _ _).trans hserve
  · show InHand proto (s.setTask i _) l' (Function.update s.serves l _ l')
    by_cases hl' : l' = l
    · rw [hl', Function.update_self]
      by_cases hproto : proto l = .udp
      · rw [if_pos hproto]
        exact ⟨(relayOf_setTask hin.1).mpr (.inl ⟨rfl, ⟨hproto, .inl rfl⟩, rfl, rfl⟩), hin.2⟩
      · rw [if_neg hproto]
        trivial
    · rw [Function.update_of_ne hl']
      refine (h.inHand l').of (fun _ hflow => hflow) (fun j src' _ hj => ?_) fun _ _ _ => hkeep
      have hji : j ≠ i := by
        rintro rfl
        exact hl' (congrArg Task.serve (Option.some.inj (hin.1.symm.trans hj))).symm
      exact (getElem?_set_of_some hin.1).trans ((if_neg hji).trans hj)

/-- The flow of a relay that still relays is inserted. -/
theorem Wired.insert (h : Wired proto s) (hl : s.serves l = .spawned i src) :
    Wired proto ((s.setFlow (l, src) (some i)).setServe l .sending) := by
  have hin : s.RelayOf i l src ∧ s.flows (l, src) = none := by
    have hin := h.inHand l
    rwa [hl] at hin
  refine ⟨h.protos, fun l' src' j hj => ?_, fun j l' src' hj => ?_, fun l' => ?_⟩
  · replace hj : Function.update s.flows (l, src) (some i) (l', src') = some j := hj
    by_cases hkey : (l', src') = (l, src)
    · rw [hkey, Function.update_self] at hj
      cases hkey
      cases hj
      exact hin.1
    · rw [Function.update_of_ne hkey] at hj
      exact h.entries l' src' j hj
  · rcases h.relays j l' src' hj with hflow | hserve
    · have hkey : (l', src') ≠ (l, src) := fun hkey => by
        rw [hkey, hin.2] at hflow
        cases hflow
      exact .inl ((Function.update_of_ne hkey _ _).trans hflow)
    · by_cases hl' : l' = l
      · subst hl'
        cases hl.symm.trans hserve
        exact .inl (Function.update_self _ _ _)
      · exact .inr ((Function.update_of_ne hl' _ _).trans hserve)
  · show InHand proto (s.setFlow (l, src) (some i)) l' (Function.update s.serves l _ l')
    by_cases hl' : l' = l
    · rw [hl', Function.update_self]
      trivial
    · rw [Function.update_of_ne hl']
      refine (h.inHand l').of (fun src' hflow => ?_) (fun _ _ _ hj => hj) fun _ _ _ hj => hj
      exact (Function.update_of_ne (fun hkey => hl' (congrArg Prod.fst hkey)) _ _).trans hflow

/-- A relay removes its flow, which is inserted. -/
theorem Wired.remove (h : Wired proto s) (hi : s.tasks[i]? = some t) (hphase : t.phase = .leaving)
    (hins : ∀ l src, s.serves l ≠ .spawned i src) (ht' : t' = { t with phase := .left }) :
    Wired proto ((s.setFlow (t.serve, t.src) none).setTask i t') := by
  have hleft : ¬t'.Relays := by
    rintro ⟨-, hphase | hphase⟩ <;> rw [ht'] at hphase <;> cases hphase
  -- the entry of its source, where there is one, is its own
  have hown {j : ℕ} (hj : s.flows (t.serve, t.src) = some j) : j = i := by
    obtain ⟨u, hu, hrelays, hserve, -⟩ := h.entries _ _ _ hj
    have hproto : t.proto = .udp := by
      rw [h.protos i t hi, ← hserve, ← h.protos j u hu]
      exact hrelays.1
    rcases h.relays i t.serve t.src ⟨t, hi, ⟨hproto, .inr hphase⟩, rfl, rfl⟩ with hflow | hserve
    · exact Option.some.inj (hj.symm.trans hflow)
    · exact absurd hserve (hins _ _)
  have hrelay {j l : ℕ} {src : SocketAddr} :
      ((s.setFlow (t.serve, t.src) none).setTask i t').RelayOf j l src ↔ j ≠ i ∧ s.RelayOf j l src := by
    refine (relayOf_setTask (s := s.setFlow (t.serve, t.src) none) hi).trans ?_
    exact or_iff_right fun hj => hleft hj.2.1
  refine ⟨fun j u => ?_, fun l src j hj => ?_, fun j l src hj => ?_, fun l => ?_⟩
  · refine protos_setTask (s := s.setFlow (t.serve, t.src) none) h.protos hi ?_
    rw [ht']
    exact h.protos i t hi
  · replace hj : Function.update s.flows (t.serve, t.src) none (l, src) = some j := hj
    by_cases hkey : (l, src) = (t.serve, t.src)
    · rw [hkey, Function.update_self] at hj
      cases hj
    · rw [Function.update_of_ne hkey] at hj
      refine hrelay.mpr ⟨?_, h.entries l src j hj⟩
      rintro rfl
      obtain ⟨u, hu, -, rfl, rfl⟩ := h.entries l src j hj
      cases hi.symm.trans hu
      exact hkey rfl
  · obtain ⟨hne, hj⟩ := hrelay.mp hj
    refine (h.relays j l src hj).imp_left fun hflow => ?_
    have hkey : (l, src) ≠ (t.serve, t.src) := fun hkey => hne (hown (hkey ▸ hflow))
    exact (Function.update_of_ne hkey _ _).trans hflow
  · refine (h.inHand l).of (fun src hflow => ?_) (fun j src _ hj => ?_) fun j src hserve hj => ?_
    · show Function.update s.flows (t.serve, t.src) none (l, src) = none
      by_cases hkey : (l, src) = (t.serve, t.src)
      · rw [hkey, Function.update_self]
      · rw [Function.update_of_ne hkey, hflow]
    · have hji : j ≠ i := by
        rintro rfl
        cases hi.symm.trans hj
        cases hphase
      exact (getElem?_set_of_some hi).trans ((if_neg hji).trans hj)
    · refine hrelay.mpr ⟨?_, hj⟩
      rintro rfl
      exact hins _ _ hserve

/-- A connection has no flow. -/
theorem Wired.flows_of_tcp (h : Wired proto s) (hl : proto l = .tcp) : s.flows (l, src) = none := by
  rw [Option.eq_none_iff_forall_ne_some]
  intro i hi
  obtain ⟨t, ht, ⟨hproto, -⟩, rfl, -⟩ := h.entries l src i hi
  cases hproto.symm.trans ((h.protos i t ht).trans hl)

/-- **Relays and flows stay together**, one action at a time, if no relay removes its flow before it is
inserted. -/
theorem Wired.step (h : Wired proto s) (hins : Inserted s e) (hstep : step proto s e = some s') :
    Wired proto s' := by
  cases acts_of_step hstep with
  | accept src hl hproto => exact h.count (by simp [hl]) (h.flows_of_tcp hproto)
  | take src hl => exact h.setServe (by simp [hl]) trivial
  | @lookup l src hl =>
    refine h.setServe (by simp [hl]) ?_
    split_ifs with hflow
    · trivial
    · exact Option.not_isSome_iff_eq_none.mp hflow
  | openFails hl => exact h.setServe (by simp [hl]) trivial
  | @opened l src hl =>
    have hin := h.inHand l
    rw [hl] at hin
    exact h.count (by simp [hl]) hin
  | spawn hl => exact h.spawn hl
  | insert hl => exact h.insert hl
  | sent hl => exact h.setServe (by simp [hl]) trivial
  | stop hl => exact h.setServe hl trivial
  | @leave i l p src hi =>
    refine h.setTask hi rfl rfl rfl ?_ (by simp)
    cases p <;> simp [Task.Relays]
  | @remove i l p src hi => exact h.remove hi rfl (hins i rfl) rfl
  | check hi =>
    refine h.setTask hi rfl rfl rfl ?_ (by simp)
    split_ifs <;> simp [Task.Relays]
  | @uncount i l p src hi =>
    have hdone : Wired proto (s.setTask i ⟨p, l, src, .done⟩) :=
      h.setTask hi rfl rfl rfl (by simp [Task.Relays]) (by simp)
    exact ⟨hdone.protos, hdone.entries, hdone.relays, hdone.inHand⟩

/-! ## The counters -/

/-- A task stays live, or stays dead. -/
theorem Counted.setTask (h : Counted s) (hi : s.tasks[i]? = some t) (hlive : ∀ p, t'.live p = t.live p) :
    Counted (s.setTask i t') := by
  intro p
  have hcount := countP_set_of_some (y := t') (Task.live p) hi
  rw [hlive p, Nat.add_right_cancel_iff] at hcount
  show s.counter p = ((s.tasks.set i t').countP (Task.live p) : ℤ)
  rw [hcount, h p]

/-- A task that ends is uncounted. -/
theorem Counted.uncount (h : Counted s) (hi : s.tasks[i]? = some t) (ht : t.phase ≠ .done)
    (ht' : t'.phase = .done) : Counted ((s.setTask i t').uncount t.proto) := by
  intro p
  have hcount := countP_set_of_some (y := t') (Task.live p) hi
  have hdead : t'.live p = false := by simp [Task.live, ht']
  rw [hdead] at hcount
  show Function.update s.counter t.proto (s.counter t.proto - 1) p =
    ((s.tasks.set i t').countP (Task.live p) : ℤ)
  by_cases hp : p = t.proto
  · subst hp
    have hlive : t.live t.proto = true := by simp [Task.live, ht]
    rw [hlive] at hcount
    rw [Function.update_self, h t.proto]
    simp only [if_true, Bool.false_eq_true, if_false] at hcount
    omega
  · have hlive : t.live p = false := by simp [Task.live, Ne.symm hp]
    rw [hlive] at hcount
    rw [Function.update_of_ne hp, h p]
    omega

/-- A new task is counted. -/
theorem Counted.count (h : Counted s) : Counted (s.count proto l src) := by
  intro p
  show Function.update s.counter (proto l) _ p =
    ((s.tasks ++ [(⟨proto l, l, src, .counted⟩ : Task)]).countP (Task.live p) : ℤ)
  rw [List.countP_append, List.countP_singleton]
  by_cases hp : p = proto l
  · subst hp
    rw [Function.update_self, h]
    simp [Task.live]
  · rw [Function.update_of_ne hp, h]
    simp [Task.live, Ne.symm hp]

/-- **The counters count the live tasks**, one action at a time: a counter is positive when one of its
tasks checks it. -/
theorem Counted.step (h : Counted s) (hw : Wired proto s) (hstep : step proto s e = some s') :
    Counted s' := by
  cases acts_of_step hstep with
  | accept _ _ _ | opened _ => exact h.count
  | take _ _ | lookup _ | openFails _ | insert _ | sent _ | stop _ => exact h
  | @spawn l i src hl =>
    have hin := hw.inHand l
    rw [hl] at hin
    exact h.setTask hin.1 fun q => by simp [Task.live]
  | leave hi => exact h.setTask hi fun q => by split_ifs <;> simp [Task.live]
  | @remove i l p src hi =>
    exact h.setTask (s := s.setFlow (l, src) none) hi fun q => by simp [Task.live]
  | @check i l p src hi =>
    have hlive : (⟨p, l, src, .left⟩ : Task).live p = true := by simp [Task.live]
    have hpos : 0 < s.counter p := by
      rw [h p, Int.natCast_pos]
      exact List.countP_pos_iff.mpr ⟨_, List.mem_of_getElem? hi, hlive⟩
    rw [if_pos hpos]
    exact h.setTask hi fun q => by simp [Task.live]
  | uncount hi => exact h.uncount hi (by simp) rfl

/-! ## Runs -/

theorem sound_of (hw : Wired proto s) (hc : Counted s) : Sound s where
  single i j l src hi hj := by
    rcases hw.relays i l src hi with hflow | hserve <;> rcases hw.relays j l src hj with hflow' | hserve'
    · exact Option.some.inj (hflow.symm.trans hflow')
    · have hin := hw.inHand l
      rw [hserve'] at hin
      cases hflow.symm.trans hin.2
    · have hin := hw.inHand l
      rw [hserve] at hin
      cases hflow'.symm.trans hin.2
    · cases hserve.symm.trans hserve'
      rfl
  entries := hw.entries
  own i j l src hi hj := by
    rcases hw.relays i l src hi with hflow | hserve
    · exact Option.some.inj (hj.symm.trans hflow)
    · have hin := hw.inHand l
      rw [hserve] at hin
      cases hj.symm.trans hin.2
  counters := hc
  nonneg p := by
    rw [hc p]
    exact Int.natCast_nonneg _

/-- A relay that ended before its flow was inserted leaves a dead flow, which is found for every later
datagram of its source. -/
theorem deadEntry : ∃ s, runs (step fun _ => .udp) .init
    [.take 0 "203.0.113.7:4000", .lookup 0, .opened 0, .spawn 0, .leave 0, .remove 0, .check 0, .uncount 0,
      .insert 0, .sent 0, .take 0 "203.0.113.7:4000", .lookup 0] = some s ∧
    s.flows (0, "203.0.113.7:4000") = some 0 ∧ ¬s.RelayOf 0 0 "203.0.113.7:4000" ∧ ¬Sound s ∧
    s.serves 0 = .sending := by
  have hdead : ∀ s : State, s.tasks[0]? = some ⟨.udp, 0, "203.0.113.7:4000", .done⟩ →
      ¬s.RelayOf 0 0 "203.0.113.7:4000" := by
    rintro s hs ⟨t, ht, ⟨-, hphase | hphase⟩, -⟩ <;> cases hs.symm.trans ht <;> cases hphase
  refine ⟨_, rfl, by decide, hdead _ (by decide), fun hsound => ?_, by decide⟩
  exact hdead _ (by decide) (hsound.entries 0 "203.0.113.7:4000" 0 (by decide))

/-- **The flows and the counters stay right**, whatever the order in which the serve tasks and what they
spawned act, in every run where no relay removes its flow before the read loop inserted it. -/
theorem sound_runs (hok : Along (step proto) Inserted .init es)
    (h : runs (step proto) .init es = some s) : Sound s := by
  have hinv : Wired proto s ∧ Counted s :=
    runs_invariant_along (fun s => Wired proto s ∧ Counted s)
      (fun s e s' hs hins hstep => ⟨hs.1.step hins hstep, hs.2.step hs.1 hstep⟩)
      ⟨wired_init, fun _ => rfl⟩ hok h
  exact sound_of hinv.1 hinv.2

/-- A flow that is opened, goes idle and ends. -/
def idleFlow : List Event :=
  [.take 0 "203.0.113.7:4000", .lookup 0, .opened 0, .spawn 0, .insert 0, .sent 0, .leave 0, .remove 0,
    .check 0, .uncount 0]

theorem sound_runs_idle : ∃ s, runs (step fun _ => .udp) .init idleFlow = some s ∧ Sound s := by
  have hok : Along (step fun _ => .udp) Inserted .init idleFlow := by
    simp [idleFlow, Along, Inserted, step, State.init, State.setServe, State.setTask, State.setFlow,
      State.count]
  exact ⟨_, rfl, sound_runs hok rfl⟩

end Flows
end Forwarder
end Cococoir
