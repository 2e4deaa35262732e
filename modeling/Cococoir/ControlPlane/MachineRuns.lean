import Cococoir.ControlPlane.Alone

/-!
# Machine operations without failures of Redis and of the interface

What an allocation, a deletion and the machine list do to the world when they run alone and
neither Redis nor `wg` fails.  A listener may still fail to bind, which undoes the
allocation, and the DNS provider may fail, which nothing depends on.

* `runs_ensureKey`: a route that exists keeps its record and moves its peer to the key.
* `runs_allocateFresh`, `exists_bindFails`: a new route, and when it is undone.
* `runs_allocateMachine`: the one allocation core.
* `runs_delete`: a deletion.

## The shape of the lemmas

As for the invites, each operation has an inductive predicate of the ways it can go, with the
world afterwards written out: `world` with a record, a name on the list, a peer, listeners.  A
bind is the one thing here that can fail, at the first port or at the second, and then the
allocation is undone as far as it is: the record, the name and the peer go, and the counter stays.
`exists_bindFails` says that the environment can let it happen, so that a result about all runs
cannot leave it out.

What DNS does is one more component of the world that nothing reads, and the lemmas say that a run
changes it in some way.  An index that does not fit a subnet is a panic, and is among the ways.
-/

namespace Cococoir
namespace ControlPlane

open Concurrency

variable {cp : ControlPlane} {w w' : World} {ε α : Type}

/-! ## Listeners -/

/-- The listeners after a bind: a key that is live is left alone. -/
def bindForward (forwards : String → Option Forward) (fwd : Forward) : String → Option Forward :=
  if (forwards (forwardKey fwd)).isSome then forwards
  else Function.update forwards (forwardKey fwd) (some fwd)

/-- The listeners after all of a machine's binds. -/
def bindAll (m : Machine) (ports : List (ℕ × ℕ)) (forwards : String → Option Forward) :
    String → Option Forward :=
  ports.foldl (fun fs p => bindForward fs (machineForward m.ipv6 m.wgIp p)) forwards

/-- The listeners after all of a machine's are removed. -/
def unbindAll (m : Machine) (ports : List (ℕ × ℕ)) (forwards : String → Option Forward) :
    String → Option Forward :=
  ports.foldl
    (fun fs p => Function.update fs (forwardKey (machineForward m.ipv6 m.wgIp p)) none) forwards

/-- The key is one of the machine's listeners. -/
def Bound (m : Machine) (ports : List (ℕ × ℕ)) (k : String) : Prop :=
  ∃ p ∈ ports, forwardKey (machineForward m.ipv6 m.wgIp p) = k

theorem unbindAll_apply {m : Machine} {ports : List (ℕ × ℕ)} {forwards : String → Option Forward}
    {k : String} : (Bound m ports k → unbindAll m ports forwards k = none) ∧
      (¬Bound m ports k → unbindAll m ports forwards k = forwards k) := by
  induction ports generalizing forwards with
  | nil =>
    refine ⟨fun h => ?_, fun _ => rfl⟩
    obtain ⟨_, h, -⟩ := h
    cases h
  | cons p ports ih =>
    have hstep : unbindAll m (p :: ports) forwards k = unbindAll m ports
      (Function.update forwards (forwardKey (machineForward m.ipv6 m.wgIp p)) none) k := rfl
    rw [hstep]
    constructor
    · rintro ⟨q, hq, hk⟩
      by_cases hb : Bound m ports k
      · exact ih.1 hb
      · rcases List.mem_cons.mp hq with rfl | hq
        · rw [ih.2 hb, hk, Function.update_self]
        · exact absurd ⟨q, hq, hk⟩ hb
    · intro hnot
      have hne : k ≠ forwardKey (machineForward m.ipv6 m.wgIp p) :=
        fun h => hnot ⟨p, List.mem_cons_self, h.symm⟩
      rw [ih.2 fun ⟨q, hq, hk⟩ => hnot ⟨q, List.mem_cons_of_mem p hq, hk⟩,
        Function.update_of_ne hne]

/-- Removing what was just bound leaves what removing alone leaves. -/
theorem unbindAll_bindForward {m : Machine} {ports : List (ℕ × ℕ)} {p : ℕ × ℕ} (hp : p ∈ ports)
    {forwards : String → Option Forward} :
    unbindAll m ports (bindForward forwards (machineForward m.ipv6 m.wgIp p)) =
      unbindAll m ports forwards := by
  funext k
  by_cases hb : Bound m ports k
  · rw [unbindAll_apply.1 hb, unbindAll_apply.1 hb]
  · rw [unbindAll_apply.2 hb, unbindAll_apply.2 hb]
    have hne : k ≠ forwardKey (machineForward m.ipv6 m.wgIp p) :=
      fun h => hb ⟨p, hp, h.symm⟩
    unfold bindForward
    split_ifs
    · rfl
    · exact Function.update_of_ne hne _ _

theorem runs_removeForwards {good : Cmd → Choice → Prop}
    (hgood : ∀ fwd ch, good (.removeForward fwd) ch) {m : Machine} {ports : List (ℕ × ℕ)}
    {o : Outcome ε Unit} :
    (removeForwards m ports : Edge ε Unit).Runs Cmd.exec good w o w' ↔
      o = .ok () ∧ w' = { w with forwards := unbindAll m ports w.forwards } := by
  induction ports generalizing w with
  | nil => exact Iff.rfl
  | cons p ports ih => exact (runs_removeForward hgood).trans ih

/-! ## Undoing -/

/-- What an undone allocation leaves of the world: neither the record nor an entry, neither
the peer nor a listener. -/
def undo (name : String) (m : Machine) (w : World) : World :=
  { w with
    machines := Function.update w.machines name none
    index := w.index.erase name
    peers := Function.update w.peers m.wgPublicKey none
    forwards := unbindAll m edgeForwards w.forwards }

theorem undo_bindForward {name : String} {m : Machine} {p : ℕ × ℕ} (hp : p ∈ edgeForwards) :
    undo name m { w with forwards := bindForward w.forwards (machineForward m.ipv6 m.wgIp p) } =
      undo name m w := by
  simp only [undo]
  rw [unbindAll_bindForward hp]

theorem runs_rollback {name : String} {m : Machine} {o : Outcome ε Unit} :
    (rollbackAllocation name m : Edge ε Unit).Runs Cmd.exec Reliable w o w' ↔
      o = .ok () ∧ w' = undo name m w := by
  unfold rollbackAllocation
  rw [runs_tryRedis]
  dsimp only
  rw [runs_tryRedis]
  dsimp only
  rw [runs_removePeer, runs_removeForwards fun _ _ => trivial]
  simp [RedisOp.exec, undo]

/-- Binding a machine's listeners: all of them, or one fails and the allocation is undone. -/
theorem runs_addForwards {name : String} {m : Machine} {ports : List (ℕ × ℕ)}
    (hports : ∀ p ∈ ports, p ∈ edgeForwards) {o : Outcome ControlPlaneError Unit}
    (h : (addForwards name m ports).Runs Cmd.exec Reliable w o w') :
    (o = .ok () ∧ w' = { w with forwards := bindAll m ports w.forwards }) ∨
      (∃ p ∈ ports, w.forwards (forwardKey (machineForward m.ipv6 m.wgIp p)) = none) ∧
        (∃ why, o = .err (.forward why)) ∧ w' = undo name m w := by
  induction ports generalizing w with
  | nil =>
    obtain ⟨rfl, rfl⟩ := h
    exact Or.inl ⟨rfl, rfl⟩
  | cons p ports ih =>
    have ih := fun {w} => ih (w := w) fun q hq => hports q (List.mem_cons_of_mem p hq)
    have hp := hports p List.mem_cons_self
    rcases (runs_addForward fun _ _ => trivial).mp h with ⟨hlive, h⟩ | ⟨hfree, h | ⟨text, h⟩⟩
    · have hbind : bindForward w.forwards (machineForward m.ipv6 m.wgIp p) = w.forwards :=
        if_pos hlive
      rcases ih h with ⟨rfl, rfl⟩ | ⟨⟨q, hq, hfree⟩, hwhy, rfl⟩
      · refine Or.inl ⟨rfl, ?_⟩
        rw [bindAll, bindAll, List.foldl_cons, hbind]
      · exact Or.inr ⟨⟨q, List.mem_cons_of_mem p hq, hfree⟩, hwhy, rfl⟩
    · have hbind : bindForward w.forwards (machineForward m.ipv6 m.wgIp p) =
          Function.update w.forwards (forwardKey (machineForward m.ipv6 m.wgIp p))
            (some (machineForward m.ipv6 m.wgIp p)) := by
        rw [bindForward, if_neg (by rw [hfree]; simp)]
      rcases ih h with ⟨rfl, rfl⟩ | ⟨-, hwhy, rfl⟩
      · refine Or.inl ⟨rfl, ?_⟩
        rw [bindAll, bindAll, List.foldl_cons, hbind]
      · refine Or.inr ⟨⟨p, List.mem_cons_self, hfree⟩, hwhy, ?_⟩
        rw [← undo_bindForward hp (w := w), hbind]
    · refine Or.inr ⟨⟨p, List.mem_cons_self, hfree⟩, ?_⟩
      rcases Prog.runs_bind.mp h with ⟨_, w₁, hroll, rfl, rfl⟩ | ⟨e, hroll, rfl⟩ | ⟨_, hroll, rfl⟩
      · obtain ⟨-, rfl⟩ := runs_rollback.mp hroll
        exact ⟨⟨_, rfl⟩, rfl⟩
      · cases (runs_rollback.mp hroll).1
      · cases (runs_rollback.mp hroll).1

/-- A listener that is not live can fail to bind. -/
theorem exists_bindFails {name : String} {m : Machine} {ports : List (ℕ × ℕ)}
    (hfree : ∃ p ∈ ports, w.forwards (forwardKey (machineForward m.ipv6 m.wgIp p)) = none) :
    ∃ why, (addForwards name m ports).Runs Cmd.exec Reliable w (.err (.forward why))
      (undo name m w) := by
  induction ports with
  | nil =>
    obtain ⟨p, hp, -⟩ := hfree
    cases hp
  | cons p ports ih =>
    cases hlive : w.forwards (forwardKey (machineForward m.ipv6 m.wgIp p)) with
    | some fwd =>
      obtain ⟨q, hq, hq'⟩ := hfree
      rcases List.mem_cons.mp hq with rfl | hq
      · rw [hlive] at hq'
        cases hq'
      · obtain ⟨why, h⟩ := ih ⟨q, hq, hq'⟩
        exact ⟨why, (runs_addForward fun _ _ => trivial).mpr (Or.inl ⟨by rw [hlive]; rfl, h⟩)⟩
    | none =>
      exact ⟨_, (runs_addForward fun _ _ => trivial).mpr (Or.inr ⟨hlive, Or.inr ⟨"", Prog.runs_bind.mpr
        (Or.inl ⟨(), _, runs_rollback.mpr ⟨rfl, rfl⟩, rfl, rfl⟩)⟩⟩)⟩

/-- All listeners of a machine can be bound. -/
theorem exists_bound {name : String} {m : Machine} {ports : List (ℕ × ℕ)} :
    (addForwards name m ports).Runs Cmd.exec Reliable w (.ok ())
      { w with forwards := bindAll m ports w.forwards } := by
  induction ports generalizing w with
  | nil => exact ⟨rfl, rfl⟩
  | cons p ports ih =>
    rw [addForwards, runs_addForward fun _ _ => trivial]
    cases hlive : w.forwards (forwardKey (machineForward m.ipv6 m.wgIp p)) with
    | some fwd =>
      have hbind : bindForward w.forwards (machineForward m.ipv6 m.wgIp p) = w.forwards :=
        if_pos (by rw [hlive]; rfl)
      refine Or.inl ⟨rfl, ?_⟩
      rw [bindAll, List.foldl_cons, hbind]
      exact ih
    | none =>
      refine Or.inr ⟨rfl, Or.inl ?_⟩
      have hbind : bindForward w.forwards (machineForward m.ipv6 m.wgIp p) =
          Function.update w.forwards (forwardKey (machineForward m.ipv6 m.wgIp p))
            (some (machineForward m.ipv6 m.wgIp p)) := by
        rw [bindForward, if_neg (by rw [hlive]; simp)]
      rw [bindAll, List.foldl_cons, hbind]
      exact ih

/-! ## A new route -/

theorem dns_upsertMachine {name ipv6 domain : String} :
    (upsertMachine name ipv6 domain : Edge ε _).All
      fun c => (∃ n a, c = .upsertAaaa n a) ∨ ∃ n, c = .removeAaaa n :=
  ⟨Or.inl ⟨_, _, rfl⟩, fun _ => ⟨Or.inl ⟨_, _, rfl⟩, fun _ => trivial⟩⟩

theorem dns_removeMachine {name domain : String} :
    (removeMachine name domain : Edge ε _).All
      fun c => (∃ n a, c = .upsertAaaa n a) ∨ ∃ n, c = .removeAaaa n :=
  ⟨Or.inr ⟨_, rfl⟩, fun _ => ⟨Or.inr ⟨_, rfl⟩, fun _ => trivial⟩⟩

/-- Publishing only ever changes the zone. -/
theorem runs_upsertMachine {good : Cmd → Choice → Prop} {name ipv6 domain : String}
    {f : Except String Unit → Edge ε α} {o : Outcome ε α}
    (h : (upsertMachine name ipv6 domain >>= f).Runs Cmd.exec good w o w') :
    ∃ r dns, (f r).Runs Cmd.exec good { w with dns := dns } o w' := by
  rcases Prog.runs_bind.mp h with ⟨r, w₁, hdns, h⟩ | ⟨e, hdns, -⟩ | ⟨msg, hdns, -⟩
  · obtain ⟨dns, rfl⟩ := runs_dns dns_upsertMachine hdns
    exact ⟨r, dns, h⟩
  · obtain ⟨_, _, _, _, h, -⟩ := hdns
    cases h
  · obtain ⟨_, _, _, _, h, -⟩ := hdns
    cases h

theorem runs_removeMachine {good : Cmd → Choice → Prop} {name domain : String}
    {f : Except String Unit → Edge ε α} {o : Outcome ε α}
    (h : (removeMachine name domain >>= f).Runs Cmd.exec good w o w') :
    ∃ r dns, (f r).Runs Cmd.exec good { w with dns := dns } o w' := by
  rcases Prog.runs_bind.mp h with ⟨r, w₁, hdns, h⟩ | ⟨e, hdns, -⟩ | ⟨msg, hdns, -⟩
  · obtain ⟨dns, rfl⟩ := runs_dns dns_removeMachine hdns
    exact ⟨r, dns, h⟩
  · obtain ⟨_, _, _, _, h, -⟩ := hdns
    cases h
  · obtain ⟨_, _, _, _, h, -⟩ := hdns
    cases h

/-- Wiring: the peer and the listeners, or the allocation is undone. -/
theorem runs_wire {m : Machine} {o : Outcome ControlPlaneError Unit}
    (h : (cp.wire m).Runs Cmd.exec Reliable w o w') :
    (o = .ok () ∧ ∃ dns, w' = { w with
        peers := setPeer w.peers m.wgIp m.wgPublicKey
        forwards := bindAll m edgeForwards w.forwards
        dns := dns }) ∨
      (∃ p ∈ edgeForwards, w.forwards (forwardKey (machineForward m.ipv6 m.wgIp p)) = none) ∧
        (∃ why, o = .err (.forward why)) ∧
        w' = undo m.name m { w with peers := setPeer w.peers m.wgIp m.wgPublicKey } := by
  rw [wire, runs_addPeer] at h
  rcases Prog.runs_bind.mp h with ⟨_, w₁, hbind, h⟩ | ⟨e, hbind, rfl⟩ | ⟨msg, hbind, -⟩
  · rcases runs_addForwards (fun _ hp => hp) hbind with ⟨-, rfl⟩ | ⟨-, ⟨why, h'⟩, -⟩
    · obtain ⟨r, dns, rfl, rfl⟩ := runs_upsertMachine h
      exact Or.inl ⟨rfl, dns, rfl⟩
    · cases h'
  · rcases runs_addForwards (fun _ hp => hp) hbind with ⟨h', -⟩ | ⟨hfree, ⟨why, h'⟩, rfl⟩
    · cases h'
    · cases h'
      exact Or.inr ⟨hfree, ⟨why, rfl⟩, rfl⟩
  · rcases runs_addForwards (fun _ hp => hp) hbind with ⟨h', -⟩ | ⟨-, ⟨why, h'⟩, -⟩
    · cases h'
    · cases h'

/-- The host index that the next allocation takes. -/
def nextIndex (w : World) : ℤ := w.alloc.getD 1 + 1

/-- The world with a new route stored and listed. -/
def enlisted (m : Machine) (w : World) : World :=
  { w with
    alloc := some (nextIndex w)
    machines := Function.update w.machines m.name (some (.json m))
    index := w.index ++ [m.name] }

/-- The world with a new route. -/
def routed (m : Machine) (w : World) : World :=
  { enlisted m w with
    peers := setPeer w.peers m.wgIp m.wgPublicKey
    forwards := bindAll m edgeForwards w.forwards }

/-- The world after a new route that could not be wired. -/
def unrouted (m : Machine) (w : World) : World :=
  undo m.name m { enlisted m w with peers := setPeer w.peers m.wgIp m.wgPublicKey }

/-- The ways an allocation of a free name can go. -/
inductive FreshRun (cp : ControlPlane) (owner : Option String) (name key : String) (w : World) :
    Outcome ControlPlaneError Machine → World → Prop
  | exhausted (h : nextIndex w < 2) :
    FreshRun cp owner name key w (.err (.allocExhausted "allocation counter below host 2"))
      { w with alloc := some (nextIndex w) }
  | beyond {msg : String} (htwo : 2 ≤ nextIndex w)
      (hips : cp.hostStrings (nextIndex w).toNat = none) :
    FreshRun cp owner name key w (.panic msg) { w with alloc := some (nextIndex w) }
  | created {ips : String × String} {dns : String → Option String} (htwo : 2 ≤ nextIndex w)
      (hips : cp.hostStrings (nextIndex w).toNat = some ips) :
    FreshRun cp owner name key w (.ok (cp.freshMachine owner name key ips.1 ips.2))
      { routed (cp.freshMachine owner name key ips.1 ips.2) w with dns := dns }
  | undone {ips : String × String} {why : String} (htwo : 2 ≤ nextIndex w)
      (hips : cp.hostStrings (nextIndex w).toNat = some ips)
      (hfree : ∃ p ∈ edgeForwards, w.forwards (forwardKey (machineForward ips.1 ips.2 p)) = none) :
    FreshRun cp owner name key w (.err (.forward why))
      (unrouted (cp.freshMachine owner name key ips.1 ips.2) w)

theorem exec_seed :
    ((RedisOp.alloc (.setNx 1)).exec w).2 = { w with alloc := some (w.alloc.getD 1) } := by
  simp [RedisOp.exec]

theorem exec_takeIndex {z : ℤ} (h : w.alloc = some z) :
    (RedisOp.alloc .incr).exec w = (z + 1, { w with alloc := some (z + 1) }) := by
  simp [RedisOp.exec, h]

/-- A new route takes the next index, is stored and listed under its addresses, and is wired. -/
theorem runs_allocateFresh_iff {owner : Option String} {name key : String}
    {o : Outcome ControlPlaneError Machine} (hfree : w.machines name = none) :
    (cp.allocateFresh owner name key).Runs Cmd.exec Reliable w o w' ↔
      (nextIndex w < 2 ∧ o = .err (.allocExhausted "allocation counter below host 2") ∧
        w' = { w with alloc := some (nextIndex w) }) ∨
      2 ≤ nextIndex w ∧
        ((∃ ips, cp.hostStrings (nextIndex w).toNat = some ips ∧
          (cp.wire (cp.freshMachine owner name key ips.1 ips.2) >>= fun _ =>
            pure (cp.freshMachine owner name key ips.1 ips.2)).Runs Cmd.exec Reliable
              (enlisted (cp.freshMachine owner name key ips.1 ips.2) w) o w') ∨
          (cp.hostStrings (nextIndex w).toNat = none ∧
            o = .panic (cp.capacityPanic (nextIndex w).toNat) ∧
              w' = { w with alloc := some (nextIndex w) })) := by
  rw [allocateFresh, runs_redis_reliable, exec_seed, runs_redis_reliable,
    exec_takeIndex (z := w.alloc.getD 1) rfl]
  change (if nextIndex w < 2 then _ else _ : Edge _ _).Runs _ _ { w with alloc := some (nextIndex w) }
    _ _ ↔ _
  by_cases htwo : nextIndex w < 2
  · rw [if_pos htwo]
    constructor
    · rintro ⟨rfl, rfl⟩
      exact Or.inl ⟨htwo, rfl, rfl⟩
    · rintro (⟨-, rfl, rfl⟩ | ⟨hge, -⟩)
      · exact ⟨rfl, rfl⟩
      · exact absurd htwo (not_lt.mpr hge)
  · have hfresh : ∀ ips : String × String,
        (do
          let set ← redis (.machine name
            (.setNx (.json (cp.freshMachine owner name key ips.1 ips.2))))
          if set then do
            let _ ← redis (.index (.rpush name))
            cp.wire (cp.freshMachine owner name key ips.1 ips.2)
            return cp.freshMachine owner name key ips.1 ips.2
          else do
            let _ ← redis (.alloc .decr)
            .throw (.duplicate name) : Edge ControlPlaneError Machine).Runs Cmd.exec Reliable
              { w with alloc := some (nextIndex w) } o w' ↔
          (cp.wire (cp.freshMachine owner name key ips.1 ips.2) >>= fun _ =>
            pure (cp.freshMachine owner name key ips.1 ips.2)).Runs Cmd.exec Reliable
              (enlisted (cp.freshMachine owner name key ips.1 ips.2) w) o w' := by
      intro ips
      rw [runs_redis_reliable, exec_claim (w := { w with alloc := some (nextIndex w) }) hfree,
        if_pos rfl, runs_redis_reliable]
      rfl
    rw [if_neg htwo, runs_expect]
    simp only [hfresh]
    exact ⟨fun h => Or.inr ⟨not_lt.mp htwo, h⟩,
      fun h => (h.resolve_left fun h => htwo h.1).2⟩

/-- **A new route.** -/
theorem runs_allocateFresh {owner : Option String} {name key : String}
    {o : Outcome ControlPlaneError Machine} (hfree : w.machines name = none)
    (h : (cp.allocateFresh owner name key).Runs Cmd.exec Reliable w o w') :
    FreshRun cp owner name key w o w' := by
  rcases (runs_allocateFresh_iff hfree).mp h with
    ⟨htwo, rfl, rfl⟩ | ⟨htwo, ⟨ips, hips, h⟩ | ⟨hips, rfl, rfl⟩⟩
  · exact .exhausted htwo
  · rcases Prog.runs_bind.mp h with ⟨_, w₁, hwire, rfl, rfl⟩ | ⟨e, hwire, rfl⟩ | ⟨msg, hwire, -⟩
    · rcases runs_wire hwire with ⟨-, dns, rfl⟩ | ⟨-, ⟨why, h'⟩, -⟩
      · exact .created htwo hips
      · cases h'
    · rcases runs_wire hwire with ⟨h', -⟩ | ⟨hports, ⟨why, h'⟩, rfl⟩
      · cases h'
      · cases h'
        exact .undone htwo hips hports
    · rcases runs_wire hwire with ⟨h', -⟩ | ⟨-, ⟨why, h'⟩, -⟩
      · cases h'
      · cases h'
  · exact .beyond htwo hips

/-- A new route whose listeners are not all live can be undone. -/
theorem exists_undone {owner : Option String} {name key : String} {ips : String × String}
    (hfree : w.machines name = none) (htwo : 2 ≤ nextIndex w)
    (hips : cp.hostStrings (nextIndex w).toNat = some ips)
    (hports : ∃ p ∈ edgeForwards, w.forwards (forwardKey (machineForward ips.1 ips.2 p)) = none) :
    ∃ why, (cp.allocateFresh owner name key).Runs Cmd.exec Reliable w (.err (.forward why))
      (unrouted (cp.freshMachine owner name key ips.1 ips.2) w) := by
  obtain ⟨why, hbind⟩ := exists_bindFails
    (m := cp.freshMachine owner name key ips.1 ips.2)
    (w := { enlisted (cp.freshMachine owner name key ips.1 ips.2) w with
      peers := setPeer w.peers ips.2 key }) hports
  refine ⟨why, (runs_allocateFresh_iff hfree).mpr (Or.inr ⟨htwo, Or.inl ⟨ips, hips, ?_⟩⟩)⟩
  refine Prog.runs_bind.mpr (Or.inr (Or.inl ⟨_, ?_, rfl⟩))
  rw [wire, runs_addPeer]
  exact Prog.runs_bind.mpr (Or.inr (Or.inl ⟨_, hbind, rfl⟩))

/-! ## A route that exists -/

/-- The record with a key. -/
abbrev Machine.withKey (m : Machine) (key : String) : Machine := { m with wgPublicKey := key }

/-- The world after a stored machine is ensured to have a key: the peer is added, and for
another key the old one is removed first and the record is overwritten. -/
def rekeyed (name : String) (m : Machine) (key : String) (w : World) : World :=
  if m.wgPublicKey = key then { w with peers := setPeer w.peers m.wgIp key }
  else { w with
    peers := setPeer (Function.update w.peers m.wgPublicKey none) m.wgIp key
    machines := Function.update w.machines name (some (.json (m.withKey key))) }

/-- **The idempotent and the rotating path.** -/
theorem runs_ensureKey {name key : String} {m : Machine} {o : Outcome ControlPlaneError Machine} :
    (ensureKey name key m).Runs Cmd.exec Reliable w o w' ↔
      o = .ok (m.withKey key) ∧ w' = rekeyed name m key w := by
  unfold ensureKey rekeyed
  split_ifs with hkey
  · subst hkey
    rw [runs_addPeer]
    exact Iff.rfl
  · rw [runs_removePeer, runs_addPeer]
    dsimp only
    rw [runs_redis_reliable, Prog.runs_pure]
    simp [RedisOp.exec]

/-! ## The allocation core -/

/-- What an allocation checks before it looks at the store: the name, the key, and that the
edge has a key of its own. -/
def allocationGate (cp : ControlPlane) (name key : String) : Outcome ControlPlaneError String :=
  match validateMachineName name, cp.validateWgPubkey key with
  | .error e, _ => .err e
  | .ok _, .error e => .err e
  | .ok _, .ok _ =>
    match cp.edgePublicKey with
    | .done o => o
    | .cmd _ _ => .panic ""

/-- The ways an allocation can go. -/
inductive AllocationRun (cp : ControlPlane) (owner : Option String) (name key : String)
    (w : World) : Outcome ControlPlaneError SignupOutcome → World → Prop
  | refused {e : ControlPlaneError} (hgate : allocationGate cp name key = .err e) :
    AllocationRun cp owner name key w (.err e) w
  | crashed {msg : String} (hgate : allocationGate cp name key = .panic msg) :
    AllocationRun cp owner name key w (.panic msg) w
  | corrupt {edge text err : String} (hgate : allocationGate cp name key = .ok edge)
      (hname : w.machines name = some (.corrupt text err)) :
    AllocationRun cp owner name key w
      (.err (.redis (.response "corrupt machine record" s!"{text}: {err}"))) w
  | existing {edge : String} {m : Machine} (hgate : allocationGate cp name key = .ok edge)
      (hname : w.machines name = some (.json m)) :
    AllocationRun cp owner name key w (.ok (.existing ⟨m.withKey key, edge⟩))
      (rekeyed name m key w)
  | fresh {edge : String} {o : Outcome ControlPlaneError Machine} {w' : World}
      (hgate : allocationGate cp name key = .ok edge) (hname : w.machines name = none)
      (hfresh : (cp.allocateFresh owner name key).Runs Cmd.exec Reliable w o w') :
    AllocationRun cp owner name key w (o.bimap id fun m => .created ⟨m, edge⟩) w'

theorem edgePublicKey_done : ∃ o, cp.edgePublicKey = .done o := by
  unfold edgePublicKey
  split
  · exact ⟨_, rfl⟩
  · split_ifs
    · exact ⟨_, rfl⟩
    · exact ⟨_, rfl⟩

/-- An allocation that is stopped by what it checks. -/
theorem runs_allocateMachine_stopped {owner : Option String} {name key : String}
    (hgate : ∀ edge, allocationGate cp name key ≠ .ok edge)
    {o : Outcome ControlPlaneError SignupOutcome} :
    (cp.allocateMachine owner name key).Runs Cmd.exec Reliable w o w' ↔
      w' = w ∧ ((∃ e, allocationGate cp name key = .err e ∧ o = .err e) ∨
        ∃ msg, allocationGate cp name key = .panic msg ∧ o = .panic msg) := by
  obtain ⟨oe, hedge⟩ := cp.edgePublicKey_done
  cases hname : validateMachineName name with
  | error e =>
    have hgate' : allocationGate cp name key = .err e := by simp [allocationGate, hname]
    rw [allocateMachine, hname, hgate']
    simp [and_comm]
  | ok u =>
    cases hkey : cp.validateWgPubkey key with
    | error e =>
      have hgate' : allocationGate cp name key = .err e := by simp [allocationGate, hname, hkey]
      rw [allocateMachine, hname, hkey, hgate']
      simp [and_comm]
    | ok u' =>
      have hgate' : allocationGate cp name key = oe := by
        simp [allocationGate, hname, hkey, hedge]
      rw [allocateMachine, hname, hkey, Prog.ofExcept_ok, Prog.pure_bind,
        Prog.pure_bind, runs_redis_reliable, exec_machine_get, hedge, hgate']
      cases oe with
      | ok edge => exact absurd hgate' (hgate edge)
      | err e =>
        change o = .err e ∧ w' = w ↔ _
        simp [and_comm]
      | panic msg =>
        change o = .panic msg ∧ w' = w ↔ _
        simp [and_comm]

/-- What a passed gate says. -/
theorem passes_of_allocationGate {name key edge : String}
    (hgate : allocationGate cp name key = .ok edge) :
    validateMachineName name = .ok () ∧ cp.validateWgPubkey key = .ok () ∧
      cp.edgePublicKey = pure edge := by
  obtain ⟨oe, hedge⟩ := cp.edgePublicKey_done
  unfold allocationGate at hgate
  split at hgate
  · cases hgate
  · cases hgate
  · rename_i _ _ hname hkey
    rw [hedge] at hgate
    cases hgate
    exact ⟨hname, hkey, hedge⟩

/-- An allocation whose gate passes looks the name up. -/
theorem allocateMachine_passed {owner : Option String} {name key edge : String}
    (hgate : allocationGate cp name key = .ok edge) :
    cp.allocateMachine owner name key = (do
      match ← redis (.machine name .get) with
      | some json => do
        let m ← Prog.ofExcept (machineFromJson json)
        let m ← ensureKey name key m
        return .existing ⟨m, edge⟩
      | none => do
        let m ← cp.allocateFresh owner name key
        return .created ⟨m, edge⟩) := by
  obtain ⟨hname, hkey, hedge⟩ := passes_of_allocationGate hgate
  rw [allocateMachine, hname, hkey, hedge, Prog.ofExcept_ok, Prog.pure_bind, Prog.pure_bind]
  refine congrArg (redis (.machine name .get) >>= ·) (funext fun found => ?_)
  cases found <;> rfl

/-- An allocation that passes what it checks goes on by what is stored under the name. -/
theorem runs_allocateMachine_passed {owner : Option String} {name key edge : String}
    (hgate : allocationGate cp name key = .ok edge) {o : Outcome ControlPlaneError SignupOutcome} :
    (cp.allocateMachine owner name key).Runs Cmd.exec Reliable w o w' ↔
      (match w.machines name with
        | some json => do
          let m ← Prog.ofExcept (machineFromJson json)
          let m ← ensureKey name key m
          return .existing ⟨m, edge⟩
        | none => do
          let m ← cp.allocateFresh owner name key
          return .created ⟨m, edge⟩ : Edge ControlPlaneError SignupOutcome).Runs Cmd.exec Reliable
        w o w' := by
  rw [allocateMachine_passed hgate, runs_redis_reliable, exec_machine_get]
  cases w.machines name <;> exact Iff.rfl

/-- **An allocation.** -/
theorem runs_allocateMachine {owner : Option String} {name key : String}
    {o : Outcome ControlPlaneError SignupOutcome}
    (h : (cp.allocateMachine owner name key).Runs Cmd.exec Reliable w o w') :
    AllocationRun cp owner name key w o w' := by
  cases hgate : allocationGate cp name key with
  | err e =>
    obtain ⟨rfl, ⟨e', he, rfl⟩ | ⟨msg, he, -⟩⟩ :=
      (runs_allocateMachine_stopped (by simp [hgate])).mp h
    · exact .refused he
    · rw [hgate] at he
      cases he
  | panic msg =>
    obtain ⟨rfl, ⟨e, he, -⟩ | ⟨msg', he, rfl⟩⟩ :=
      (runs_allocateMachine_stopped (by simp [hgate])).mp h
    · rw [hgate] at he
      cases he
    · exact .crashed he
  | ok edge =>
    rw [runs_allocateMachine_passed hgate] at h
    match hm : w.machines name with
    | none =>
      rw [hm] at h
      rcases Prog.runs_bind.mp h with ⟨m, w₁, hfresh, rfl, rfl⟩ | ⟨e, hfresh, rfl⟩ |
        ⟨msg, hfresh, rfl⟩
      · exact .fresh hgate hm hfresh
      · exact .fresh hgate hm hfresh
      · exact .fresh hgate hm hfresh
    | some (.corrupt text err) =>
      rw [hm] at h
      obtain ⟨rfl, rfl⟩ := h
      exact .corrupt hgate hm
    | some (.json m) =>
      rw [hm] at h
      simp only [machineFromJson, Prog.ofExcept_ok, Prog.pure_bind] at h
      rcases Prog.runs_bind.mp h with ⟨m', w₁, hkey, rfl, rfl⟩ | ⟨e, hkey, rfl⟩ |
        ⟨msg, hkey, rfl⟩
      · obtain ⟨h', rfl⟩ := runs_ensureKey.mp hkey
        cases h'
        exact .existing hgate hm
      · cases (runs_ensureKey.mp hkey).1
      · cases (runs_ensureKey.mp hkey).1

/-- An allocation of a name that is taken succeeds. -/
theorem exists_existing {owner : Option String} {name key edge : String} {m : Machine}
    (hgate : allocationGate cp name key = .ok edge) (hname : w.machines name = some (.json m)) :
    (cp.allocateMachine owner name key).Runs Cmd.exec Reliable w
      (.ok (.existing ⟨m.withKey key, edge⟩)) (rekeyed name m key w) := by
  rw [runs_allocateMachine_passed hgate, hname]
  simp only [machineFromJson, Prog.ofExcept_ok, Prog.pure_bind]
  exact Prog.runs_bind.mpr (Or.inl ⟨_, _, runs_ensureKey.mpr ⟨rfl, rfl⟩, rfl, rfl⟩)

/-- An allocation of a free name goes as its new route does. -/
theorem exists_fresh {owner : Option String} {name key edge : String}
    (hgate : allocationGate cp name key = .ok edge) (hname : w.machines name = none)
    {e : ControlPlaneError}
    (hfresh : (cp.allocateFresh owner name key).Runs Cmd.exec Reliable w (.err e) w') :
    (cp.allocateMachine owner name key).Runs Cmd.exec Reliable w (.err e) w' := by
  rw [runs_allocateMachine_passed hgate, hname]
  exact Prog.runs_bind.mpr (Or.inr (Or.inl ⟨e, hfresh, rfl⟩))

/-! ## Deletion -/

/-- **A deletion** of a record that decodes. -/
theorem runs_delete {name : String} {m : Machine} (hname : w.machines name = some (.json m))
    {o : Outcome ControlPlaneError Unit} (h : (cp.delete name).Runs Cmd.exec Reliable w o w') :
    o = .ok () ∧ ∃ dns, w' = { undo name m w with dns := dns } := by
  rw [delete, runs_redis_reliable, exec_machine_get, hname] at h
  dsimp only at h
  rw [runs_removePeer] at h
  rcases Prog.runs_bind.mp h with ⟨_, w₁, hfw, h⟩ | ⟨e, hfw, -⟩ | ⟨msg, hfw, -⟩
  · obtain ⟨-, rfl⟩ := (runs_removeForwards fun _ _ => trivial).mp hfw
    obtain ⟨r, dns, h⟩ := runs_removeMachine h
    rw [removeEntry, runs_redis_reliable, runs_redis_reliable] at h
    obtain ⟨rfl, rfl⟩ := h
    exact ⟨rfl, dns, by simp [RedisOp.exec, undo]⟩
  · cases ((runs_removeForwards fun _ _ => trivial).mp hfw).1
  · cases ((runs_removeForwards fun _ _ => trivial).mp hfw).1

theorem runs_delete_missing {name : String} (hname : w.machines name = none)
    {o : Outcome ControlPlaneError Unit} :
    (cp.delete name).Runs Cmd.exec Reliable w o w' ↔ o = .err (.notFound name) ∧ w' = w := by
  rw [delete, runs_redis_reliable, exec_machine_get, hname]
  exact Iff.rfl

end ControlPlane
end Cococoir
