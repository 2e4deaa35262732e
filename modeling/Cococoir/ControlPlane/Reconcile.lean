import Cococoir.ControlPlane.Writes

/-!
# The DNS zone and the machines

A machine has two records, its hostname and the wildcard below it.  An allocation publishes
them, a deletion removes them, and a reconcile pass publishes them again from a list of the
machines that it read before.  Between that reading and the publishing the machine can be
deleted, and nothing ever removes the record that is then published.

* `recordNames_inj`: machines of different names have different records.
* `DnsMove`, `body_dnsMoves`: what an allocation, a deletion and a reconcile pass do to
  records and to the zone.
* `zone_published`: when every record is published while its machine is stored with that
  address and no deletion is past removing it, and no allocation is rolled back once its
  machine has records, the zone says what the store says in the end.
* `staleRecord`: a pass publishes the record of a machine that was deleted meanwhile.
-/

namespace Cococoir
namespace ControlPlane

open Concurrency
open Net (Ipv6Addr)

/-! ## Records -/

/-- The record that a command changes. -/
def Cmd.records : Cmd → Option String
  | .upsertAaaa name _ => some name
  | .removeAaaa name => some name
  | _ => none

/-- Only provisioning reaches the zone. -/
theorem exec_dns {c : Cmd} (h : c.records = none) (ch : Choice) (w : World) :
    (Cmd.exec ch c w).2.dns = w.dns := by
  cases c with
  | redis op =>
    rcases exec_redis_cases ch op w with he | he
    · rw [he]
    · rw [he]
      cases op <;> rfl
  | upsertAaaa name ipv6 => cases h
  | removeAaaa name => cases h
  | removeForward fwd => rfl
  | fillBytes n => rfl
  | _ =>
    simp only [Cmd.exec]
    split_ifs <;> rfl

variable (cp : ControlPlane)

/-- The records of a machine: the bare hostname and the wildcard. -/
def recordNames (name : String) : List String :=
  [machineHostname name cp.rootDomain, s!"*.{machineHostname name cp.rootDomain}"]

/-- A machine name. -/
def ValidName (name : String) : Prop := validateMachineName name = .ok ()

instance (name : String) : Decidable (ValidName name) :=
  inferInstanceAs (Decidable (validateMachineName name = .ok ()))

variable {cp}

/-- No wildcard is a machine name. -/
theorem ValidName.no_star {name : String} (h : ValidName name) : '*' ∉ name.toList := by
  intro hstar
  unfold ValidName validateMachineName at h
  dsimp only at h
  split_ifs at h with hvalid
  have hchars := List.all_eq_true.mp hvalid.2.2.2.2.2.2 '*' hstar
  exact absurd hchars (by decide)

theorem machineHostname_toList (name domain : String) :
    (machineHostname name domain).toList = name.toList ++ '.' :: domain.toList := by
  show (name ++ "." ++ domain).toList = _
  simp

theorem wildcard_toList (host : String) : (s!"*.{host}").toList = '*' :: '.' :: host.toList := by
  show ("*." ++ host).toList = _
  simp

/-- **Machines of different names have different records.** -/
theorem recordNames_inj {n n' r : String} (hn : ValidName n) (hn' : ValidName n')
    (h : r ∈ cp.recordNames n) (h' : r ∈ cp.recordNames n') : n = n' := by
  have hbare : ∀ {m m' : String}, (machineHostname m cp.rootDomain).toList =
      (machineHostname m' cp.rootDomain).toList → m = m' := by
    intro m m' heq
    rw [machineHostname_toList, machineHostname_toList] at heq
    exact String.toList_injective (List.append_cancel_right heq)
  have hwild : ∀ {m k : String}, ValidName m → (machineHostname m cp.rootDomain).toList =
      (s!"*.{machineHostname k cp.rootDomain}").toList → False := by
    intro m k hm heq
    rw [wildcard_toList, machineHostname_toList, machineHostname_toList] at heq
    cases hm' : m.toList with
    | nil =>
      rw [hm'] at heq
      cases heq
    | cons c cs =>
      rw [hm'] at heq
      have hstar : c = '*' := (List.cons.inj heq).1
      exact hm.no_star (by rw [hm', hstar]; exact List.mem_cons_self)
  simp only [recordNames, List.mem_cons, List.not_mem_nil, or_false] at h h'
  rcases h with rfl | rfl <;> rcases h' with h' | h'
  · exact hbare (congrArg String.toList h')
  · exact (hwild hn (congrArg String.toList h')).elim
  · exact (hwild hn' (congrArg String.toList h'.symm)).elim
  · have heq := congrArg String.toList h'
    rw [wildcard_toList, wildcard_toList] at heq
    exact hbare (List.cons.inj (List.cons.inj heq).2).2

/-! ## Views -/

/-- What a call has done to machine records and to the zone. -/
structure DnsView where
  /-- The machines whose records it has read or stored. -/
  names : List String
  /-- The machine it created and did not take back. -/
  claimed : Option Machine
  /-- The records of that machine it has not published yet. -/
  toPublish : List String
  /-- The records it has removed, of a machine that it has not deleted yet. -/
  cleared : List String

variable (cp)

def DnsView.next (v : DnsView) : (c : Cmd) → c.Resp → DnsView
  | .redis (.machine n .get), .ok (some (.json _)) => { v with names := n :: v.names }
  | .redis (.machine n (.setNx (.json m))), .ok true =>
    { v with names := n :: v.names, claimed := some m, toPublish := cp.recordNames n }
  | .redis (.machine _ .del), .ok _ => { v with claimed := none, toPublish := [], cleared := [] }
  | .upsertAaaa r _, .ok _ => { v with toPublish := v.toPublish.filter (· ≠ r) }
  | .removeAaaa r, .ok _ => { v with cleared := r :: v.cleared }
  | _, _ => v

/-- The commands a call may issue next. -/
inductive DnsMove : DnsView → Cmd → Prop
  /-- Whatever leaves machine records, the zone and the view. -/
  | outside {v c} (hwrites : c.writes ≠ some .machine) (hrecords : c.records = none)
      (hnext : ∀ r, v.next cp c r = v) : DnsMove v c
  | readMachine {v n} : DnsMove v (.redis (.machine n .get))
  | claim {v} {m : Machine} (hvalid : ValidName m.name) (hpublish : v.toPublish = []) :
      DnsMove v (.redis (.machine m.name (.setNx (.json m))))
  | rotate {v} {m : Machine} (hvalid : ValidName m.name) :
      DnsMove v (.redis (.machine m.name (.set (.json m))))
  /-- Publish a record, for the first time or again. -/
  | publish {v r ip} : DnsMove v (.upsertAaaa r ip)
  | clear {v r} : DnsMove v (.removeAaaa r)
  /-- Take back a machine that it has not published anything of. -/
  | undo {v} {m : Machine} (hclaimed : v.claimed = some m) (hvalid : ValidName m.name)
      (hpublish : ∀ r ∈ v.toPublish, r ∈ cp.recordNames m.name) (hcleared : v.cleared = []) :
      DnsMove v (.redis (.machine m.name .del))
  /-- Delete a machine once its records are removed. -/
  | drop {v n} (hvalid : ValidName n) (hclaimed : v.claimed = none) (hpublish : v.toPublish = [])
      (hcleared : ∀ r, r ∈ v.cleared ↔ r ∈ cp.recordNames n) :
      DnsMove v (.redis (.machine n .del))

/-- Nothing is left to publish and nothing half deleted. -/
def DnsView.Settled (v : DnsView) : Prop := v.toPublish = [] ∧ v.cleared = []

/-- Allocation, deletion and reconciliation as a protocol.  Records decode under their own
valid names, and neither the provider nor the two writes that nothing repairs fail. -/
def dnsMoves : Protocol Call Cmd Cmd.Resp DnsView where
  init _ := ⟨[], none, [], []⟩
  next := DnsView.next cp
  ok := DnsMove cp
  resp c r :=
    match c, r with
    | .redis (.machine n .get), .ok (some x) => ∃ m, x = .json m ∧ m.name = n ∧ ValidName n
    | .redis (.machine _ .del), .error _ => False
    | .redis (.index (.rpush _)), .error _ => False
    | .upsertAaaa _ _, .error _ => False
    | .removeAaaa _, .error _ => False
    | _, _ => True

variable {cp} {v : DnsView} {ε α β : Type}

/-! ## The programs conform -/

variable (cp) in
/-- The program ends with nothing left to publish and nothing half deleted. -/
abbrev Settles (p : Edge ε α) (v : DnsView) : Prop :=
  (dnsMoves cp).Conforms (fun v' _ => v'.Settled) p v

theorem Settles.bind {p : Edge ε α} {f : α → Edge ε β} (hp : Settles cp p v)
    (hf : ∀ v' a, v'.Settled → Settles cp (f a) v') : Settles cp (p >>= f) v :=
  Protocol.Conforms.bind hp hf (fun _ _ h => h) fun _ _ h => h


/-- A command that neither the records nor the zone nor the view notices. -/
def Unnoticed (cp : ControlPlane) (c : Cmd) : Prop :=
  c.writes ≠ some .machine ∧ c.records = none ∧ ∀ (v : DnsView) r, v.next cp c r = v

theorem conforms_unnoticed {p : Edge ε α} (hp : p.All (Unnoticed cp)) :
    (dnsMoves cp).Conforms (fun v' _ => v' = v) p v :=
  Protocol.Conforms.of_all (hp.mono fun _ hc => ⟨.outside hc.1 hc.2.1 (hc.2.2 v), hc.2.2 v⟩)

theorem unnoticed_removeForwards {m : Machine} {ports : List (ℕ × ℕ)} :
    (removeForwards m ports : Edge ε Unit).All (Unnoticed cp) := by
  induction ports with
  | nil => trivial
  | cons p ports ih => exact ⟨⟨by simp [Cmd.writes], rfl, fun _ _ => rfl⟩, fun _ => ih⟩

/-- A command that is not noticed, and the rest of the program. -/
theorem conforms_unnoticed_issue {c : Cmd} {f : c.Resp → Edge ε α}
    {fin : DnsView → Outcome ε α → Prop} (hc : Unnoticed cp c)
    (hf : ∀ r, (dnsMoves cp).Conforms fin (f r) v) :
    (dnsMoves cp).Conforms fin (Prog.issue c >>= f) v := by
  refine Protocol.conforms_issue.mpr ⟨.outside hc.1 hc.2.1 (hc.2.2 v), fun r _ => ?_⟩
  exact (congrArg _ (hc.2.2 v r)).mpr (hf r)

theorem unnoticed_addPeer {ip key : String} : Unnoticed cp (.addPeer ip key) :=
  ⟨by simp [Cmd.writes], rfl, fun _ _ => rfl⟩

theorem unnoticed_removePeer {key : String} : Unnoticed cp (.removePeer key) :=
  ⟨by simp [Cmd.writes], rfl, fun _ _ => rfl⟩

theorem unnoticed_lrem {n : String} : Unnoticed cp (.redis (.index (.lrem n))) :=
  ⟨by simp [Cmd.writes, RedisOp.writes], rfl, fun _ _ => rfl⟩

/-- A rollback takes the claimed machine back. -/
theorem conforms_dnsRollback {m : Machine} (hclaimed : v.claimed = some m)
    (hvalid : ValidName m.name) (hpublish : ∀ r ∈ v.toPublish, r ∈ cp.recordNames m.name)
    (hcleared : v.cleared = []) :
    Settles cp (rollbackAllocation m.name m : Edge ε Unit) v := by
  refine Protocol.conforms_issue.mpr ⟨.undo hclaimed hvalid hpublish hcleared, fun r hr => ?_⟩
  cases r with
  | error e => exact hr.elim
  | ok hits =>
    refine conforms_unnoticed_issue unnoticed_lrem fun r => ?_
    cases r with
    | error e => exact ⟨rfl, rfl⟩
    | ok n =>
      refine conforms_unnoticed_issue unnoticed_removePeer fun _ => ?_
      refine (conforms_unnoticed unnoticed_removeForwards).mono fun v' _ hv' => ?_
      rw [hv']
      exact ⟨rfl, rfl⟩

/-- A call that has claimed a machine and published nothing. -/
structure DnsView.Claims (cp : ControlPlane) (v : DnsView) (m : Machine) : Prop where
  claimed : v.claimed = some m
  valid : ValidName m.name
  toPublish : v.toPublish = cp.recordNames m.name
  cleared : v.cleared = []

theorem DnsView.Claims.conforms_rollback {m : Machine} (h : v.Claims cp m) :
    Settles cp (rollbackAllocation m.name m : Edge ε Unit) v :=
  conforms_dnsRollback h.claimed h.valid (fun _ hr => h.toPublish ▸ hr) h.cleared

theorem conforms_dnsForwards {m : Machine} {ports : List (ℕ × ℕ)} (h : v.Claims cp m) :
    (dnsMoves cp).Conforms (fun v' o => o = .ok () ∧ v' = v ∨ o ≠ .ok () ∧ v'.Settled)
      (addForwards m.name m ports) v := by
  induction ports with
  | nil => exact Or.inl ⟨rfl, rfl⟩
  | cons p ports ih =>
    refine Protocol.conforms_issue.mpr
      ⟨.outside (by simp [Cmd.writes]) rfl fun _ => rfl, fun r _ => ?_⟩
    cases r with
    | ok u => exact ih
    | error e =>
      refine Protocol.Conforms.bind h.conforms_rollback (fun v' _ hv' => ?_) (fun v' e hv' => ?_)
        (fun v' msg hv' => ?_)
      · exact Or.inr ⟨fun h => (by cases h), hv'⟩
      · exact Or.inr ⟨fun h => (by cases h), hv'⟩
      · exact Or.inr ⟨fun h => (by cases h), hv'⟩

/-- Wiring publishes both records, or takes the machine back. -/
theorem conforms_dnsWire {m : Machine} (h : v.Claims cp m) :
    Settles cp (cp.wire m) v := by
  refine conforms_unnoticed_issue unnoticed_addPeer fun r => ?_
  cases r with
  | error e =>
    exact Settles.bind h.conforms_rollback fun _ _ hv' => hv'
  | ok u =>
    refine (conforms_dnsForwards h).bind (fun v' _ hv' => ?_) (fun v' e hv' => ?_)
      (fun v' msg hv' => ?_)
    · rcases hv' with ⟨-, rfl⟩ | ⟨hne, -⟩
      · -- the first publication leaves the wildcard, the second nothing
        refine Protocol.conforms_issue.mpr ⟨.publish, fun r hr => ?_⟩
        cases r with
        | error e => exact hr.elim
        | ok u =>
          refine Protocol.conforms_issue.mpr ⟨.publish, fun r hr => ?_⟩
          cases r with
          | error e => exact hr.elim
          | ok u =>
            refine ⟨?_, h.cleared⟩
            show (v'.toPublish.filter _).filter _ = []
            rw [h.toPublish]
            simp [recordNames]
      · exact absurd rfl hne
    · rcases hv' with ⟨he, -⟩ | ⟨-, hv'⟩
      · cases he
      · exact hv'
    · rcases hv' with ⟨he, -⟩ | ⟨-, hv'⟩
      · cases he
      · exact hv'

theorem conforms_dnsFresh {owner : Option String} {name key : String} (hvalid : ValidName name)
    (hv : v.Settled) :
    Settles cp (cp.allocateFresh owner name key) v := by
  unfold allocateFresh
  refine conforms_redis.mpr ⟨.outside (by simp [Cmd.writes, RedisOp.writes]) rfl fun _ => rfl,
    fun _ _ => ?_, fun _ _ => hv⟩
  refine conforms_redis.mpr ⟨.outside (by simp [Cmd.writes, RedisOp.writes]) rfl fun _ => rfl,
    fun i _ => ?_, fun _ _ => hv⟩
  split_ifs
  · exact hv
  refine conforms_expect.mpr ⟨fun ips _ => ?_, fun _ => hv⟩
  refine conforms_redis.mpr
    ⟨.claim (m := cp.freshMachine owner name key ips.1 ips.2) hvalid hv.1, fun set _ => ?_,
      fun _ _ => hv⟩
  cases set with
  | false =>
    exact conforms_redis.mpr ⟨.outside (by simp [Cmd.writes, RedisOp.writes]) rfl fun _ => rfl,
      fun _ _ => hv, fun _ _ => hv⟩
  | true =>
    refine conforms_redis.mpr ⟨.outside (by simp [Cmd.writes, RedisOp.writes]) rfl fun _ => rfl,
      fun _ _ => ?_, fun _ hr => hr.elim⟩
    exact Settles.bind (conforms_dnsWire ⟨rfl, hvalid, rfl, hv.2⟩) fun _ _ hv' => hv'

/-- A key that is kept or rotated leaves the zone. -/
theorem conforms_dnsEnsure {name key : String} {m : Machine} (hm : m.name = name)
    (hvalid : ValidName name) (hv : v.Settled) : Settles cp (ensureKey name key m) v := by
  unfold ensureKey
  split_ifs
  · exact conforms_unnoticed_issue unnoticed_addPeer fun _ => hv
  · refine conforms_unnoticed_issue unnoticed_removePeer fun _ => ?_
    refine conforms_unnoticed_issue unnoticed_addPeer fun r => ?_
    cases r with
    | error e => exact hv
    | ok u =>
      subst hm
      exact conforms_redis.mpr ⟨.rotate (m := { m with wgPublicKey := key }) hvalid,
        fun _ _ => hv, fun _ _ => hv⟩

theorem unnoticed_edgePublicKey : (cp.edgePublicKey).All (Unnoticed cp) := by
  unfold edgePublicKey
  split
  · trivial
  · split_ifs <;> trivial

theorem conforms_dnsAllocate {owner : Option String} {name key : String} (hv : v.Settled) :
    Settles cp (cp.allocateMachine owner name key) v := by
  refine conforms_ofExcept.mpr ⟨fun u hname => ?_, fun _ _ => hv⟩
  refine conforms_ofExcept.mpr ⟨fun _ _ => ?_, fun _ _ => hv⟩
  refine conforms_redis.mpr ⟨.readMachine, fun existing hresp => ?_, fun _ _ => hv⟩
  have hread : ((dnsMoves cp).next v (.redis (.machine name .get)) (.ok existing)).Settled := by
    rcases existing with _ | x | _
    · exact hv
    · exact hv
    · exact hv
  refine (conforms_unnoticed unnoticed_edgePublicKey).bind (fun v' _ hv' => ?_)
    (fun v' _ hv' => ?_) (fun v' _ hv' => ?_)
  · subst hv'
    cases existing with
    | none =>
      exact (conforms_dnsFresh hname hread).bind fun _ _ hv' => hv'
    | some x =>
      obtain ⟨m, rfl, hm, hvalid⟩ := hresp
      exact (conforms_dnsEnsure hm hvalid hread).bind fun _ _ hv' => hv'
  · rw [hv']
    exact hread
  · rw [hv']
    exact hread

theorem conforms_dnsDelete {name : String} (hv : v.claimed = none ∧ v.Settled) :
    Settles cp (cp.delete name) v := by
  refine conforms_redis.mpr ⟨.readMachine, fun existing hresp => ?_, fun _ _ => hv.2⟩
  cases existing with
  | none => exact hv.2
  | some x =>
    obtain ⟨m, rfl, hm, hvalid⟩ := hresp
    refine conforms_unnoticed_issue unnoticed_removePeer fun _ => ?_
    refine (conforms_unnoticed unnoticed_removeForwards).bind (fun v' _ hv' => ?_)
      (fun v' _ hv' => by rw [hv']; exact hv.2) (fun v' _ hv' => by rw [hv']; exact hv.2)
    subst hv'
    refine Protocol.conforms_issue.mpr ⟨.clear, fun r hr => ?_⟩
    cases r with
    | error e => exact hr.elim
    | ok u =>
      refine Protocol.conforms_issue.mpr ⟨.clear, fun r hr => ?_⟩
      cases r with
      | error e => exact hr.elim
      | ok u =>
        refine conforms_redis.mpr ⟨.drop hvalid hv.1 hv.2.1 fun r => ?_, fun _ _ => ?_,
          fun _ hr => hr.elim⟩
        · show r ∈ _ :: _ :: v.cleared ↔ _
          rw [hv.2.2]
          simp only [recordNames, List.mem_cons, List.not_mem_nil, or_false]
          exact or_comm
        · exact conforms_redis.mpr
            ⟨.outside (by simp [Cmd.writes, RedisOp.writes]) rfl fun _ => rfl,
              fun _ _ => ⟨rfl, rfl⟩, fun _ _ => ⟨rfl, rfl⟩⟩

theorem conforms_dnsListFrom {names : List String} (hv : v.Settled) :
    Settles cp (listFrom names) v := by
  induction names generalizing v with
  | nil => exact hv
  | cons n names ih =>
    refine conforms_redis.mpr ⟨.readMachine, fun existing hresp => ?_, fun _ _ => hv⟩
    cases existing with
    | none => exact ih hv
    | some x =>
      obtain ⟨m, rfl, -, -⟩ := hresp
      show Settles cp (listFrom names >>= fun ms => pure (m :: ms)) { v with names := n :: v.names }
      exact Settles.bind (ih hv) fun _ _ hv' => hv'

/-- Publishing again leaves nothing to publish. -/
theorem conforms_reapply {r : String} {ipv6 : Ipv6Addr} (hv : v.Settled) :
    Settles cp (reapply r ipv6 : Edge ε ℕ) v := by
  refine Protocol.conforms_issue.mpr ⟨.publish, fun res hres => ?_⟩
  cases res with
  | error e => exact hres.elim
  | ok u =>
    refine ⟨?_, hv.2⟩
    show v.toPublish.filter _ = []
    rw [hv.1]
    rfl

theorem conforms_reconcileRecord {r : String} {ipv6 : Ipv6Addr} (hv : v.Settled) :
    Settles cp (reconcileRecord r ipv6 : Edge ε ℕ) v := by
  refine conforms_unnoticed_issue ⟨by simp [Cmd.writes], rfl, fun _ _ => rfl⟩ fun res => ?_
  cases res with
  | error e => exact conforms_reapply hv
  | ok resolved =>
    dsimp only
    split_ifs
    · exact hv
    · exact conforms_reapply hv

theorem conforms_reconcilePass {domain : String} {machines : List (String × Ipv6Addr)}
    (hv : v.Settled) :
    Settles cp (reconcilePass domain machines : Edge ε ℕ) v := by
  induction machines generalizing v with
  | nil => exact hv
  | cons m machines ih =>
    refine Settles.bind (conforms_reconcileRecord hv) fun v' _ hv' => ?_
    refine Settles.bind (conforms_reconcileRecord hv') fun v' _ hv' => ?_
    exact Settles.bind (ih hv') fun _ _ h => h

theorem conforms_reconcileDnsOnce (hv : v.Settled) :
    Settles cp cp.reconcileDnsOnce v := by
  refine Settles.bind ?_ fun _ _ hv' => conforms_reconcilePass hv'
  exact conforms_redis.mpr ⟨.outside (by simp [Cmd.writes, RedisOp.writes]) rfl fun _ => rfl,
    fun _ _ => conforms_dnsListFrom hv, fun _ _ => hv⟩

/-- The calls that change the zone. -/
def Call.provisions : Call → Bool
  | .allocate _ _ _ | .delete _ | .reconcileDnsOnce => true
  | _ => false

/-- **Allocation, deletion and reconciliation conform.** -/
theorem body_dnsMoves {call : Call} (h : call.provisions = true) :
    (dnsMoves cp).Conforms (fun v _ => v.Settled) (cp.body call) ((dnsMoves cp).init call) := by
  cases call with
  | allocate owner name key => exact (conforms_dnsAllocate ⟨rfl, rfl⟩).bimap fun _ _ h => h
  | delete name => exact (conforms_dnsDelete ⟨rfl, rfl, rfl⟩).bimap fun _ _ h => h
  | reconcileDnsOnce => exact (conforms_reconcileDnsOnce ⟨rfl, rfl⟩).bimap fun _ _ h => h
  | _ => cases h

/-! ## The zone and the store -/

variable (cp)

/-- What a call in progress has done to machine records and to the zone. -/
def dnsView (t : Handler) : DnsView := (dnsMoves cp).state t

def dnsViews (σ : Server) : List DnsView := (dnsMoves cp).states σ.pool

/-- Machine records decode, under their own valid names. -/
def WellNamed (w : World) : Prop :=
  ∀ n x, w.machines n = some x → ∃ m, x = .json m ∧ m.name = n ∧ ValidName n

/-- **The zone says what the store says**: the records of a stored machine hold its address, and
a name without a machine has no records. -/
structure Published (w : World) : Prop where
  wellNamed : WellNamed w
  live : ∀ n m, w.machines n = some (.json m) → ∀ r ∈ cp.recordNames n, w.dns r = some m.ipv6
  gone : ∀ n, ValidName n → w.machines n = none → ∀ r ∈ cp.recordNames n, w.dns r = none

/-- What holds of the zone while calls are in progress: a record is there unless a call is about
to publish it or to delete its machine. -/
structure DnsSound (w : World) (vs : List DnsView) : Prop where
  wellNamed : WellNamed w
  present : ∀ n m, w.machines n = some (.json m) → ∀ r ∈ cp.recordNames n,
    w.dns r = some m.ipv6 ∨ ∃ v ∈ vs, r ∈ v.toPublish ∨ r ∈ v.cleared
  absent : ∀ n, ValidName n → w.machines n = none → ∀ r ∈ cp.recordNames n, w.dns r = none
  cleared : ∀ v ∈ vs, ∀ r ∈ v.cleared, w.dns r = none

/-- Is the machine stored with this address? -/
def storedAt (w : World) (n ipv6 : String) : Bool :=
  match w.machines n with
  | some (.json m) => m.ipv6 = ipv6
  | _ => false

/-- What is asked of one command of a call.  The provider does not fail; a record is published
while its machine is stored with that address and no deletion is past removing it; a machine
whose key is rotated is still stored with its address; an allocation is listed, and is not taken
back once its machine has records. -/
def dnsStep (w : World) (vs : List DnsView) (v : DnsView) (ch : Choice) : Cmd → Bool
  | .upsertAaaa r ip =>
    !ch.fails && (v.names.any fun n => (cp.recordNames n).contains r && storedAt w n ip) &&
      vs.all fun u => !u.cleared.contains r
  | .removeAaaa _ => !ch.fails
  | .redis (.machine n .del) =>
    !ch.fails && (v.claimed.isNone || (cp.recordNames n).all fun r => (w.dns r).isNone)
  | .redis (.machine n (.set (.json m))) => ch.fails || storedAt w n m.ipv6
  | .redis (.index (.rpush _)) => !ch.fails
  | _ => true

/-- Allocations, deletions and reconcile passes whose commands meet `dnsStep`. -/
def KeepsDns (σ : Server) : Tick → Prop
  | .start call => call.provisions
  | .step i ch => ∀ t ∈ σ.pool[i]?, ∀ c ∈ t.pending,
      dnsStep cp σ.world (dnsViews cp σ) (dnsView cp t) ch c

instance : ∀ σ e, Decidable (KeepsDns cp σ e)
  | _, .start call => inferInstanceAs (Decidable (call.provisions = true))
  | σ, .step i ch => inferInstanceAs (Decidable (∀ t ∈ σ.pool[i]?, ∀ c ∈ t.pending,
      dnsStep cp σ.world (dnsViews cp σ) (dnsView cp t) ch c = true))

variable {cp} {w w' : World} {vs : List DnsView} {i : ℕ} {v' : DnsView}

theorem storedAt_eq_true {n ipv6 : String} (h : storedAt w n ipv6 = true) :
    ∃ m, w.machines n = some (.json m) ∧ m.ipv6 = ipv6 := by
  unfold storedAt at h
  split at h
  · rename_i m hm
    exact ⟨m, hm, of_decide_eq_true h⟩
  · cases h

/-- A record that some call is about to publish or to delete, in the replaced list. -/
theorem exists_pending_set {r : String} (hvi : vs[i]? = some v)
    (hv : r ∈ v.toPublish ∨ r ∈ v.cleared → r ∈ v'.toPublish ∨ r ∈ v'.cleared)
    (h : ∃ u ∈ vs, r ∈ u.toPublish ∨ r ∈ u.cleared) :
    ∃ u ∈ vs.set i v', r ∈ u.toPublish ∨ r ∈ u.cleared := exists_mem_set hvi hv h

theorem WellNamed.update {n : String} {x : Option (Stored Machine)} (h : WellNamed w)
    (hx : ∀ y, x = some y → ∃ m, y = .json m ∧ m.name = n ∧ ValidName n)
    (hmachines : w'.machines = Function.update w.machines n x) : WellNamed w' := by
  intro n' y hy
  rcases update_cases (hmachines ▸ hy) with ⟨rfl, hy⟩ | ⟨-, hy⟩
  · exact hx y hy
  · exact h n' y hy

/-- A record that a call has removed is not in the zone, when a call went on and removed none. -/
theorem DnsSound.dns_of_cleared {u : DnsView} {r : String} (h : DnsSound cp w vs)
    (hvi : vs[i]? = some v) (hcleared : v'.cleared = v.cleared) (hu : u ∈ vs.set i v')
    (hr : r ∈ u.cleared) : w.dns r = none := by
  rcases List.mem_or_eq_of_mem_set hu with hu | rfl
  · exact h.cleared u hu r hr
  · exact h.cleared v (List.mem_of_getElem? hvi) r (hcleared ▸ hr)

/-- What leaves the machines and the zone keeps the assertion, when the view keeps what it has
to publish and to delete. -/
theorem DnsSound.frame (h : DnsSound cp w vs) (hvi : vs[i]? = some v)
    (hmachines : w'.machines = w.machines) (hdns : w'.dns = w.dns)
    (hpublish : v'.toPublish = v.toPublish) (hcleared : v'.cleared = v.cleared) :
    DnsSound cp w' (vs.set i v') := by
  refine ⟨?_, fun n m hm r hr => ?_, fun n hn hm r hr => ?_, fun u hu r hr => ?_⟩
  · unfold WellNamed
    rw [hmachines]
    exact h.wellNamed
  · rw [hmachines] at hm
    rw [hdns]
    refine (h.present n m hm r hr).imp id fun hex => exists_pending_set hvi ?_ hex
    rw [hpublish, hcleared]
    exact id
  · rw [hmachines] at hm
    rw [hdns]
    exact h.absent n hn hm r hr
  · rw [hdns]
    exact h.dns_of_cleared hvi hcleared hu hr

/-- A fresh machine: its records are to be published. -/
theorem DnsSound.claim (h : DnsSound cp w vs) (hvi : vs[i]? = some v) {m : Machine}
    (hvalid : ValidName m.name) (hnew : w.machines m.name = none)
    (hnone : v.toPublish = []) (hpublish : v'.toPublish = cp.recordNames m.name)
    (hcleared : v'.cleared = v.cleared)
    (hmachines : w'.machines = Function.update w.machines m.name (some (.json m)))
    (hdns : w'.dns = w.dns) : DnsSound cp w' (vs.set i v') := by
  have hnamed : WellNamed w' :=
    h.wellNamed.update (fun y hy => ⟨m, (Option.some.inj hy).symm, rfl, hvalid⟩) hmachines
  refine ⟨hnamed, fun n m' hm r hr => ?_, fun n hn hm r hr => ?_, fun u hu r hr => ?_⟩
  · rw [hmachines] at hm
    by_cases hn : n = m.name
    · subst hn
      refine Or.inr ⟨v', List.mem_of_getElem? (List.getElem?_set_self
        (List.getElem?_eq_some_iff.mp hvi).1), Or.inl ?_⟩
      rw [hpublish]
      exact hr
    · rw [Function.update_of_ne hn] at hm
      rw [hdns]
      refine (h.present n m' hm r hr).imp id fun hex => exists_pending_set hvi ?_ hex
      rintro (hp | hc)
      · rw [hnone] at hp
        cases hp
      · exact Or.inr (hcleared ▸ hc)
  · rw [hmachines] at hm
    rw [hdns]
    by_cases hne : n = m.name
    · subst hne
      exact h.absent _ hn hnew r hr
    · rw [Function.update_of_ne hne] at hm
      exact h.absent n hn hm r hr
  · rw [hdns]
    exact h.dns_of_cleared hvi hcleared hu hr

/-- Storing a record over one with the same address. -/
theorem DnsSound.overwrite (h : DnsSound cp w vs) {m : Machine} (hvalid : ValidName m.name)
    (hstored : storedAt w m.name m.ipv6 = true)
    (hmachines : w'.machines = Function.update w.machines m.name (some (.json m)))
    (hdns : w'.dns = w.dns) : DnsSound cp w' vs := by
  obtain ⟨old, hold, hip⟩ := storedAt_eq_true hstored
  have hnamed : WellNamed w' :=
    h.wellNamed.update (fun y hy => ⟨m, (Option.some.inj hy).symm, rfl, hvalid⟩) hmachines
  refine ⟨hnamed, fun n m' hm r hr => ?_, fun n hn hm r hr => ?_, fun u hu r hr => ?_⟩
  · rw [hmachines] at hm
    rw [hdns]
    by_cases hn : n = m.name
    · subst hn
      rw [Function.update_self] at hm
      cases hm
      rw [← hip]
      exact h.present _ old hold r hr
    · rw [Function.update_of_ne hn] at hm
      exact h.present n m' hm r hr
  · rw [hmachines] at hm
    rw [hdns]
    by_cases hne : n = m.name
    · subst hne
      rw [Function.update_self] at hm
      cases hm
    · rw [Function.update_of_ne hne] at hm
      exact h.absent n hn hm r hr
  · rw [hdns]
    exact h.cleared u hu r hr

/-- Publishing a record of a machine that is stored with this address, while no deletion is past
removing it. -/
theorem DnsSound.publish (h : DnsSound cp w vs) (hvi : vs[i]? = some v) {n r ip : String}
    (hr : r ∈ cp.recordNames n) (hstored : storedAt w n ip = true)
    (hkept : ∀ u ∈ vs, r ∉ u.cleared)
    (hpublish : v'.toPublish = v.toPublish.filter (· ≠ r)) (hcleared : v'.cleared = v.cleared)
    (hmachines : w'.machines = w.machines) (hdns : w'.dns = Function.update w.dns r (some ip)) :
    DnsSound cp w' (vs.set i v') := by
  obtain ⟨m, hm, hip⟩ := storedAt_eq_true hstored
  have hvalid : ∀ {n' m'}, w.machines n' = some (.json m') → ValidName n' := by
    intro n' m' hm'
    obtain ⟨_, -, -, hvalid⟩ := h.wellNamed _ _ hm'
    exact hvalid
  refine ⟨?_, fun n' m' hm' r' hr' => ?_, fun n' hn' hm' r' hr' => ?_, fun u hu r' hr' => ?_⟩
  · unfold WellNamed
    rw [hmachines]
    exact h.wellNamed
  · rw [hmachines] at hm'
    rw [hdns]
    by_cases hrr : r' = r
    · subst hrr
      obtain rfl := recordNames_inj (hvalid hm') (hvalid hm) hr' hr
      rw [hm] at hm'
      cases hm'
      rw [Function.update_self, hip]
      exact Or.inl rfl
    · rw [Function.update_of_ne hrr]
      refine (h.present n' m' hm' r' hr').imp id fun hex => exists_pending_set hvi ?_ hex
      rw [hpublish, hcleared]
      exact Or.imp_left fun hp => List.mem_filter.mpr ⟨hp, decide_eq_true hrr⟩
  · rw [hmachines] at hm'
    rw [hdns]
    have hrr : r' ≠ r := by
      rintro rfl
      obtain rfl := recordNames_inj hn' (hvalid hm) hr' hr
      rw [hm] at hm'
      cases hm'
    rw [Function.update_of_ne hrr]
    exact h.absent n' hn' hm' r' hr'
  · have hold : ∃ u' ∈ vs, r' ∈ u'.cleared := by
      rcases List.mem_or_eq_of_mem_set hu with hu | rfl
      · exact ⟨u, hu, hr'⟩
      · exact ⟨v, List.mem_of_getElem? hvi, hcleared ▸ hr'⟩
    obtain ⟨u', hu', hc⟩ := hold
    have hrr : r' ≠ r := by
      rintro rfl
      exact hkept u' hu' hc
    rw [hdns, Function.update_of_ne hrr]
    exact h.cleared u' hu' r' hc

/-- Removing a record of a machine that is then to be deleted. -/
theorem DnsSound.clear (h : DnsSound cp w vs) (hvi : vs[i]? = some v) {r : String}
    (hpublish : v'.toPublish = v.toPublish) (hcleared : v'.cleared = r :: v.cleared)
    (hmachines : w'.machines = w.machines) (hdns : w'.dns = Function.update w.dns r none) :
    DnsSound cp w' (vs.set i v') := by
  have hnone : ∀ {r'}, w.dns r' = none → w'.dns r' = none := by
    intro r' hr'
    rw [hdns]
    by_cases hrr : r' = r
    · rw [hrr, Function.update_self]
    · rw [Function.update_of_ne hrr, hr']
  refine ⟨?_, fun n' m' hm' r' hr' => ?_, fun n' hn' hm' r' hr' => ?_, fun u hu r' hr' => ?_⟩
  · unfold WellNamed
    rw [hmachines]
    exact h.wellNamed
  · rw [hmachines] at hm'
    by_cases hrr : r' = r
    · refine Or.inr ⟨v', List.mem_of_getElem? (List.getElem?_set_self
        (List.getElem?_eq_some_iff.mp hvi).1), Or.inr ?_⟩
      rw [hcleared, hrr]
      exact List.mem_cons_self
    · rw [hdns, Function.update_of_ne hrr]
      refine (h.present n' m' hm' r' hr').imp id fun hex => exists_pending_set hvi ?_ hex
      rw [hpublish, hcleared]
      exact Or.imp_right fun hc => List.mem_cons_of_mem _ hc
  · rw [hmachines] at hm'
    exact hnone (h.absent n' hn' hm' r' hr')
  · rcases List.mem_or_eq_of_mem_set hu with hu | rfl
    · exact hnone (h.cleared u hu r' hr')
    · rw [hcleared] at hr'
      rcases List.mem_cons.mp hr' with rfl | hr'
      · rw [hdns, Function.update_self]
      · exact hnone (h.cleared v (List.mem_of_getElem? hvi) r' hr')

/-- Removing a machine that has no records. -/
theorem DnsSound.remove (h : DnsSound cp w vs) (hvi : vs[i]? = some v) {n : String}
    (hvalid : ValidName n) (hv : ∀ r, r ∈ v.toPublish ∨ r ∈ v.cleared → r ∈ cp.recordNames n)
    (hnone : ∀ r ∈ cp.recordNames n, w.dns r = none) (hcleared : v'.cleared = [])
    (hmachines : w'.machines = Function.update w.machines n none) (hdns : w'.dns = w.dns) :
    DnsSound cp w' (vs.set i v') := by
  have hnamed : WellNamed w' := h.wellNamed.update (fun y hy => by cases hy) hmachines
  refine ⟨hnamed, fun n' m' hm' r hr => ?_, fun n' hn' hm' r hr => ?_, fun u hu r hr => ?_⟩
  · rw [hmachines] at hm'
    rw [hdns]
    have hne : n' ≠ n := by
      rintro rfl
      rw [Function.update_self] at hm'
      cases hm'
    rw [Function.update_of_ne hne] at hm'
    refine (h.present n' m' hm' r hr).imp id fun hex => exists_pending_set hvi ?_ hex
    intro hpend
    obtain ⟨_, -, -, hvalid'⟩ := h.wellNamed _ _ hm'
    exact absurd (recordNames_inj hvalid' hvalid hr (hv r hpend)) hne
  · rw [hmachines] at hm'
    rw [hdns]
    by_cases hn : n' = n
    · subst hn
      exact hnone r hr
    · rw [Function.update_of_ne hn] at hm'
      exact h.absent n' hn' hm' r hr
  · rw [hdns]
    rcases List.mem_or_eq_of_mem_set hu with hu | rfl
    · exact h.cleared u hu r hr
    · rw [hcleared] at hr
      cases hr

/-! ## The rule -/

theorem next_dns_error (v : DnsView) (op : RedisOp) (e : RedisError) :
    v.next cp (.redis op) (.error e) = v := by
  cases op with
  | machine n op =>
    cases op with
    | setNx x => cases x <;> rfl
    | _ => rfl
  | _ => rfl

theorem getElem?_dnsViews {σ : Server} {t : Handler} (h : σ.pool[i]? = some t) :
    (dnsViews cp σ)[i]? = some (dnsView cp t) := Protocol.getElem?_states h

/-- The condition on the command that a call issues next. -/
theorem KeepsDns.dnsStep {σ : Server} {ch : Choice} {t : Handler} {c : Cmd}
    (h : KeepsDns cp σ (.step i ch)) (hi : σ.pool[i]? = some t) (hpend : t.pending = some c) :
    dnsStep cp σ.world (dnsViews cp σ) (dnsView cp t) ch c = true := h t hi c hpend

/-- The responses that the condition and the records allow. -/
theorem resp_dns {c : Cmd} {ch : Choice} (hw : WellNamed w)
    (hstep : dnsStep cp w vs v ch c = true) :
    (dnsMoves cp).resp c (Cmd.exec ch c w).1 := by
  cases c with
  | redis op =>
    cases hf : ch.fails with
    | true =>
      rw [exec_redis_of_fails hf]
      cases op with
      | machine n op =>
        cases op with
        | del => simp [ControlPlane.dnsStep, hf] at hstep
        | _ => trivial
      | index op =>
        cases op with
        | rpush n => simp [ControlPlane.dnsStep, hf] at hstep
        | _ => trivial
      | _ => trivial
    | false =>
      rw [exec_redis_of_not_fails hf]
      cases op with
      | machine n op =>
        cases op with
        | get =>
          show (dnsMoves cp).resp (.redis (.machine n .get)) (.ok (w.machines n))
          cases hx : w.machines n with
          | none => trivial
          | some x => exact hw n x hx
        | _ => trivial
      | index op => cases op <;> trivial
      | _ => trivial
  | upsertAaaa r ip =>
    have hf : ch.fails = false := by
      simp only [ControlPlane.dnsStep, Bool.and_eq_true, Bool.not_eq_true'] at hstep
      exact hstep.1.1
    simp only [Cmd.exec, hf]
    trivial
  | removeAaaa r =>
    have hf : ch.fails = false := by simpa [ControlPlane.dnsStep] using hstep
    simp only [Cmd.exec, hf]
    trivial
  | _ => trivial

/-- One permitted command that meets the condition keeps the assertion. -/
theorem DnsSound.step {c : Cmd} {ch : Choice} (h : DnsSound cp w vs) (hvi : vs[i]? = some v)
    (hmove : DnsMove cp v c) (hstep : dnsStep cp w vs v ch c = true) :
    DnsSound cp (Cmd.exec ch c w).2 (vs.set i (v.next cp c (Cmd.exec ch c w).1)) := by
  cases hmove with
  | outside hwrites hrecords hnext =>
    rw [hnext]
    exact h.frame hvi (exec_of_writes hwrites ch w) (exec_dns hrecords ch w) rfl rfl
  | @readMachine n =>
    rcases exec_redis_cases ch (.machine n .get) w with he | he
    · rw [he, next_dns_error, set_same hvi]
      exact h
    · rw [he, exec_machine_get]
      rcases w.machines n with _ | x | _
      · exact h.frame hvi rfl rfl rfl rfl
      · exact h.frame hvi rfl rfl rfl rfl
      · exact h.frame hvi rfl rfl rfl rfl
  | @claim m hvalid hpublish =>
    rcases exec_redis_cases ch (.machine m.name (.setNx (.json m))) w with he | he
    · rw [he, next_dns_error, set_same hvi]
      exact h
    · cases hx : w.machines m.name with
      | none =>
        rw [he, exec_claim hx]
        exact h.claim hvi hvalid hx hpublish rfl rfl rfl rfl
      | some x =>
        rw [he, exec_claim_of_some hx]
        exact h.frame hvi rfl rfl rfl rfl
  | @rotate m hvalid =>
    rcases hf : ch.fails with _ | _
    · rw [exec_redis_of_not_fails hf, exec_machine_set]
      simp only [ControlPlane.dnsStep, hf, Bool.false_or] at hstep
      show DnsSound cp _ (vs.set i v)
      rw [set_same hvi]
      exact h.overwrite hvalid hstep rfl rfl
    · rw [exec_redis_of_fails hf, next_dns_error, set_same hvi]
      exact h
  | @publish r ip =>
    simp only [ControlPlane.dnsStep, Bool.and_eq_true, Bool.not_eq_true', List.any_eq_true,
      List.all_eq_true, List.contains_eq_mem, decide_eq_true_eq, decide_eq_false_iff_not] at hstep
    obtain ⟨⟨hf, n, -, hr, hstored⟩, hkept⟩ := hstep
    simp only [Cmd.exec, hf]
    exact h.publish hvi hr hstored hkept rfl rfl rfl rfl
  | @clear r =>
    have hf : ch.fails = false := by simpa [ControlPlane.dnsStep] using hstep
    simp only [Cmd.exec, hf]
    exact h.clear hvi rfl rfl rfl rfl
  | @undo m hclaimed hvalid hpublish hcleared =>
    simp only [ControlPlane.dnsStep, hclaimed, Bool.and_eq_true, Bool.not_eq_true',
      Option.isNone_some, Bool.false_or, List.all_eq_true, Option.isNone_iff_eq_none] at hstep
    rw [exec_redis_of_not_fails hstep.1, exec_machine_del]
    refine h.remove hvi hvalid (fun r hr => ?_) hstep.2 rfl rfl rfl
    rcases hr with hr | hr
    · exact hpublish r hr
    · rw [hcleared] at hr
      cases hr
  | @drop n hvalid hclaimed hpublish hcleared =>
    simp only [ControlPlane.dnsStep, Bool.and_eq_true, Bool.not_eq_true'] at hstep
    rw [exec_redis_of_not_fails hstep.1, exec_machine_del]
    have hmem : v ∈ vs := List.mem_of_getElem? hvi
    refine h.remove hvi hvalid (fun r hr => ?_)
      (fun r hr => h.cleared v hmem r ((hcleared r).mpr hr)) rfl rfl rfl
    rcases hr with hr | hr
    · rw [hpublish] at hr
      cases hr
    · exact (hcleared r).mp hr

/-- The protocol rule for the zone. -/
theorem dnsSteps : Protocol.Steps (dnsMoves cp) Cmd.exec cp.body (KeepsDns cp)
    (fun v _ => v.Settled) (DnsSound cp) where
  conforms σ call hcall := body_dnsMoves hcall
  start σ call hcall h := by
    refine ⟨h.wellNamed, fun n m hm r hr => ?_, h.absent, fun u hu r hr => ?_⟩
    · refine (h.present n m hm r hr).imp id ?_
      rintro ⟨u, hu, hpend⟩
      exact ⟨u, List.mem_append_left _ hu, hpend⟩
    · rcases List.mem_append.mp hu with hu | hu
      · exact h.cleared u hu r hr
      · rw [List.mem_singleton.mp hu] at hr
        cases hr
  step σ i ch t c k hallowed hi ht hok h := by
    have hstep := hallowed.dnsStep hi (by rw [Thread.pending, ht])
    exact ⟨resp_dns h.wellNamed hstep, h.step (getElem?_dnsViews hi) hok hstep⟩

/-! ## Schedules -/

/-- Every call has returned. -/
def Finished (σ : Server) : Prop := ∀ t ∈ σ.pool, t.result.isSome

instance (σ : Server) : Decidable (Finished σ) :=
  inferInstanceAs (Decidable (∀ t ∈ σ.pool, t.result.isSome = true))

/-- Allocate one machine. -/
def allocatedKitchen : List Tick :=
  .start (.allocate none "kitchen" keyA) :: List.replicate 10 (.step 0 {})

/-- A pass lists the machine; the machine is deleted; the pass finds that its names do not
resolve. -/
def deletedInPass : List Tick :=
  allocatedKitchen ++ [.start .reconcileDnsOnce, .step 1 {}, .step 1 {}] ++
    .start (.delete "kitchen") :: List.replicate 8 (.step 2 {}) ++
      List.replicate 4 (.step 1 {})

/-- The records of the deleted machine are published again. -/
theorem staleRecord :
    Finished (Server.run sample ⟨World.empty, []⟩ deletedInPass) ∧
      ¬Published sample (Server.run sample ⟨World.empty, []⟩ deletedInPass).world := by
  refine ⟨by decide, fun h => ?_⟩
  have hgone : (Server.run sample ⟨World.empty, []⟩ deletedInPass).world.machines "kitchen" =
      none := by decide
  have hstale : (Server.run sample ⟨World.empty, []⟩ deletedInPass).world.dns
      "kitchen.example.net" ≠ none := by decide
  exact hstale (h.gone "kitchen" (by decide) hgone _ List.mem_cons_self)

/-- **The zone is published.**  When a schedule of allocations, deletions and reconcile passes
that meets `dnsStep` has finished, the zone says what the store says. -/
theorem zone_published (hw : Published cp w) {ticks : List Tick}
    (hadm : Server.Admissible cp (KeepsDns cp) ⟨w, []⟩ ticks)
    (hfin : Finished (Server.run cp ⟨w, []⟩ ticks)) :
    Published cp (Server.run cp ⟨w, []⟩ ticks).world := by
  have hinit : DnsSound cp w [] :=
    ⟨hw.wellNamed, fun n m hm r hr => Or.inl (hw.live n m hm r hr), hw.gone,
      fun _ hv => absurd hv List.not_mem_nil⟩
  have hkeeps := dnsSteps.run_keeps (Protocol.keeps_nil hinit) hadm
  have hsound := hkeeps.holds
  have hsettled : ∀ v ∈ dnsViews cp (Server.run cp ⟨w, []⟩ ticks), v.Settled := by
    intro v hv
    obtain ⟨t, ht, rfl⟩ := List.mem_map.mp hv
    obtain ⟨o, ho⟩ := Option.isSome_iff_exists.mp (hfin t ht)
    exact hkeeps.fin_of_result ht ho
  refine ⟨hsound.wellNamed, fun n m hm r hr => ?_, hsound.absent⟩
  refine (hsound.present n m hm r hr).resolve_right ?_
  rintro ⟨v, hv, hpend⟩
  obtain ⟨hp, hc⟩ := hsettled v hv
  rw [hp, hc] at hpend
  rcases hpend with h | h <;> cases h

/-- A pass publishes the records of one machine again while another is allocated and deleted. -/
def passedOver : List Tick :=
  allocatedKitchen ++ [.start .reconcileDnsOnce, .step 1 {}, .step 1 {}] ++
    .start (.allocate none "office" keyB) :: List.replicate 10 (.step 2 {}) ++
    [.step 1 {}, .step 1 {}] ++ .start (.delete "office") :: List.replicate 8 (.step 3 {}) ++
    [.step 1 {}, .step 1 {}]

theorem zone_published_passed :
    (Server.run sample ⟨World.empty, []⟩ passedOver).world.dns "*.kitchen.example.net" =
        some "2a01:4f8:c17:1::2" ∧
      (Server.run sample ⟨World.empty, []⟩ passedOver).world.dns "office.example.net" = none := by
  have hempty : Published sample World.empty :=
    ⟨fun _ _ h => (by cases h), fun _ _ h => (by cases h), fun _ _ _ _ _ => rfl⟩
  have h : Published sample (Server.run sample ⟨World.empty, []⟩ passedOver).world :=
    zone_published hempty (by decide) (by decide)
  have hkitchen : (Server.run sample ⟨World.empty, []⟩ passedOver).world.machines "kitchen" =
      some (.json ⟨"kitchen", none, "kitchen.example.net", "2a01:4f8:c17:1::2", "10.10.0.2", keyA,
        none⟩) := by decide
  have hoffice : (Server.run sample ⟨World.empty, []⟩ passedOver).world.machines "office" = none := by
    decide
  refine ⟨h.live "kitchen" _ hkitchen _ (List.mem_cons_of_mem _ List.mem_cons_self), ?_⟩
  exact h.gone "office" (by decide) hoffice _ List.mem_cons_self

end ControlPlane
end Cococoir
