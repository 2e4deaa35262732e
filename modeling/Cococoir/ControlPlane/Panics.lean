import Cococoir.ControlPlane.Delivery
import Cococoir.ControlPlane.Fleet
import Cococoir.ControlPlane.Writes

/-!
# Panics of the public operations

A machine begins, polls and registers without a session, so whoever reaches the site can call
these three operations with any strings.  They expect things of other records: that the machine
of an approved invite is still listed under the key it began with, and that a device token is
not empty.

Whatever operations have run in whatever order, records are stored under their own names and
decode: `namedDecoded_run`.  From there `never_panics_iff` says when a public operation cannot
panic.

## Reached states

That a stored record decodes and has the name it is stored under is true of every state that the
operations reach, and not of every state; without it a begin could panic for reasons that never
occur.  `Names` is the property of a program that keeps it: as long as what it reads has its own
name, what it writes has.  This is shown of all operations, and by the run lemma of every
interleaving.

In such a state three things are left that a public operation expects.  A re-arm expects to find
the machine of the approved invite in the list, under the key that began; a registration expects
that its token is not empty, and, when it comes to allocating, that the edge's own key decodes.
`Call.Safe` says these of a state, in its words and not in those of a run, and the theorem is an
equivalence: in any other state there is a run that panics.
-/

namespace Cococoir
namespace ControlPlane

open Concurrency

variable {cp : ControlPlane} {w w' : World} {ε ε' α β : Type}

/-! ## Records keep their names -/

/-- What a command may store. -/
def stored {V : Type} : Redis.KeyOp V → Option V
  | .set x | .setEx x _ | .setNx x | .setNxEx x _ => some x
  | _ => none

/-- What a cell holds after a command, it held before or the command stored. -/
theorem exec_stored {V : Type} {op : Redis.KeyOp V} {cell : Option V} {x : V}
    (h : (op.exec cell).2 = some x) : cell = some x ∨ stored op = some x := by
  cases op with
  | set v => exact Or.inr h
  | setEx v ttl => exact Or.inr h
  | setNx v | setNxEx v ttl =>
    cases cell with
    | none => exact Or.inr h
    | some u => exact Or.inl h
  | del => cases cell <;> cases h
  | getDel => cases h
  | get | isThere => exact Or.inl h

/-- A command that stores machine records under their own names only. -/
def KeepsNames (c : Cmd) : Prop :=
  ∀ n op x, c = .redis (.machine n op) → stored op = some x → ∃ m, x = .json m ∧ m.name = n

/-- Records are stored under their own names, and decode. -/
def NamedDecoded (w : World) : Prop := Named w ∧ Decoded w

theorem NamedDecoded.decodes (h : NamedDecoded w) : Decodes w := by
  intro n _ text err hn
  obtain ⟨m, hm⟩ := h.2 n _ hn
  cases hm

/-- **One command.** -/
theorem NamedDecoded.exec {c : Cmd} (h : NamedDecoded w) (hc : KeepsNames c) (ch : Choice) :
    NamedDecoded (Cmd.exec ch c w).2 := by
  by_cases hm : ∃ n op, c = .redis (.machine n op)
  · obtain ⟨n, op, rfl⟩ := hm
    rcases exec_redis_cases ch (.machine n op) w with he | he
    · rw [he]
      exact h
    rw [he]
    have hcell : ∀ x, (op.exec (w.machines n)).2 = some x → ∃ m, x = .json m ∧ m.name = n := by
      intro x hx
      rcases exec_stored hx with hx | hx
      · obtain ⟨m, rfl⟩ := h.2 n x hx
        exact ⟨m, rfl, h.1 n m hx⟩
      · exact hc n op x rfl hx
    constructor
    · refine named_update h.1 rfl fun m hx => ?_
      obtain ⟨_, ⟨⟩, hname⟩ := hcell _ hx
      exact hname
    · refine h.2.update (fun x hx => ?_) rfl
      obtain ⟨m, hm, -⟩ := hcell x hx
      exact ⟨m, hm⟩
  · have hmachines : (Cmd.exec ch c w).2.machines = w.machines :=
      exec_machines fun n op he => hm ⟨n, op, he⟩
    constructor
    · intro n m hx
      exact h.1 n m (hmachines ▸ hx)
    · intro n x hx
      exact h.2 n x (hmachines ▸ hx)

/-- The operations as a protocol about nothing but names. -/
def naming (cp : ControlPlane) : Protocol Call Cmd Cmd.Resp Unit where
  init _ := ()
  next _ _ _ := ()
  ok _ c := KeepsNames c
  resp := (moves cp).resp

/-- The program stores records under their own names only, as long as it reads such. -/
def Names (cp : ControlPlane) (p : Edge ε α) : Prop :=
  (naming cp).Conforms (fun _ _ => True) p ()

theorem names_of_all {p : Edge ε α} (hp : p.All KeepsNames) : Names cp p :=
  (Protocol.Conforms.of_all (hp.mono fun _ hc => ⟨hc, fun _ => rfl⟩)).mono fun _ _ _ => trivial

theorem Names.bind {p : Edge ε α} {f : α → Edge ε β} (hp : Names cp p)
    (hf : ∀ a, Names cp (f a)) : Names cp (p >>= f) :=
  Protocol.Conforms.bind hp (fun _ a _ => hf a) (fun _ _ _ => trivial) fun _ _ _ => trivial

theorem Names.bimap {p : Edge ε α} {f : ε → ε'} {g : α → β} (hp : Names cp p) :
    Names cp (p.bimap f g) := Protocol.Conforms.bimap hp fun _ _ _ => trivial

theorem Names.attempt {p : Edge ε α} (hp : Names cp p) :
    Names cp (p.attempt : Edge ε' (Except ε α)) :=
  Protocol.Conforms.attempt hp (fun _ _ _ => trivial) (fun _ _ _ => trivial) fun _ _ _ => trivial

theorem keepsNames_of_writes {fs : List Family} (hfs : Family.machine ∉ fs) (c : Cmd)
    (hc : WritesOnly fs c) : KeepsNames c := by
  rintro n op x rfl hx
  refine absurd (hc .machine ?_) hfs
  cases op with
  | get | isThere | del | getDel => cases hx
  | _ => rfl

theorem names_of_writes {fs : List Family} {p : Edge ε α} (hp : p.All (WritesOnly fs))
    (hfs : Family.machine ∉ fs) : Names cp p := names_of_all (hp.mono (keepsNames_of_writes hfs))

/-- The moves of the machine and invite operations keep names. -/
theorem Move.keepsNames {v : View} {c : Cmd} (h : Move cp v c) : KeepsNames c := by
  rintro n op x rfl hx
  cases h with
  | outside h => exact absurd rfl (h _)
  | readMachine | drop => cases hx
  | claim | rotate | attach =>
    cases hx
    exact ⟨_, rfl, rfl⟩

theorem names_of_moves {fin : View → Outcome ε α → Prop} {p : Edge ε α} {v : View}
    (hp : (moves cp).Conforms fin p v) : Names cp p := by
  induction p generalizing v with
  | done o => trivial
  | cmd c k ih => exact ⟨hp.1.keepsNames, fun r hr => ih r (hp.2 r hr)⟩

theorem names_accountDelete {email : String} {pages : ℕ} :
    Names cp (cp.accountDelete email pages) := by
  refine (names_of_writes writes_readAccount (by simp)).bind fun account => ?_
  cases account with
  | none => trivial
  | some account =>
    refine (names_of_writes writes_machinesOf (by simp)).attempt.bind fun ms => ?_
    refine Names.bind ?_ fun _ => ?_
    · induction ms.toOption.getD [] with
      | nil => trivial
      | cons m ms ih =>
        exact (names_of_moves (conforms_delete (v := .init .list) rfl)).attempt.bind fun _ => ih
    refine (names_of_writes writes_invitesOf (by simp)).attempt.bind fun invites => ?_
    refine (names_of_writes writes_deleteInvites (by simp)).bind fun _ => ?_
    refine (names_of_writes writes_sessionsScan (by simp)).bind fun _ => ?_
    have hdel : WritesOnly [.account] (.redis (.account (cp.normalizeEmail email) .del)) :=
      writesOnly_of_some rfl (by simp)
    exact names_of_writes ((writes_redis hdel).bind fun _ => trivial) (by simp)

/-- **No operation stores a record under another name.** -/
theorem names_body (call : Call) : Names cp (cp.body call) := by
  by_cases h : call.enrolls
  · exact names_of_moves (body_conforms h)
  · cases call with
    | accountDelete email pages => exact names_accountDelete.bimap
    | allocate _ _ _ | delete _ | inviteRevoke _ _ | inviteBegin _ _ | invitePoll _
    | inviteApprove _ _ _ | inviteDeny _ _ | deviceRegister _ _ => exact absurd rfl h
    -- the others do not write machine records
    | _ => exact names_of_writes (writes_body _) (by simp [Call.writes])

theorem namedDecoded_steps : Protocol.Steps (naming cp) Cmd.exec cp.body (fun _ _ => True)
    (fun _ _ => True) fun w _ => NamedDecoded w where
  conforms _ call _ := names_body call
  start _ _ _ h := h
  step σ i ch t c k _ _ _ hok h := by
    refine ⟨?_, h.exec hok ch⟩
    by_cases hc : ∃ op, c = .redis op
    · obtain ⟨op, rfl⟩ := hc
      rcases exec_redis_cases ch op σ.world with he | he
      · rw [he]
        exact @resp_error cp op _
      · rw [he]
        exact @resp_exec cp op _ h.1
    · exact @resp_outside cp c (not_exists.mp hc) _

/-- **Every run**, of any operations in any order, keeps the names. -/
theorem namedDecoded_run (hw : NamedDecoded w) (ticks : List Tick) :
    NamedDecoded (Server.run cp ⟨w, []⟩ ticks).world :=
  (namedDecoded_steps.run_keeps (Protocol.keeps_nil hw)
    (Conf.admissible_of_forall fun _ _ => trivial)).holds

/-! ## Pieces that never panic -/

/-- No run panics, whatever fails. -/
abbrev NeverPanics (p : Edge ε α) (w : World) : Prop := p.NoPanic Cmd.exec (fun _ _ => True) w

/-- The program has no panic in it. -/
abbrev Calm (p : Edge ε α) : Prop := p.Ends fun o => ∀ m, o ≠ .panic m

theorem Calm.bind {p : Edge ε α} {f : α → Edge ε β} (hp : Calm p) (hf : ∀ a, Calm (f a)) :
    Calm (p >>= f) := Prog.Ends.bind hp (fun a _ => hf a) (fun _ _ => nofun) fun m h => absurd rfl (h m)

theorem calm_pure (a : α) : Calm (pure a : Edge ε α) := nofun

theorem calm_throw (e : ε) : Calm (Prog.throw e : Edge ε α) := nofun

theorem Calm.bimap {p : Edge ε α} {f : ε → ε'} {g : α → β} (hp : Calm p) :
    Calm (p.bimap f g) := by
  refine Prog.Ends.bimap hp fun o ho => ?_
  cases o with
  | panic m => exact absurd rfl (ho m)
  | _ => nofun

theorem calm_redis [FromRedis ε] {op : RedisOp} : Calm (redis op : Edge ε op.Resp) := by
  intro r
  cases r <;> nofun

theorem calm_issue {c : Cmd} : Calm (Prog.issue c : Edge ε c.Resp) := fun _ => nofun

theorem calm_ofExcept (x : Except ε α) : Calm (Prog.ofExcept x : Edge ε α) := by
  cases x <;> nofun

theorem calm_listFrom {names : List String} : Calm (listFrom names) := by
  induction names with
  | nil => nofun
  | cons n names ih =>
    refine Calm.bind calm_redis fun json => ?_
    cases json with
    | none => exact ih
    | some json =>
      refine (calm_ofExcept _).bind fun m => ih.bind fun ms => ?_
      nofun

theorem calm_list : Calm list := calm_redis.bind fun _ => calm_listFrom

theorem calm_readInvite {code : String} : Calm (readInvite code) := by
  refine calm_redis.bind fun json => ?_
  cases json with
  | none => nofun
  | some json => exact calm_ofExcept _

theorem calm_issueToken {code : String} {m : Machine} : Calm (cp.issueToken code m) := by
  refine Calm.bind (calm_issue.bind fun _ => nofun) fun token => ?_
  exact Calm.bind calm_redis.bimap fun _ => calm_redis

theorem calm_ensureKey {name key : String} {m : Machine} : Calm (ensureKey name key m) := by
  unfold ensureKey
  split_ifs
  · exact calm_issue.bind fun _ => nofun
  · refine calm_issue.bind fun _ => calm_issue.bind fun r => ?_
    cases r with
    | error e => nofun
    | ok u => exact calm_redis.bind fun _ => nofun

theorem calm_invitePoll {code : String} : Calm (cp.invitePoll code) := by
  refine (calm_ofExcept _).bind fun c => calm_readInvite.bind fun r => ?_
  split
  · nofun
  · nofun
  · nofun
  · refine calm_redis.bind fun payload => ?_
    cases payload with
    | none => nofun
    | some payload => exact (calm_ofExcept _).bind fun _ => nofun

theorem ok_ofExcept {good : Cmd → Choice → Prop} {x : Except ε α} {a : α}
    (h : (Prog.ofExcept x : Edge ε α).Runs Cmd.exec good w (.ok a) w') : x = .ok a ∧ w' = w := by
  cases x with
  | ok b =>
    obtain ⟨h, rfl⟩ := h
    cases h
    exact ⟨rfl, rfl⟩
  | error e => cases h.1

theorem ok_redis [FromRedis ε] {good : Cmd → Choice → Prop} {op : RedisOp} {a : op.Resp}
    (h : (redis op : Edge ε op.Resp).Runs Cmd.exec good w (.ok a) w') :
    a = (op.exec w).1 ∧ w' = (op.exec w).2 := by
  rcases runs_redis_last.mp h with ⟨-, -, -, ha, rfl⟩ | ⟨_, -, -, ha, -⟩
  · exact ⟨Outcome.ok.inj ha, rfl⟩
  · cases ha

/-- An invite that is read is stored. -/
theorem ok_readInvite {good : Cmd → Choice → Prop} {code : String} {r : InviteRecord}
    (h : (readInvite code).Runs Cmd.exec good w (.ok r) w') :
    w.invites code = some (.json r) ∧ w' = w := by
  have h := ok_of_runs_redis h
  rw [exec_invite_get] at h
  match hr : w.invites code with
  | none =>
    rw [hr] at h
    cases h.1
  | some (.corrupt text err) =>
    rw [hr] at h
    cases h.1
  | some (.json r') =>
    rw [hr] at h
    obtain ⟨⟨⟩, rfl⟩ := h
    exact ⟨rfl, rfl⟩

/-! ## The public operations -/

/-- The operations that ask for no session. -/
def Call.isPublic : Call → Bool
  | .inviteBegin _ _ | .invitePoll _ | .deviceRegister _ _ => true
  | _ => false

/-- The state in which a public operation does not panic: a begin of an approved invite with the
key it was begun with finds a machine with that key, and a device token that is not empty and
belongs to a machine meets an edge whose own key is base64. -/
def Call.Safe (cp : ControlPlane) (w : World) : Call → Prop
  | .inviteBegin code key => ∀ c r, cp.canonicalInviteCode code = some c →
      cp.validateWgPubkey key = .ok () → w.invites c = some (.json r) → r.status = .approved →
      r.devicePubkey = some key → ∃ m ∈ listed w, m.wgPublicKey = key
  | .deviceRegister token key => token ≠ "" ∧
      ∀ m, (listed w).find? (fun m => m.deviceTokenHash = some (cp.tokenHash token)) = some m →
        validateMachineName m.name = .ok () → cp.validateWgPubkey key = .ok () →
        cp.b64Decode cp.edgeWgPrivateKey ≠ none
  | _ => True

theorem neverPanics_rearmDelivery {code key : String} {r : InviteRecord}
    (hbegun : r.devicePubkey = some key) (hlisted : ∃ m ∈ listed w, m.wgPublicKey = key) :
    NeverPanics (cp.rearmDelivery code r) w := by
  rw [rearmDelivery, hbegun, Prog.expect_some, Prog.pure_bind]
  refine calm_list.noPanic.mapErr_bind fun ms w₁ hms => ?_
  obtain ⟨rfl, rfl⟩ := ok_list hms
  cases hfind : (listed w₁).find? fun m => m.wgPublicKey = key with
  | none =>
    obtain ⟨m, hm, hkey⟩ := hlisted
    simpa [hkey] using List.find?_eq_none.mp hfind m hm
  | some m => exact calm_issueToken.noPanic

theorem neverPanics_inviteBegin {code key : String} (hsafe : (Call.inviteBegin code key).Safe cp w) :
    NeverPanics (cp.inviteBegin code key) w := by
  rw [inviteBegin]
  refine (calm_ofExcept _).noPanic.bind fun c w₁ hrun => ?_
  obtain ⟨hc, rfl⟩ := ok_ofExcept hrun
  cases hkey : cp.validateWgPubkey key with
  | error e => exact (calm_throw _).noPanic
  | ok u =>
    refine calm_readInvite.noPanic.bind fun r w₂ hr => ?_
    obtain ⟨hr, rfl⟩ := ok_readInvite hr
    cases hs : r.status with
    | approved =>
      dsimp only
      split_ifs with hpub
      · refine (neverPanics_rearmDelivery hpub ?_).bind fun _ _ _ => (calm_pure _).noPanic
        exact hsafe c r (canonical_eq_ok hc) hkey hr hs hpub
      · exact (calm_throw _).noPanic
    | denied => exact (calm_throw _).noPanic
    | dormant => exact Prog.Ends.noPanic (Calm.bind calm_redis fun _ => calm_pure _)
    | waiting => exact Prog.Ends.noPanic (Calm.bind calm_redis fun _ => calm_pure _)

/-- An allocation of a name that is taken panics only for the edge's own key, and what it returns
is the machine that has the name. -/
theorem neverPanics_allocateMachine {owner : Option String} {name key : String} {m : Machine}
    (hname : w.machines name = some (.json m))
    (hedge : validateMachineName name = .ok () → cp.validateWgPubkey key = .ok () →
      cp.b64Decode cp.edgeWgPrivateKey ≠ none) {f : SignupOutcome → Edge ControlPlaneError α}
    (hf : ∀ resp, Calm (f (.existing resp))) :
    NeverPanics (cp.allocateMachine owner name key >>= f) w := by
  rw [allocateMachine, Prog.bind_assoc]
  refine (calm_ofExcept _).noPanic.bind fun _ w₁ hrun => ?_
  obtain ⟨hvalid, rfl⟩ := ok_ofExcept hrun
  rw [Prog.bind_assoc]
  refine (calm_ofExcept _).noPanic.bind fun _ w₂ hrun => ?_
  obtain ⟨hkey, rfl⟩ := ok_ofExcept hrun
  rw [Prog.bind_assoc]
  refine calm_redis.noPanic.bind fun existing w₃ hrun => ?_
  obtain ⟨rfl, rfl⟩ := ok_redis hrun
  rw [exec_machine_get, hname, Prog.bind_assoc]
  refine Prog.Ends.noPanic (Calm.bind ?_ fun edge => ?_)
  · unfold edgePublicKey
    split
    · exact absurd ‹_› (hedge hvalid hkey)
    · split_ifs
      · exact calm_pure _
      · exact calm_throw _
  · rw [Prog.bind_assoc]
    refine (calm_ofExcept _).bind fun m' => ?_
    rw [Prog.bind_assoc]
    exact calm_ensureKey.bind fun m'' => hf _

theorem neverPanics_deviceRegister (hw : Named w) {token key : String}
    (hsafe : (Call.deviceRegister token key).Safe cp w) :
    NeverPanics (cp.deviceRegister token key) w := by
  rw [deviceRegister, if_neg hsafe.1]
  refine (calm_ofExcept _).noPanic.bind fun _ w₁ hrun => ?_
  obtain ⟨hkey, rfl⟩ := ok_ofExcept hrun
  refine calm_list.noPanic.bind fun ms w₂ hrun => ?_
  obtain ⟨rfl, rfl⟩ := ok_list hrun
  cases hfind : (listed w₂).find? fun m => m.deviceTokenHash = some (cp.tokenHash token) with
  | none => exact Prog.Ends.noPanic nofun
  | some m =>
    obtain ⟨n, -, hn⟩ := List.mem_filterMap.mp (List.mem_of_find?_eq_some hfind)
    have hn := machineAt_eq_some.mp hn
    obtain rfl := hw n m hn
    exact neverPanics_allocateMachine hn (fun hvalid _ => hsafe.2 m hfind hvalid hkey) fun _ => nofun

/-- A begin of an approved invite whose machine is not listed under its key panics. -/
theorem exists_panic_inviteBegin (hdec : Decodes w) {code c key : String} {r : InviteRecord}
    (hc : cp.canonicalInviteCode code = some c) (hkey : cp.validateWgPubkey key = .ok ())
    (hr : w.invites c = some (.json r)) (hs : r.status = .approved)
    (hbegun : r.devicePubkey = some key) (hnone : ¬∃ m ∈ listed w, m.wgPublicKey = key) :
    (cp.inviteBegin code key).Runs Cmd.exec Reliable w
      (.panic "an approved invite's machine exists") w := by
  rw [inviteBegin, canonical_of_some hc, Prog.ofExcept_ok, Prog.pure_bind, hkey]
  refine Prog.runs_bind.mpr (Or.inl ⟨r, w, runs_readInvite.mpr ⟨(inviteAt_eq_ok.mpr hr).symm, rfl⟩, ?_⟩)
  rw [hs]
  dsimp only
  rw [if_pos hbegun]
  refine Prog.runs_bind.mpr (Or.inr (Or.inr ⟨_, ?_, rfl⟩))
  rw [rearmDelivery, hbegun, Prog.expect_some, Prog.pure_bind]
  refine Prog.runs_mapErr_bind.mpr (Or.inl ⟨_, _, (runs_list hdec).mpr ⟨rfl, rfl⟩, ?_⟩)
  refine runs_expect.mpr (Or.inr ⟨?_, rfl, rfl⟩)
  refine List.find?_eq_none.mpr fun m hm => ?_
  rw [decide_eq_true_eq]
  exact fun h => hnone ⟨m, hm, h⟩

/-- A registration with the token of a machine panics when the edge's own key is not base64. -/
theorem exists_panic_deviceRegister (hdec : Decodes w) {token key : String} {m : Machine}
    (htoken : token ≠ "") (hkey : cp.validateWgPubkey key = .ok ())
    (hfind : (listed w).find? (fun m => m.deviceTokenHash = some (cp.tokenHash token)) = some m)
    (hvalid : validateMachineName m.name = .ok ()) (hedge : cp.b64Decode cp.edgeWgPrivateKey = none) :
    (cp.deviceRegister token key).Runs Cmd.exec Reliable w
      (.panic "store-held edge key is base64") w := by
  have hgate : allocationGate cp m.name key = .panic "store-held edge key is base64" := by
    simp [allocationGate, hvalid, hkey, edgePublicKey, hedge, Prog.panic]
  rw [deviceRegister, if_neg htoken, hkey, Prog.ofExcept_ok, Prog.pure_bind]
  refine Prog.runs_bind.mpr (Or.inl ⟨_, _, (runs_list hdec).mpr ⟨rfl, rfl⟩, ?_⟩)
  rw [hfind]
  refine Prog.runs_bind.mpr (Or.inr (Or.inr ⟨_, ?_, rfl⟩))
  exact (runs_allocateMachine_stopped (by simp [hgate])).mpr ⟨rfl, Or.inr ⟨_, hgate, rfl⟩⟩

/-- An enrolled machine is deleted. -/
def deletion : List Tick :=
  enrollment ++ .start (.delete "kitchen") :: List.replicate 9 (.step 4 {})

/-- A public operation panics: the machine that was approved begins again after it was deleted. -/
theorem begunAfterDeletion :
    ¬∀ (cp : ControlPlane) (ticks : List Tick) (call : Call), call.isPublic →
      ∀ o w', (cp.body call).Runs Cmd.exec (fun _ _ => True)
        (Server.run cp ⟨World.empty, []⟩ ticks).world o w' → ∀ msg, o ≠ .panic msg := by
  intro h
  refine h sample deletion (.inviteBegin sampleCode keyA) rfl
    ((sample.body (.inviteBegin sampleCode keyA)).eval Cmd.exec []
      (Server.run sample ⟨World.empty, []⟩ deletion).world).1 _
    (Prog.runs_eval (fun _ => trivial) fun _ _ _ => trivial) "an approved invite's machine exists" ?_
  decide +kernel

/-- **The public operations do not panic in a safe state, and do in every other.**  Whatever has
run before, and whatever fails while the operation runs. -/
theorem never_panics_iff (ticks : List Tick) {call : Call} (hcall : call.isPublic) :
    (∀ o w', (cp.body call).Runs Cmd.exec (fun _ _ => True)
        (Server.run cp ⟨World.empty, []⟩ ticks).world o w' → ∀ msg, o ≠ .panic msg) ↔
      call.Safe cp (Server.run cp ⟨World.empty, []⟩ ticks).world := by
  have hw : NamedDecoded (Server.run cp ⟨World.empty, []⟩ ticks).world :=
    namedDecoded_run ⟨fun _ _ h => (by cases h), fun _ _ h => by cases h⟩ ticks
  generalize (Server.run cp ⟨World.empty, []⟩ ticks).world = w at hw ⊢
  have hup : ∀ {ε α : Type} {p : Edge ε α} {o : Outcome ε α} {w' : World},
      p.Runs Cmd.exec Reliable w o w' → p.Runs Cmd.exec (fun _ _ => True) w o w' :=
    fun h => h.mono fun _ _ _ => trivial
  cases call with
  | inviteBegin code key =>
    refine Prog.noPanic_bimap.trans ⟨fun h c r hc hkey hr hs hbegun => ?_, neverPanics_inviteBegin⟩
    by_contra hnone
    exact h _ _ (hup (exists_panic_inviteBegin hw.decodes hc hkey hr hs hbegun hnone)) _ rfl
  | invitePoll code =>
    exact Prog.noPanic_bimap.trans ⟨fun _ => trivial, fun _ => calm_invitePoll.noPanic⟩
  | deviceRegister token key =>
    refine Prog.noPanic_bimap.trans ⟨fun h => ?_, neverPanics_deviceRegister hw.1⟩
    by_cases htoken : token = ""
    · refine absurd rfl (h (.panic "device token is required") w ?_ _)
      rw [deviceRegister, if_pos htoken]
      exact ⟨rfl, rfl⟩
    · refine ⟨htoken, fun m hfind hvalid hkey hedge => ?_⟩
      exact h _ _ (hup (exists_panic_deviceRegister hw.decodes htoken hkey hfind hvalid hedge)) _ rfl
  | _ => cases hcall

/-- The machine that was just approved may begin again. -/
theorem never_panics_iff_rearm :
    (Call.inviteBegin sampleCode keyA).Safe sample
        (Server.run sample ⟨World.empty, []⟩ enrollment).world ∧
      ∀ o w', (sample.body (.inviteBegin sampleCode keyA)).Runs Cmd.exec (fun _ _ => True)
        (Server.run sample ⟨World.empty, []⟩ enrollment).world o w' → ∀ msg, o ≠ .panic msg := by
  have hsafe : (Call.inviteBegin sampleCode keyA).Safe sample
      (Server.run sample ⟨World.empty, []⟩ enrollment).world :=
    fun _ _ _ _ _ _ _ => by decide +kernel
  exact ⟨hsafe, (@never_panics_iff sample enrollment (.inviteBegin sampleCode keyA) rfl).mpr hsafe⟩

end ControlPlane
end Cococoir
