import Cococoir.ControlPlane.Peers

/-!
# Rotating a machine's key

A rotation takes the old peer out, puts the new one in and overwrites the record, in this order,
and only the first failure is forgiven.  When the new peer is refused the old one is gone already;
when the record cannot be overwritten the interface has the new key and the store the old one.

Which of the commands that change something fail is a parameter; a read may fail at any time.

* `runs_rotate`: how a rotation goes, by what fails.
* `halfRotated`: the record is not overwritten, and the store and the interface disagree.
* `rotation_atomic_iff`: exactly when every rotation, by the operator or by the device, leaves
  both with the new key or, with an error, both with the old one.

## Exactly when

There are three commands that change something, and each may fail: eight patterns, and in a few of
them the store and the interface part.  `Failing` makes the pattern a parameter, a predicate on
commands, and the run lemma says how a rotation goes for each.  An error of the first command, the
removal of the old peer, is ignored, which leaves an old peer next to the new one.  `Rotates`
collects what must hold: the old peer is there, the interface refuses both commands or neither,
and if the new peer is in, the record can be overwritten.

The device's way goes through the list to find its machine by the token, and is then the
operator's.  A read may fail at any time and changes nothing.
-/

namespace Cococoir
namespace ControlPlane

open Concurrency

variable {cp : ControlPlane} {w w' : World} {name key edge : String} {m : Machine}
  {fails : Cmd → Bool}

/-! ## What fails -/

/-- The commands of a rotation that only read. -/
def IsRead : Cmd → Prop
  | .redis (.machine _ .get) => True
  | .redis (.index .lrange) => True
  | _ => False

/-- A command fails exactly when it is said to; a read may fail or not. -/
def Failing (fails : Cmd → Bool) (c : Cmd) (ch : Choice) : Prop := IsRead c ∨ ch.fails = fails c

/-- The peers after the old one's removal, which may fail. -/
def unpeered (fails : Cmd → Bool) (m : Machine) (w : World) : String → Option String :=
  if fails (.removePeer m.wgPublicKey) then w.peers
  else Function.update w.peers m.wgPublicKey none

/-- The command that overwrites the record. -/
abbrev overwrite (name key : String) (m : Machine) : Cmd :=
  .redis (.machine name (.set (.json (m.withKey key))))

section Peers

variable {ε α : Type} {o : Outcome ε α}

theorem runs_removePeer_failing {p : Edge ε α} :
    (removePeer m.wgPublicKey >>= fun _ => p).Runs Cmd.exec (Failing fails) w o w' ↔
      p.Runs Cmd.exec (Failing fails) { w with peers := unpeered fails m w } o w' := by
  unfold unpeered
  constructor
  · rintro ⟨ch, hch | hch, h⟩
    · exact hch.elim
    · rw [Cmd.exec, hch] at h
      split_ifs at h ⊢ <;> exact h
  · intro h
    refine ⟨{ fails := fails (.removePeer m.wgPublicKey) }, Or.inr rfl, ?_⟩
    rw [Cmd.exec]
    dsimp only
    split_ifs at h ⊢ <;> exact h

theorem runs_addPeer_failing {ip : String} {f : Except WgError Unit → Edge ε α} :
    (addPeer ip key >>= f).Runs Cmd.exec (Failing fails) w o w' ↔
      (fails (.addPeer ip key) = true ∧ ∃ e, (f (.error e)).Runs Cmd.exec (Failing fails) w o w') ∨
      (fails (.addPeer ip key) = false ∧
        (f (.ok ())).Runs Cmd.exec (Failing fails) { w with peers := setPeer w.peers ip key } o w') := by
  constructor
  · rintro ⟨ch, hch | hch, h⟩
    · exact hch.elim
    · rw [Cmd.exec, hch] at h
      cases hfails : fails (.addPeer ip key) with
      | true =>
        rw [hfails] at h
        exact Or.inl ⟨rfl, _, h⟩
      | false =>
        rw [hfails] at h
        exact Or.inr ⟨rfl, h⟩
  · rintro (⟨hfails, e, h⟩ | ⟨hfails, h⟩)
    · exact ⟨{ fails := true, wgError := e }, Or.inr hfails.symm, h⟩
    · exact ⟨{ fails := false }, Or.inr hfails.symm, h⟩

end Peers

/-- **A rotation**, by what fails of it. -/
theorem runs_rotate (hkey : m.wgPublicKey ≠ key) {o : Outcome ControlPlaneError Machine} :
    (ensureKey name key m).Runs Cmd.exec (Failing fails) w o w' ↔
      (fails (.addPeer m.wgIp key) = true ∧ (∃ e, o = .err (.wg e)) ∧
        w' = { w with peers := unpeered fails m w }) ∨
      (fails (.addPeer m.wgIp key) = false ∧ fails (overwrite name key m) = true ∧
        (∃ text, o = .err (.redis (.server text))) ∧
        w' = { w with peers := setPeer (unpeered fails m w) m.wgIp key }) ∨
      (fails (.addPeer m.wgIp key) = false ∧ fails (overwrite name key m) = false ∧
        o = .ok (m.withKey key) ∧
        w' = { w with
          peers := setPeer (unpeered fails m w) m.wgIp key
          machines := Function.update w.machines name (some (.json (m.withKey key))) }) := by
  rw [ensureKey, if_neg hkey, runs_removePeer_failing, runs_addPeer_failing]
  refine or_congr ?_ ?_
  · refine and_congr_right fun _ => ⟨?_, ?_⟩
    · rintro ⟨e, rfl, rfl⟩
      exact ⟨⟨e, rfl⟩, rfl⟩
    · rintro ⟨⟨e, rfl⟩, rfl⟩
      exact ⟨e, rfl, rfl⟩
  · dsimp only
    rw [runs_redis]
    constructor
    · rintro ⟨hadd, ⟨ch, hch | hch, hfails, rfl, rfl⟩ | ⟨ch, hch | hch, hfails, rfl, rfl⟩⟩
      · exact hch.elim
      · exact Or.inr ⟨hadd, hch.symm.trans hfails, rfl, by simp [RedisOp.exec]⟩
      · exact hch.elim
      · exact Or.inl ⟨hadd, hch.symm.trans hfails, ⟨_, rfl⟩, rfl⟩
    · rintro (⟨hadd, hset, ⟨text, rfl⟩, rfl⟩ | ⟨hadd, hset, rfl, rfl⟩)
      · exact ⟨hadd, Or.inr ⟨{ fails := true, text := text }, Or.inr hset.symm, rfl, rfl, rfl⟩⟩
      · exact ⟨hadd, Or.inl ⟨{ fails := false }, Or.inr hset.symm, rfl, rfl, by simp [RedisOp.exec]⟩⟩

/-! ## The two ways to rotate -/

/-- The store and the interface agree after the operation: on the new key when it succeeded, on the
old one when it returned an error.  A peer that only lost its address to another is still an entry
of the interface, so the old key has none only when its removal did not fail. -/
def Agrees {ε α : Type} (fails : Cmd → Bool) (name key : String) (m : Machine) :
    Outcome ε α → World → Prop
  | .ok _, w' => w'.machines name = some (.json (m.withKey key)) ∧ w'.peers key = some m.wgIp ∧
      w'.peers m.wgPublicKey = none ∧ fails (.removePeer m.wgPublicKey) = false
  | .err _, w' => w'.machines name = some (.json m) ∧ w'.peers m.wgPublicKey = some m.wgIp
  | .panic _, _ => False

/-- What a rotation depends on: the old peer is there, and either the interface refuses both
changes or nothing fails. -/
def Rotates (fails : Cmd → Bool) (w : World) (name key : String) (m : Machine) : Prop :=
  w.peers m.wgPublicKey = some m.wgIp ∧
    if fails (.addPeer m.wgIp key) then fails (.removePeer m.wgPublicKey) = true
    else fails (.removePeer m.wgPublicKey) = false ∧ fails (overwrite name key m) = false

/-- The device token is that of the listed machine, and the list can be read. -/
def Identifies (cp : ControlPlane) (w : World) (token : String) (m : Machine) : Prop :=
  token ≠ "" ∧ Decodes w ∧
    (listed w).find? (·.deviceTokenHash = some (cp.tokenHash token)) = some m

/-- An allocation of a name that is taken fails to read it, or goes as the rotation does. -/
theorem runs_allocate_rotate {owner : Option String} (hgate : allocationGate cp name key = .ok edge)
    (hname : w.machines name = some (.json m)) {o : Outcome ControlPlaneError SignupOutcome} :
    (cp.allocateMachine owner name key).Runs Cmd.exec (Failing fails) w o w' ↔
      ((∃ text, o = .err (.redis (.server text))) ∧ w' = w) ∨
      ∃ o', (ensureKey name key m).Runs Cmd.exec (Failing fails) w o' w' ∧
        o = o'.bimap id fun m => .existing ⟨m, edge⟩ := by
  rw [allocateMachine_passed hgate, runs_redis, exec_machine_get, hname]
  dsimp only
  rw [machineFromJson, Prog.ofExcept_ok, Prog.pure_bind, or_comm]
  refine or_congr ⟨?_, ?_⟩ ⟨?_, ?_⟩
  · rintro ⟨ch, -, -, rfl, rfl⟩
    exact ⟨⟨_, rfl⟩, rfl⟩
  · rintro ⟨⟨text, rfl⟩, rfl⟩
    exact ⟨{ fails := true, text := text }, Or.inl trivial, rfl, rfl, rfl⟩
  · rintro ⟨-, -, -, h⟩
    rcases Prog.runs_bind.mp h with ⟨m', _, hrun, rfl, rfl⟩ | ⟨e, hrun, rfl⟩ | ⟨msg, hrun, rfl⟩
    · exact ⟨_, hrun, rfl⟩
    · exact ⟨_, hrun, rfl⟩
    · exact ⟨_, hrun, rfl⟩
  · rintro ⟨o', hrun, rfl⟩
    refine ⟨{}, Or.inl trivial, rfl, Prog.runs_bind.mpr ?_⟩
    cases o' with
    | ok m' => exact Or.inl ⟨m', w', hrun, rfl, rfl⟩
    | err e => exact Or.inr (Or.inl ⟨e, hrun, rfl⟩)
    | panic msg => exact Or.inr (Or.inr ⟨msg, hrun, rfl⟩)

section Agreement

variable {o : Outcome ControlPlaneError Machine}

theorem setPeer_unpeered_ne (hkey : m.wgPublicKey ≠ key) :
    setPeer (unpeered fails m w) m.wgIp key m.wgPublicKey ≠ some m.wgIp := by
  rw [setPeer, if_neg hkey]
  split_ifs with hip
  · exact (Option.some_ne_none _).symm
  · exact hip

/-- A rotation whose dependencies hold leaves the store and the interface in agreement. -/
theorem Rotates.agrees (h : Rotates fails w name key m) (hkey : m.wgPublicKey ≠ key)
    (hname : w.machines name = some (.json m))
    (hrun : (ensureKey name key m).Runs Cmd.exec (Failing fails) w o w') :
    Agrees fails name key m o w' := by
  obtain ⟨hpeer, hsteps⟩ := h
  rcases (runs_rotate hkey).mp hrun with ⟨hadd, ⟨e, rfl⟩, rfl⟩ | ⟨hadd, hset, -, -⟩ |
    ⟨hadd, -, rfl, rfl⟩
  · rw [if_pos hadd] at hsteps
    refine ⟨hname, ?_⟩
    change unpeered fails m w m.wgPublicKey = _
    rw [unpeered, if_pos hsteps]
    exact hpeer
  · rw [hadd, if_neg Bool.false_ne_true, hset] at hsteps
    cases hsteps.2
  · rw [hadd, if_neg Bool.false_ne_true] at hsteps
    refine ⟨Function.update_self .., if_pos rfl, ?_, hsteps.1⟩
    change setPeer (unpeered fails m w) m.wgIp key m.wgPublicKey = none
    rw [setPeer, if_neg hkey, unpeered, hsteps.1, if_neg Bool.false_ne_true, Function.update_self,
      ite_self]

/-- A rotation that never leaves them apart has its dependencies. -/
theorem rotates_of_agrees (hkey : m.wgPublicKey ≠ key)
    (hpeer : w.peers m.wgPublicKey = some m.wgIp)
    (h : ∀ o w', (ensureKey name key m).Runs Cmd.exec (Failing fails) w o w' →
      Agrees fails name key m o w') :
    Rotates fails w name key m := by
  refine ⟨hpeer, ?_⟩
  split_ifs with hadd
  · have hold := (h (.err (.wg (.io ""))) _
      ((runs_rotate hkey).mpr (Or.inl ⟨hadd, ⟨_, rfl⟩, rfl⟩))).2
    by_contra hremove
    change unpeered fails m w m.wgPublicKey = _ at hold
    rw [unpeered, if_neg hremove, Function.update_self] at hold
    cases hold
  · have hadd := Bool.eq_false_of_not_eq_true hadd
    cases hset : fails (overwrite name key m) with
    | false =>
      have hnew := h (.ok (m.withKey key)) _
        ((runs_rotate hkey).mpr (Or.inr (Or.inr ⟨hadd, hset, rfl, rfl⟩)))
      exact ⟨hnew.2.2.2, rfl⟩
    | true =>
      have hold := (h (.err (.redis (.server ""))) _
        ((runs_rotate hkey).mpr (Or.inr (Or.inl ⟨hadd, hset, ⟨_, rfl⟩, rfl⟩)))).2
      exact absurd hold (setPeer_unpeered_ne hkey)

end Agreement

/-- The operator's rotation. -/
theorem allocate_agrees_iff {owner : Option String} (hgate : allocationGate cp name key = .ok edge)
    (hname : w.machines name = some (.json m)) (hkey : m.wgPublicKey ≠ key) :
    (∀ o w', (cp.allocateMachine owner name key).Runs Cmd.exec (Failing fails) w o w' →
      Agrees fails name key m o w') ↔ Rotates fails w name key m := by
  constructor
  · intro h
    have hread := h _ _ ((runs_allocate_rotate hgate hname).mpr (Or.inl ⟨⟨"", rfl⟩, rfl⟩))
    refine rotates_of_agrees hkey hread.2 fun o' w' hrun => ?_
    have := h _ _ ((runs_allocate_rotate hgate hname).mpr (Or.inr ⟨o', hrun, rfl⟩))
    cases o' <;> exact this
  · intro h o w' hrun
    rcases (runs_allocate_rotate hgate hname).mp hrun with ⟨⟨text, rfl⟩, rfl⟩ | ⟨o', hkeyed, rfl⟩
    · exact ⟨hname, h.1⟩
    · have := h.agrees hkey hname hkeyed
      cases o' <;> exact this

/-! ## Finding the device's machine -/

theorem isRead_list : list.All IsRead := by
  refine ⟨trivial, fun r => ?_⟩
  cases r with
  | error e => trivial
  | ok names =>
    change (listFrom names).All IsRead
    induction names with
    | nil => trivial
    | cons n names ih =>
      refine ⟨trivial, fun r => ?_⟩
      match r with
      | .error e => trivial
      | .ok none => exact ih
      | .ok (some json) => exact (Prog.all_ofExcept _).bind fun _ => ih.bind fun _ => trivial

/-- A read leaves the world. -/
theorem exec_isRead {c : Cmd} (h : IsRead c) (ch : Choice) (w : World) : (Cmd.exec ch c w).2 = w := by
  unfold IsRead at h
  split at h
  · cases hf : ch.fails <;> simp [Cmd.exec, hf, exec_machine_get]
  · cases hf : ch.fails <;> simp [Cmd.exec, hf, exec_index_lrange]
  · exact h.elim

theorem ends_list : list.Ends fun o => ∀ msg, o ≠ .panic msg := by
  intro r
  cases r with
  | error e => exact nofun
  | ok names =>
    change (listFrom names).Ends _
    induction names with
    | nil => exact nofun
    | cons n names ih =>
      intro r
      match r with
      | .error e => exact nofun
      | .ok none => exact ih
      | .ok (some json) =>
        cases json with
        | corrupt text err => exact nofun
        | json machine =>
          exact ih.bind (fun _ _ => nofun) (fun _ _ => nofun) fun msg h => absurd rfl (h msg)

/-- Listing, when the reads may fail: the list or an error, in the same world. -/
theorem runs_list_failing {o : Outcome ControlPlaneError (List Machine)}
    (h : list.Runs Cmd.exec (Failing fails) w o w') :
    (o = .ok (listed w) ∨ ∃ e, o = .err e) ∧ w' = w := by
  refine ⟨?_, isRead_list.runs_frame (fun w w' => w' = w) (fun _ => rfl)
    (fun h h' => h'.trans h) (fun c ch w hc => exec_isRead hc ch w) h⟩
  cases o with
  | ok ms => exact Or.inl (congrArg _ (ok_list h).2)
  | err e => exact Or.inr ⟨e, rfl⟩
  | panic msg => exact absurd rfl (ends_list.runs h msg)

/-- A registration of a device finds no list, or goes as the allocation for its machine. -/
theorem runs_deviceRegister_failing {token : String} (hkey : cp.validateWgPubkey key = .ok ())
    (hid : Identifies cp w token m) {o : Outcome ControlPlaneError Machine} :
    (cp.deviceRegister token key).Runs Cmd.exec (Failing fails) w o w' ↔
      (∃ e, list.Runs Cmd.exec (Failing fails) w (.err e) w' ∧ o = .err e) ∨
      ∃ o', (cp.allocateMachine m.owner m.name key).Runs Cmd.exec (Failing fails) w o' w' ∧
        o = registered o' := by
  obtain ⟨htoken, hdec, hfind⟩ := hid
  rw [deviceRegister, if_neg htoken, hkey, Prog.ofExcept_ok, Prog.pure_bind, Prog.runs_bind]
  constructor
  · rintro (⟨ms, w₁, hlist, hrest⟩ | ⟨e, hlist, rfl⟩ | ⟨msg, hlist, -⟩)
    · obtain ⟨hms | ⟨_, hms⟩, rfl⟩ := runs_list_failing hlist
      · cases hms
        rw [hfind] at hrest
        dsimp only at hrest
        rcases Prog.runs_bind.mp hrest with ⟨outcome, w₂, halloc, hend⟩ | ⟨e, halloc, rfl⟩ |
          ⟨msg, halloc, rfl⟩
        · cases outcome with
          | created resp =>
            obtain ⟨rfl, rfl⟩ := hend
            exact Or.inr ⟨_, halloc, rfl⟩
          | existing resp =>
            obtain ⟨rfl, rfl⟩ := hend
            exact Or.inr ⟨_, halloc, rfl⟩
        · exact Or.inr ⟨_, halloc, rfl⟩
        · exact Or.inr ⟨_, halloc, rfl⟩
      · cases hms
    · exact Or.inl ⟨e, hlist, rfl⟩
    · exact absurd rfl (ends_list.runs hlist msg)
  · rintro (⟨e, hlist, rfl⟩ | ⟨o', halloc, rfl⟩)
    · exact Or.inr (Or.inl ⟨e, hlist, rfl⟩)
    · have hlist : list.Runs Cmd.exec (Failing fails) w (.ok (listed w)) w :=
        isRead_list.runs_mono (fun _ _ hc _ => Or.inl hc) ((runs_list hdec).mpr ⟨rfl, rfl⟩)
      refine Or.inl ⟨_, w, hlist, ?_⟩
      rw [hfind]
      refine Prog.runs_bind.mpr ?_
      match o' with
      | .ok (.created resp) => exact Or.inl ⟨_, w', halloc, rfl, rfl⟩
      | .ok (.existing resp) => exact Or.inl ⟨_, w', halloc, rfl, rfl⟩
      | .err e => exact Or.inr (Or.inl ⟨e, halloc, rfl⟩)
      | .panic msg => exact Or.inr (Or.inr ⟨msg, halloc, rfl⟩)

/-- The device's rotation. -/
theorem deviceRegister_agrees_iff {token : String} (hgate : allocationGate cp m.name key = .ok edge)
    (hname : w.machines m.name = some (.json m)) (hkey : m.wgPublicKey ≠ key)
    (hid : Identifies cp w token m) :
    (∀ o w', (cp.deviceRegister token key).Runs Cmd.exec (Failing fails) w o w' →
      Agrees fails m.name key m o w') ↔ Rotates fails w m.name key m := by
  have hvalid := (passes_of_allocationGate hgate).2.1
  constructor
  · intro h
    refine (@allocate_agrees_iff _ _ _ _ _ _ _ m.owner hgate hname hkey).mp fun o w' hrun => ?_
    have hagrees := h _ _ ((runs_deviceRegister_failing hvalid hid).mpr (Or.inr ⟨o, hrun, rfl⟩))
    match o with
    | .ok (.created _) => exact hagrees.elim
    | .ok (.existing _) => exact hagrees
    | .err _ => exact hagrees
    | .panic _ => exact hagrees
  · intro h o w' hrun
    rcases (runs_deviceRegister_failing hvalid hid).mp hrun with ⟨e, hlist, rfl⟩ | ⟨o', halloc, rfl⟩
    · obtain ⟨-, rfl⟩ := runs_list_failing hlist
      exact ⟨hname, h.1⟩
    · have hagrees := (allocate_agrees_iff hgate hname hkey).mpr h _ _ halloc
      rcases (runs_allocate_rotate hgate hname).mp halloc with ⟨⟨_, rfl⟩, -⟩ | ⟨o'', -, rfl⟩
      · exact hagrees
      · cases o'' <;> exact hagrees

/-! ## Rotation -/

/-- The first machine, enrolled with the device token of the sample. -/
def kitchen : Machine := ⟨"kitchen", none, "kitchen.example.net", "2a01:4f8:c17:1::2", "10.10.0.2",
  keyA, some (sample.tokenHash "0000000000000000000000000000000000000000000000000000000000000000")⟩

/-- The first machine has its device token. -/
def enrolled : World :=
  { oneMachine with machines := Function.update oneMachine.machines "kitchen" (some (.json kitchen)) }

theorem gate_kitchenB : allocationGate sample kitchen.name keyB =
    .ok "pHykwiutZie7fHPVs3FibMYr2PeSITyO28EqVgsc+WM=" := by decide

theorem kitchen_enrolled : enrolled.machines kitchen.name = some (.json kitchen) := by
  change Function.update oneMachine.machines "kitchen" (some (.json kitchen)) "kitchen" = _
  exact Function.update_self ..

theorem kitchen_wired : enrolled.peers kitchen.wgPublicKey = some kitchen.wgIp := by decide

theorem identifies_kitchen : Identifies sample enrolled
    "0000000000000000000000000000000000000000000000000000000000000000" kitchen := by
  have hindex : enrolled.index = ["kitchen"] := by decide
  refine ⟨by decide, ?_, ?_⟩
  · intro n hn text err h
    rw [hindex, List.mem_singleton] at hn
    subst hn
    cases kitchen_enrolled.symm.trans h
  · have hlisted : listed enrolled = [kitchen] := by
      rw [listed, hindex]
      exact List.filterMap_cons_some (machineAt_eq_some.mpr kitchen_enrolled)
    rw [hlisted]
    exact List.find?_cons_of_pos (by decide)

/-- Only the writes to a machine's record fail. -/
def setFails : Cmd → Bool
  | .redis (.machine _ (.set _)) => true
  | _ => false

/-- The record of the only machine is not overwritten: the rotation fails, and the old key has no
peer any more. -/
theorem halfRotated : ¬∀ o w', (sample.allocateMachine none kitchen.name keyB).Runs Cmd.exec
    (Failing setFails) enrolled o w' → Agrees setFails kitchen.name keyB kitchen o w' := by
  intro h
  have hrotates := (allocate_agrees_iff gate_kitchenB kitchen_enrolled (by decide)).mp h
  cases hrotates.2.2

/-- **A rotation is atomic**, by the operator or by the device, exactly when the old peer is there
and either the interface refuses both changes or nothing fails. -/
theorem rotation_atomic_iff (hgate : allocationGate cp m.name key = .ok edge)
    (hname : w.machines m.name = some (.json m)) (hkey : m.wgPublicKey ≠ key) :
    (∀ owner, (∀ o w', (cp.allocateMachine owner m.name key).Runs Cmd.exec (Failing fails) w o w' →
      Agrees fails m.name key m o w') ↔ Rotates fails w m.name key m) ∧
    ∀ token, Identifies cp w token m →
      ((∀ o w', (cp.deviceRegister token key).Runs Cmd.exec (Failing fails) w o w' →
        Agrees fails m.name key m o w') ↔ Rotates fails w m.name key m) :=
  ⟨fun _ => allocate_agrees_iff hgate hname hkey,
    fun _ hid => deviceRegister_agrees_iff hgate hname hkey hid⟩

/-- Nothing fails, and both ways to rotate the only machine's key are atomic. -/
theorem rotation_atomic_kitchen :
    (∀ o w', (sample.allocateMachine none kitchen.name keyB).Runs Cmd.exec (Failing fun _ => false)
      enrolled o w' → Agrees (fun _ => false) kitchen.name keyB kitchen o w') ∧
    ∀ o w', (sample.deviceRegister
      "0000000000000000000000000000000000000000000000000000000000000000" keyB).Runs Cmd.exec
      (Failing fun _ => false) enrolled o w' →
        Agrees (fun _ => false) kitchen.name keyB kitchen o w' := by
  have hrotates : Rotates (fun _ => false) enrolled kitchen.name keyB kitchen :=
    ⟨kitchen_wired, rfl, rfl⟩
  obtain ⟨hoperator, hdevice⟩ := @rotation_atomic_iff sample enrolled keyB _ kitchen
    (fun _ => false) gate_kitchenB kitchen_enrolled (by decide)
  exact ⟨(hoperator none).mpr hrotates, (hdevice _ identifies_kitchen).mpr hrotates⟩

end ControlPlane
end Cococoir
