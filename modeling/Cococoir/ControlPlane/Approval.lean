import Cococoir.ControlPlane.InviteRuns

/-!
# Approvals that fail

An approval that returns an error has run the allocation all the same, and the allocation has
effects of its own: under a name that is taken it re-adds the peer or rotates the key before
the approval finds out that the name is taken, and a new route that cannot be bound is undone
by removing the key's peer and every listener of the address, whoever they belonged to.

* `approvalRotates`: an approval fails with `NameTaken` and another machine's key is rotated.
* `failedApproval_untouched_iff`: exactly when every failing run of an approval leaves the
  machines, the peers, the listeners and the invites as they were.

## The taken name

An approval calls the allocation core, and the core is made for three callers.  For a name that is
there it rotates the key, because that is what a re-enrollment wants, and reports that the machine
was there.  The approval takes this for an error, name taken, and it is too late: the machine of
that name has the key of the machine that waits.  Nothing else of an approval that fails touches a
stored machine.

So the condition is about the store before the approval, for a machine that waits and a name that
passes the checks: `HarmlessFailure`.  The proof goes through the ways an approval can go.
-/

namespace Cococoir
namespace ControlPlane

open Concurrency

variable {cp : ControlPlane} {w w' : World} {email code name : String}

/-- The machines, the peers, the listeners and the invites are as they were. -/
def Untouched (w w' : World) : Prop :=
  w'.machines = w.machines ∧ w'.peers = w.peers ∧ w'.forwards = w.forwards ∧
    w'.invites = w.invites

/-- Allocating `name` for `key` cannot fail after it has changed something: the name is free,
and what undoing would remove is not there, or nothing can fail; or the name belongs to a
machine with this very key whose peer is in place. -/
def HarmlessFailure (cp : ControlPlane) (w : World) (name key : String) : Prop :=
  match w.machines name with
  | none => ∀ ips, 2 ≤ nextIndex w → cp.hostStrings (nextIndex w).toNat = some ips →
      (∀ p ∈ edgeForwards, w.forwards (forwardKey (machineForward ips.1 ips.2 p)) ≠ none) ∨
        (∀ p ∈ edgeForwards, w.forwards (forwardKey (machineForward ips.1 ips.2 p)) = none) ∧
          w.peers key = none ∧ ∀ k, w.peers k ≠ some ips.2
  | some (.json m) => m.wgPublicKey = key ∧ w.peers key = some m.wgIp ∧
      ∀ k, k ≠ key → w.peers k ≠ some m.wgIp
  | some (.corrupt _ _) => True

/-! ## The peer table -/

theorem setPeer_eq_self {peers : String → Option String} {ip key : String} :
    setPeer peers ip key = peers ↔ peers key = some ip ∧ ∀ k, k ≠ key → peers k ≠ some ip := by
  constructor
  · intro h
    refine ⟨?_, fun k hk hip => ?_⟩
    · rw [← h]
      simp [setPeer]
    · have := congrFun h k
      simp [setPeer, hk, hip] at this
  · rintro ⟨hkey, hother⟩
    funext k
    unfold setPeer
    split_ifs with hk hip
    · rw [hk, hkey]
    · exact absurd hip (hother k hk)
    · rfl

theorem update_setPeer_eq_self {peers : String → Option String} {ip key : String} :
    Function.update (setPeer peers ip key) key none = peers ↔
      peers key = none ∧ ∀ k, peers k ≠ some ip := by
  constructor
  · intro h
    have hkey : peers key = none := by
      rw [← h]
      exact Function.update_self ..
    refine ⟨hkey, fun k hip => ?_⟩
    have hk : k ≠ key := by
      rintro rfl
      rw [hkey] at hip
      cases hip
    have := congrFun h k
    rw [Function.update_of_ne hk] at this
    simp [setPeer, hk, hip] at this
  · rintro ⟨hkey, hip⟩
    funext k
    by_cases hk : k = key
    · subst hk
      rw [Function.update_self, hkey]
    · rw [Function.update_of_ne hk]
      simp [setPeer, hk, hip k]

theorem unbindAll_eq_self {m : Machine} {forwards : String → Option Forward} :
    unbindAll m edgeForwards forwards = forwards ↔
      ∀ p ∈ edgeForwards, forwards (forwardKey (machineForward m.ipv6 m.wgIp p)) = none := by
  constructor
  · intro h p hp
    rw [← h]
    exact unbindAll_apply.1 ⟨p, hp, rfl⟩
  · intro h
    funext k
    by_cases hb : Bound m edgeForwards k
    · rw [unbindAll_apply.1 hb]
      obtain ⟨p, hp, rfl⟩ := hb
      exact (h p hp).symm
    · exact unbindAll_apply.2 hb

/-! ## The two effects -/

theorem rekeyed_untouched {m : Machine} {key : String} (hname : w.machines name = some (.json m)) :
    Untouched w (rekeyed name m key w) ↔ m.wgPublicKey = key ∧ w.peers key = some m.wgIp ∧
      ∀ k, k ≠ key → w.peers k ≠ some m.wgIp := by
  unfold rekeyed
  split_ifs with hkey
  · constructor
    · rintro ⟨-, hpeers, -, -⟩
      exact ⟨hkey, setPeer_eq_self.mp hpeers⟩
    · rintro ⟨-, hpeers⟩
      exact ⟨rfl, setPeer_eq_self.mpr hpeers, rfl, rfl⟩
  · constructor
    · rintro ⟨hmachines, -⟩
      have := congrFun hmachines name
      dsimp only at this
      rw [Function.update_self, hname] at this
      simp only [Option.some.injEq, Stored.json.injEq] at this
      exact absurd (congrArg Machine.wgPublicKey this).symm hkey
    · rintro ⟨h, -⟩
      exact absurd h hkey

theorem unrouted_untouched {m : Machine} (hname : w.machines m.name = none) :
    Untouched w (unrouted m w) ↔
      (∀ p ∈ edgeForwards, w.forwards (forwardKey (machineForward m.ipv6 m.wgIp p)) = none) ∧
        w.peers m.wgPublicKey = none ∧ ∀ k, w.peers k ≠ some m.wgIp := by
  have hmachines : (unrouted m w).machines = w.machines := by
    funext n
    by_cases hn : n = m.name
    · subst hn
      exact (Function.update_self ..).trans hname.symm
    · exact (Function.update_of_ne hn ..).trans (Function.update_of_ne hn ..)
  constructor
  · rintro ⟨-, hpeers, hforwards, -⟩
    exact ⟨unbindAll_eq_self.mp hforwards, update_setPeer_eq_self.mp hpeers⟩
  · rintro ⟨hforwards, hpeers⟩
    exact ⟨hmachines, update_setPeer_eq_self.mpr hpeers, unbindAll_eq_self.mpr hforwards, rfl⟩

/-! ## Failing approvals -/

/-- The default choice fails nothing. -/
theorem reliable_default (c : Cmd) : Reliable c default := by
  cases c <;> first | rfl | trivial

/-- A machine is allocated to nobody's account; an owner signs up, creates an invite, and a
machine begins it. -/
def beforeApproval : List Tick :=
  .start (.allocate none "kitchen" keyA) :: List.replicate 10 (.step 0 {}) ++
    .start (.accountSignup "owner@example.net" "correct horse") :: List.replicate 7 (.step 1 {}) ++
    .start (.inviteCreate "owner@example.net") :: List.replicate 5 (.step 2 {}) ++
    .start (.inviteBegin sampleCode keyB) :: List.replicate 2 (.step 3 {})

/-- Approving the machine under the taken name fails and rotates the other machine's key. -/
theorem approvalRotates :
    ¬∀ e w', (sample.inviteApprove "owner@example.net" sampleCode "kitchen").Runs Cmd.exec Reliable
        (Server.run sample ⟨World.empty, []⟩ beforeApproval).world (.err e) w' →
      Untouched (Server.run sample ⟨World.empty, []⟩ beforeApproval).world w' := by
  intro h
  set p := sample.inviteApprove "owner@example.net" sampleCode "kitchen"
  set w := (Server.run sample ⟨World.empty, []⟩ beforeApproval).world
  have hrun : p.Runs Cmd.exec Reliable w (p.eval Cmd.exec [] w).1 (p.eval Cmd.exec [] w).2 :=
    Prog.runs_eval reliable_default fun _ _ hch => by cases hch
  have herr : (p.eval Cmd.exec [] w).1 = .err (.nameTaken "kitchen") := by decide +kernel
  rw [herr] at hrun
  have hsame := congrFun (h _ _ hrun).1 "kitchen"
  have hdiff : (p.eval Cmd.exec [] w).2.machines "kitchen" ≠ w.machines "kitchen" := by
    decide +kernel
  exact hdiff hsame

/-- An approval that gets as far as the allocation fails as the allocation does. -/
theorem exists_failedApproval {c key : String} {r : InviteRecord} {a : AccountRecord}
    (hmay : Approvable cp w email code c r key a) :
    (∀ resp w', (cp.allocateMachine (some a.uuid) name key).Runs Cmd.exec Reliable w
        (.ok (.existing resp)) w' →
      (cp.inviteApprove email code name).Runs Cmd.exec Reliable w (.err (.nameTaken name)) w') ∧
    ∀ e w', (cp.allocateMachine (some a.uuid) name key).Runs Cmd.exec Reliable w (.err e) w' →
      (cp.inviteApprove email code name).Runs Cmd.exec Reliable w
        (.err (InviteError.ofControlPlane e)) w' := by
  refine ⟨fun resp w' h => ?_, fun e w' h => ?_⟩
  · rw [runs_inviteApprove_passed hmay, approveAllocated, Prog.runs_mapErr_bind]
    exact Or.inl ⟨.existing resp, w', h, rfl, rfl⟩
  · rw [runs_inviteApprove_passed hmay, approveAllocated, Prog.runs_mapErr_bind]
    exact Or.inr (Or.inl ⟨e, h, rfl⟩)

/-- **A failing approval touches nothing** exactly when the allocation it runs cannot fail
after it has changed something. -/
theorem failedApproval_untouched_iff :
    (∀ e w', (cp.inviteApprove email code name).Runs Cmd.exec Reliable w (.err e) w' →
      Untouched w w') ↔
    ∀ c r key a edge, Approvable cp w email code c r key a →
      allocationGate cp name key = .ok edge → HarmlessFailure cp w name key := by
  constructor
  · intro h c r key a edge hmay hgate
    obtain ⟨hexisting, herr⟩ := @exists_failedApproval _ _ _ _ name _ _ _ _ hmay
    unfold HarmlessFailure
    match hm : w.machines name with
    | none =>
      intro ips htwo hips
      by_cases hfree : ∃ p ∈ edgeForwards,
          w.forwards (forwardKey (machineForward ips.1 ips.2 p)) = none
      · right
        obtain ⟨why, hfresh⟩ := @exists_undone _ _ (some a.uuid) name key ips hm htwo hips hfree
        have htouch := h _ _ (herr _ _ (exists_fresh hgate hm hfresh))
        exact (unrouted_untouched (m := cp.freshMachine (some a.uuid) name key ips.1 ips.2) hm).mp
          htouch
      · left
        intro p hp hnone
        exact hfree ⟨p, hp, hnone⟩
    | some (.corrupt text err) => trivial
    | some (.json m) =>
      have htouch := h _ _ (hexisting _ _ (exists_existing hgate hm))
      exact (rekeyed_untouched hm).mp htouch
  · intro h e w' hrun
    have hself : Untouched w w := ⟨rfl, rfl, rfl, rfl⟩
    generalize ho : (.err e : Outcome InviteError Machine) = o at hrun
    cases runs_inviteApprove hrun with
    | stopped _ => exact hself
    | @refused c key r a e' _ hmay halloc =>
      generalize ho' : (.err e' : Outcome ControlPlaneError SignupOutcome) = o' at halloc
      cases halloc with
      | refused _ => exact hself
      | crashed _ => cases ho'
      | corrupt _ _ => exact hself
      | existing _ _ => cases ho'
      | @fresh edge o'' _ hgate hname hfresh =>
        have hharm := h c r key a edge hmay hgate
        simp only [HarmlessFailure, hname] at hharm
        cases runs_allocateFresh hname hfresh with
        | exhausted _ => exact ⟨rfl, rfl, rfl, rfl⟩
        | beyond _ _ => cases ho'
        | created _ _ => cases ho'
        | @undone ips why htwo hips hfree =>
          refine (unrouted_untouched (m := cp.freshMachine (some a.uuid) name key ips.1 ips.2)
            hname).mpr ?_
          rcases hharm ips htwo hips with hlive | hfree'
          · obtain ⟨p, hp, hnone⟩ := hfree
            exact absurd hnone (hlive p hp)
          · exact hfree'
    | crashed _ _ => cases ho
    | @taken c key r a resp _ hmay halloc =>
      generalize ho' : (.ok (.existing resp) : Outcome ControlPlaneError SignupOutcome) = o' at halloc
      cases halloc with
      | refused _ => cases ho'
      | crashed _ => cases ho'
      | corrupt _ _ => cases ho'
      | @existing edge m hgate hname =>
        have hharm := h c r key a edge hmay hgate
        simp only [HarmlessFailure, hname] at hharm
        exact (rekeyed_untouched hname).mpr hharm
      | @fresh edge o'' _ _ _ _ => cases o'' <;> cases ho'
    | approved _ _ _ => cases ho

end ControlPlane
end Cococoir
