import Cococoir.ControlPlane.Schedules

/-!
# The life of an invite

An invite is created dormant, waits once a machine has begun it, and ends approved, denied or
revoked.  Every operation on it is a `GET`, a decision, and a write that does not look again,
so an operation can write over what happened after its `GET`.

* `resurrectedInvite`: a begin that read the invite before it was denied makes it wait again.
* `invite_settles`: in every schedule in which an invite is written only while it is dormant
  or waiting, and an approval claims its machine's name only then and only once every other
  approval that holds a machine has recorded it, an invite that has ended stays as it is, the
  operations that succeeded are the ones that ended it, and one approval at most holds a
  machine.
-/

namespace Cococoir
namespace ControlPlane

open Concurrency

variable (cp : ControlPlane)

/-- The invite is stored, dormant or waiting. -/
def liveInvite : Option (Stored InviteRecord) → Bool
  | some (.json r) => r.status.live
  | _ => false

/-- Every call of the code that holds a machine has recorded the approval. -/
def noneUnrecorded (vs : List View) (code : String) : Bool :=
  vs.all fun v => cp.codeOf v.call != some code || v.claimed.isNone || v.recorded = some .approved

/-- What is asked of one command of a call on `call`'s code: it writes `code`'s invite only
while it is live, and claims a name for `code` only while it is live and no other approval of
it is between its claim and its record. -/
def lifeStep (code : String) (σ : Server) (call : Call) : Cmd → Bool
  | .redis (.invite code' (.setEx _ _)) => code' ≠ code || liveInvite (σ.world.invites code)
  | .redis (.invite code' .del) => code' ≠ code || liveInvite (σ.world.invites code)
  | .redis (.machine _ (.setNx _)) =>
    cp.codeOf call ≠ some code ||
      liveInvite (σ.world.invites code) && noneUnrecorded cp (views σ) code
  | _ => true

/-- Enrollment operations whose commands meet `lifeStep`. -/
def KeepsLife (code : String) (σ : Server) : Tick → Prop
  | .start call => call.enrolls
  | .step i _ => ∀ t ∈ σ.pool[i]?, ∀ c ∈ t.pending, lifeStep cp code σ t.call c

instance (code : String) : ∀ σ e, Decidable (KeepsLife cp code σ e)
  | _, .start call => inferInstanceAs (Decidable (call.enrolls = true))
  | σ, .step i _ => inferInstanceAs (Decidable (∀ t ∈ σ.pool[i]?, ∀ c ∈ t.pending,
      lifeStep cp code σ t.call c = true))

/-- What the calls of a code have done to its invite is still there, one of them at most ended
it with a decision, and one of them at most holds a machine. -/
structure LifeKept (code : String) (w : World) (vs : List View) : Prop where
  recorded : ∀ v ∈ vs, cp.codeOf v.call = some code → ∀ s, v.recorded = some s → s.live = false →
    ∃ r, w.invites code = some (.json r) ∧ r.status = s
  revoked : ∀ v ∈ vs, cp.codeOf v.call = some code → v.revoked → w.invites code = none
  once : ∀ (i j : ℕ) (v u : View) (s s' : InviteStatus), vs[i]? = some v → vs[j]? = some u →
    cp.codeOf v.call = some code → cp.codeOf u.call = some code → v.recorded = some s →
    u.recorded = some s' → s.live = false → s'.live = false → i = j
  alone : ∀ (i j : ℕ) (v u : View), vs[i]? = some v → vs[j]? = some u →
    cp.codeOf v.call = some code → cp.codeOf u.call = some code → v.claimed.isSome →
    u.claimed.isSome → i = j

variable {cp} {code : String}

section Keep

variable {w w' : World} {vs : List View} {i : ℕ} {v v' : View}

/-- While the invite is live nothing has ended it. -/
theorem LifeKept.not_recorded (h : LifeKept cp code w vs) (hlive : liveInvite (w.invites code))
    {u : View} (hu : u ∈ vs) (hcode : cp.codeOf u.call = some code) {s : InviteStatus}
    (hs : u.recorded = some s) : s.live := by
  by_contra hdead
  obtain ⟨r, hr, hstatus⟩ := h.recorded u hu hcode s hs (Bool.eq_false_iff.mpr hdead)
  rw [hr] at hlive
  exact hdead (hstatus ▸ hlive)

theorem LifeKept.not_revoked (h : LifeKept cp code w vs) (hlive : liveInvite (w.invites code))
    {u : View} (hu : u ∈ vs) (hcode : cp.codeOf u.call = some code) : ¬u.revoked := by
  intro hrevoked
  rw [h.revoked u hu hcode hrevoked] at hlive
  cases hlive

/-- A step that leaves the invite, of a call that is not about it or does nothing to it. -/
theorem LifeKept.frame (h : LifeKept cp code w vs) (hvi : vs[i]? = some v)
    (hinvites : w'.invites code = w.invites code) (hcall : v'.call = v.call)
    (hv : cp.codeOf v.call = some code → v'.recorded = v.recorded ∧ v'.revoked = v.revoked ∧
      (v'.claimed.isSome → v.claimed.isSome)) : LifeKept cp code w' (vs.set i v') := by
  have hget : ∀ (j : ℕ) (u' : View), (vs.set i v')[j]? = some u' →
      cp.codeOf u'.call = some code → ∃ u, vs[j]? = some u ∧ cp.codeOf u.call = some code ∧
        u'.recorded = u.recorded ∧ u'.revoked = u.revoked ∧
          (u'.claimed.isSome → u.claimed.isSome) := by
    intro j u' hj hcode
    rcases getElem?_set_cases hj with ⟨rfl, rfl⟩ | ⟨-, hj⟩
    · rw [hcall] at hcode
      exact ⟨v, hvi, hcode, hv hcode⟩
    · exact ⟨u', hj, hcode, rfl, rfl, id⟩
  refine ⟨?_, ?_, ?_, ?_⟩
  · intro u' hu hcode s hs hdead
    obtain ⟨j, hj⟩ := List.getElem?_of_mem hu
    obtain ⟨u, hu, hcode, hrec, -⟩ := hget j u' hj hcode
    rw [hinvites]
    exact h.recorded u (List.mem_of_getElem? hu) hcode s (hrec ▸ hs) hdead
  · intro u' hu hcode hr
    obtain ⟨j, hj⟩ := List.getElem?_of_mem hu
    obtain ⟨u, hu, hcode, -, hrev, -⟩ := hget j u' hj hcode
    rw [hinvites]
    exact h.revoked u (List.mem_of_getElem? hu) hcode (hrev ▸ hr)
  · intro j j' u u' s s' hj hj' hcode hcode' hs hs' hdead hdead'
    obtain ⟨x, hx, hxc, hxr, -⟩ := hget j u hj hcode
    obtain ⟨y, hy, hyc, hyr, -⟩ := hget j' u' hj' hcode'
    exact h.once j j' x y s s' hx hy hxc hyc (hxr ▸ hs) (hyr ▸ hs') hdead hdead'
  · intro j j' u u' hj hj' hcode hcode' hu hu'
    obtain ⟨x, hx, hxc, -, -, hxm⟩ := hget j u hj hcode
    obtain ⟨y, hy, hyc, -, -, hym⟩ := hget j' u' hj' hcode'
    exact h.alone j j' x y hx hy hxc hyc (hxm hu) (hym hu')

/-- Writing the invite while it is live. -/
theorem LifeKept.write (h : LifeKept cp code w vs) (hvi : vs[i]? = some v)
    (hlive : liveInvite (w.invites code)) (hcall : v'.call = v.call)
    (hclaimed : v'.claimed = v.claimed)
    (hrecorded : ∀ s, v'.recorded = some s → s.live = false →
      ∃ r, w'.invites code = some (.json r) ∧ r.status = s)
    (hrevoked : v'.revoked → w'.invites code = none) : LifeKept cp code w' (vs.set i v') := by
  have hone : ∀ (j : ℕ) (u : View) (s : InviteStatus), (vs.set i v')[j]? = some u →
      cp.codeOf u.call = some code → u.recorded = some s → s.live = false → j = i := by
    intro j u s hj hcode hs hdead
    rcases getElem?_set_cases hj with ⟨rfl, -⟩ | ⟨-, hj⟩
    · rfl
    · have := h.not_recorded hlive (List.mem_of_getElem? hj) hcode hs
      rw [hdead] at this
      cases this
  refine ⟨?_, ?_, ?_, ?_⟩
  · intro u hu hcode s hs hdead
    rcases List.mem_or_eq_of_mem_set hu with hu | rfl
    · have := h.not_recorded hlive hu hcode hs
      rw [hdead] at this
      cases this
    · exact hrecorded s hs hdead
  · intro u hu hcode hr
    rcases List.mem_or_eq_of_mem_set hu with hu | rfl
    · exact absurd hr (h.not_revoked hlive hu hcode)
    · exact hrevoked hr
  · intro j j' u u' s s' hj hj' hcode hcode' hs hs' hdead hdead'
    rw [hone j u s hj hcode hs hdead, hone j' u' s' hj' hcode' hs' hdead']
  · intro j j' u u' hj hj' hcode hcode' hu hu'
    have hget : ∀ (k : ℕ) (x : View), (vs.set i v')[k]? = some x → ∃ y, vs[k]? = some y ∧
        x.call = y.call ∧ x.claimed = y.claimed := by
      intro k x hk
      rcases getElem?_set_cases hk with ⟨rfl, rfl⟩ | ⟨-, hk⟩
      · exact ⟨v, hvi, hcall, hclaimed⟩
      · exact ⟨x, hk, rfl, rfl⟩
    obtain ⟨x, hx, hxc, hxm⟩ := hget j u hj
    obtain ⟨y, hy, hyc, hym⟩ := hget j' u' hj'
    exact h.alone j j' x y hx hy (hxc ▸ hcode) (hyc ▸ hcode') (hxm ▸ hu) (hym ▸ hu')

/-- Claiming a name while the invite is live and no approval is to be recorded. -/
theorem LifeKept.claim (h : LifeKept cp code w vs) (hvi : vs[i]? = some v)
    (hlive : liveInvite (w.invites code)) (hnone : noneUnrecorded cp vs code)
    (hinvites : w'.invites = w.invites) (hcall : v'.call = v.call)
    (hv : v'.recorded = v.recorded ∧ v'.revoked = v.revoked) :
    LifeKept cp code w' (vs.set i v') := by
  have hfree : ∀ u ∈ vs, cp.codeOf u.call = some code → u.claimed.isNone := by
    intro u hu hcode
    have hall := List.all_eq_true.mp hnone u hu
    cases hclaimed : u.claimed with
    | none => rfl
    | some m =>
      have hrec : u.recorded = some .approved := by simpa [hcode, hclaimed] using hall
      have := h.not_recorded hlive hu hcode hrec
      cases this
  have hframe : LifeKept cp code w' (vs.set i { v' with claimed := none }) :=
    h.frame hvi (congrFun hinvites code) hcall fun _ => ⟨hv.1, hv.2, fun hc => by cases hc⟩
  have hone : ∀ (j : ℕ) (u : View), (vs.set i v')[j]? = some u → cp.codeOf u.call = some code →
      u.claimed.isSome → j = i := by
    intro j u hj hcode hu
    rcases getElem?_set_cases hj with ⟨rfl, -⟩ | ⟨-, hj⟩
    · rfl
    · have := hfree u (List.mem_of_getElem? hj) hcode
      rw [Option.isNone_iff_eq_none.mp this] at hu
      cases hu
  have hset : ∀ (j : ℕ) (u : View), (vs.set i v')[j]? = some u →
      ∃ x, (vs.set i { v' with claimed := none })[j]? = some x ∧ u.call = x.call ∧
        u.recorded = x.recorded ∧ u.revoked = x.revoked := by
    intro j u hj
    rcases getElem?_set_cases hj with ⟨rfl, rfl⟩ | ⟨hne, hj⟩
    · refine ⟨{ u with claimed := none }, ?_, rfl, rfl, rfl⟩
      exact List.getElem?_set_self (List.getElem?_eq_some_iff.mp hvi).1
    · exact ⟨u, by rw [List.getElem?_set_ne (Ne.symm hne)]; exact hj, rfl, rfl, rfl⟩
  refine ⟨?_, ?_, ?_, ?_⟩
  · intro u hu hcode s hs hdead
    obtain ⟨j, hj⟩ := List.getElem?_of_mem hu
    obtain ⟨x, hx, hxc, hxr, -⟩ := hset j u hj
    exact hframe.recorded x (List.mem_of_getElem? hx) (hxc ▸ hcode) s (hxr ▸ hs) hdead
  · intro u hu hcode hr
    obtain ⟨j, hj⟩ := List.getElem?_of_mem hu
    obtain ⟨x, hx, hxc, -, hxr⟩ := hset j u hj
    exact hframe.revoked x (List.mem_of_getElem? hx) (hxc ▸ hcode) (hxr ▸ hr)
  · intro j j' u u' s s' hj hj' hcode hcode' hs hs' hdead hdead'
    obtain ⟨x, hx, hxc, hxr, -⟩ := hset j u hj
    obtain ⟨y, hy, hyc, hyr, -⟩ := hset j' u' hj'
    exact hframe.once j j' x y s s' hx hy (hxc ▸ hcode) (hyc ▸ hcode') (hxr ▸ hs) (hyr ▸ hs')
      hdead hdead'
  · intro j j' u u' hj hj' hcode hcode' hu hu'
    rw [hone j u hj hcode hu, hone j' u' hj' hcode' hu']

end Keep

/-! ## Every admitted step -/

/-- Commands on neither machines nor invites leave what the call did to either. -/
theorem next_decided (v : View) {op : RedisOp} (hmachine : ∀ n o, op ≠ .machine n o)
    (hinvite : ∀ c o, op ≠ .invite c o) (a : op.Resp) :
    ((v.next (.redis op) (.ok a)).recorded = v.recorded ∧
      (v.next (.redis op) (.ok a)).revoked = v.revoked) ∧
      (v.next (.redis op) (.ok a)).claimed = v.claimed := by
  cases op with
  | machine n o => exact absurd rfl (hmachine n o)
  | invite c o => exact absurd rfl (hinvite c o)
  | index o => cases o <;> exact ⟨⟨rfl, rfl⟩, rfl⟩
  | alloc o => cases o <;> exact ⟨⟨rfl, rfl⟩, rfl⟩
  | delivery code o =>
    cases o with
    | getDel =>
      match a with
      | none => exact ⟨⟨rfl, rfl⟩, rfl⟩
      | some (.json r) => exact ⟨⟨rfl, rfl⟩, rfl⟩
      | some (.corrupt _ _) => exact ⟨⟨rfl, rfl⟩, rfl⟩
    | setEx x ttl => cases x <;> exact ⟨⟨rfl, rfl⟩, rfl⟩
    | _ => exact ⟨⟨rfl, rfl⟩, rfl⟩
  | _ => exact ⟨⟨rfl, rfl⟩, rfl⟩

/-- The condition on the command that a call issues next. -/
theorem KeepsLife.lifeStep {σ : Server} {i : ℕ} {ch : Choice} {t : Handler} {c : Cmd}
    (h : KeepsLife cp code σ (.step i ch)) (hi : σ.pool[i]? = some t) (ht : t.pending = some c) :
    lifeStep cp code σ t.call c := h t hi c ht

theorem liveInvite_of_ne {code' : String} {b : Bool} (h : (code' ≠ code || b) = true)
    (hcode : code' = code) : b := by
  simpa [hcode] using h

/-- **Every admitted step keeps the account of the invite.** -/
theorem lifeKept_checks : Checks cp (KeepsLife cp code) (LifeKept cp code) where
  enrolls _ _ h := h
  start σ call _ h := by
    have hold : ∀ (j : ℕ) (u : View), (views σ ++ [View.init call])[j]? = some u →
        (views σ)[j]? = some u ∨ u = View.init call := fun j u hj =>
      (getElem?_concat_cases hj).imp_right And.right
    refine ⟨fun u hu hcode s hs hdead => ?_, fun u hu hcode hr => ?_, ?_, ?_⟩
    · rcases List.mem_append.mp hu with hu | hu
      · exact h.recorded u hu hcode s hs hdead
      · rw [List.mem_singleton.mp hu] at hs
        cases hs
    · rcases List.mem_append.mp hu with hu | hu
      · exact h.revoked u hu hcode hr
      · rw [List.mem_singleton.mp hu] at hr
        cases hr
    · intro j j' u u' s s' hj hj' hcode hcode' hs hs' hdead hdead'
      rcases hold j u hj with hj | rfl <;> rcases hold j' u' hj' with hj' | rfl
      · exact h.once j j' u u' s s' hj hj' hcode hcode' hs hs' hdead hdead'
      · cases hs'
      · cases hs
      · cases hs
    · intro j j' u u' hj hj' hcode hcode' hu hu'
      rcases hold j u hj with hj | rfl <;> rcases hold j' u' hj' with hj' | rfl
      · exact h.alone j j' u u' hj hj' hcode hcode' hu hu'
      · cases hu'
      · cases hu
      · cases hu
  outside token _ hstore hvi h :=
    h.frame hvi (by rw [hstore.invites]) rfl fun _ => ⟨rfl, rfl, id⟩
  redis σ i ch t op hallowed _ hi hpend hmove _ h := by
    have hvi : (views σ)[i]? = some (view t) := Protocol.getElem?_states (P := moves cp) hi
    have hmem : view t ∈ views σ := List.mem_of_getElem? hvi
    have hstep : lifeStep cp code σ t.call (.redis op) := hallowed.lifeStep hi hpend
    -- a call about another code does not matter, and neither does another record
    have helsewhere : cp.codeOf t.call ≠ some code →
        (op.exec σ.world).2.invites code = σ.world.invites code →
        LifeKept cp code (op.exec σ.world).2
          ((views σ).set i ((view t).next (.redis op) (.ok (op.exec σ.world).1))) :=
      fun hne hinvites => h.frame hvi hinvites (next_call _ _ _) fun hc =>
        absurd (view_call t ▸ hc) hne
    have hother : (∀ n o, op ≠ .machine n o) → (∀ c o, op ≠ .invite c o) →
        LifeKept cp code (op.exec σ.world).2
          ((views σ).set i ((view t).next (.redis op) (.ok (op.exec σ.world).1))) := by
      intro hmachine hinvite
      obtain ⟨⟨hrec, hrev⟩, hclaimed⟩ :=
        next_decided (view t) hmachine hinvite (op.exec σ.world).1
      refine h.frame hvi ?_ (next_call _ _ _) fun _ => ⟨hrec, hrev, fun hc => hclaimed ▸ hc⟩
      cases op <;> first | rfl | exact absurd rfl (hinvite _ _)
    cases hmove with
    | outside h => exact absurd rfl (h op)
    | @readMachine n =>
      refine h.frame hvi rfl (next_call _ _ _) fun _ => ?_
      cases ((RedisOp.machine n .get).exec σ.world).1 with
      | none => exact ⟨rfl, rfl, id⟩
      | some x => cases x <;> exact ⟨rfl, rfl, id⟩
    | @claim z m hhost htwo hips _ _ =>
      cases hset : ((RedisOp.machine m.name (.setNx (.json m))).exec σ.world).1 with
      | false => exact h.frame hvi rfl rfl fun _ => ⟨rfl, rfl, id⟩
      | true =>
        by_cases hcode : cp.codeOf t.call = some code
        · obtain ⟨hlive, hnone⟩ : liveInvite (σ.world.invites code) ∧
              noneUnrecorded cp (views σ) code := by
            simpa [ControlPlane.lifeStep, hcode] using hstep
          exact h.claim hvi hlive hnone rfl rfl ⟨rfl, rfl⟩
        · exact hset ▸ helsewhere hcode rfl
    | rotate _ _ => exact h.frame hvi rfl rfl fun _ => ⟨rfl, rfl, id⟩
    | attach _ _ _ => exact h.frame hvi rfl rfl fun _ => ⟨rfl, rfl, id⟩
    | drop _ => exact h.frame hvi rfl rfl fun _ => ⟨rfl, rfl, fun hc => by cases hc⟩
    | @readInvite code' _ _ =>
      rw [exec_invite_get]
      refine h.frame hvi rfl (next_call _ _ _) fun _ => ?_
      cases σ.world.invites code' with
      | none => exact ⟨rfl, rfl, id⟩
      | some x => cases x <;> exact ⟨rfl, rfl, id⟩
    | @begun code' ttl key r hcode _ _ =>
      by_cases hc : code' = code
      · subst hc
        have hlive := liveInvite_of_ne hstep rfl
        have hnot := h.not_revoked hlive hmem hcode
        refine h.write hvi hlive rfl rfl (fun s hs hdead => ?_) fun hr => absurd hr hnot
        cases hs
        cases hdead
      · exact helsewhere (by rw [← view_call t, hcode]; simpa using hc)
          (Function.update_of_ne (Ne.symm hc) _ _)
    | @decide code' ttl r status hcode _ _ _ =>
      by_cases hc : code' = code
      · subst hc
        have hlive := liveInvite_of_ne hstep rfl
        have hnot := h.not_revoked hlive hmem hcode
        refine h.write hvi hlive rfl rfl (fun s hs _ => ?_) fun hr => absurd hr hnot
        cases hs
        exact ⟨_, Function.update_self .., rfl⟩
      · exact helsewhere (by rw [← view_call t, hcode]; simpa using hc)
          (Function.update_of_ne (Ne.symm hc) _ _)
    | @revoke code' r hcode _ _ =>
      by_cases hc : code' = code
      · subst hc
        have hlive := liveInvite_of_ne hstep rfl
        refine h.write hvi hlive rfl rfl (fun s hs hdead => ?_)
          fun _ => by simp [RedisOp.exec]
        rw [h.not_recorded hlive hmem hcode hs] at hdead
        cases hdead
      · exact helsewhere (by rw [← view_call t, hcode]; simpa using hc)
          (Function.update_of_ne (Ne.symm hc) _ _)
    | _ => exact hother (by simp) (by simp)

/-- An invite that has ended stays as it is. -/
theorem ended_checks {cell : Option (Stored InviteRecord)} (hcell : liveInvite cell = false) :
    Checks cp (KeepsLife cp code) (fun w _ => w.invites code = cell) where
  enrolls _ _ h := h
  start _ _ _ h := h
  outside token _ hstore _ h := (congrFun hstore.invites code).trans h
  redis σ i ch t op hallowed _ hi hpend hmove _ h := by
    have hstep : lifeStep cp code σ t.call (.redis op) := hallowed.lifeStep hi hpend
    have hne : ∀ code', (code' ≠ code || liveInvite (σ.world.invites code)) = true →
        code ≠ code' := by
      rintro code' hlive rfl
      rw [h, hcell] at hlive
      simp at hlive
    cases hmove with
    | outside h => exact absurd rfl (h op)
    | readInvite _ _ =>
      rw [exec_invite_get]
      exact h
    | begun _ _ _ => exact (Function.update_of_ne (hne _ hstep) _ _).trans h
    | decide _ _ _ _ => exact (Function.update_of_ne (hne _ hstep) _ _).trans h
    | revoke _ _ _ => exact (Function.update_of_ne (hne _ hstep) _ _).trans h
    | _ => exact h

/-! ## The life of an invite in reachable states -/

/-- What a call that succeeded has made of the invite. -/
def Ended (call : Call) (cell : Option (Stored InviteRecord)) : Prop :=
  match call with
  | .inviteApprove _ _ _ => ∃ r, cell = some (.json r) ∧ r.status = .approved
  | .inviteDeny _ _ => ∃ r, cell = some (.json r) ∧ r.status = .denied
  | .inviteRevoke _ _ => cell = none
  | _ => True

/-- An invite is created and begun; a second begin reads it; the owner denies it. -/
def deniedMeanwhile : List Tick :=
  .start (.inviteCreate "owner@example.net") :: List.replicate 5 (.step 0 {}) ++
    .start (.inviteBegin sampleCode keyA) :: List.replicate 2 (.step 1 {}) ++
    [.start (.inviteBegin sampleCode keyB), .step 2 {}] ++
    .start (.inviteDeny "owner@example.net" sampleCode) :: List.replicate 2 (.step 3 {})

/-- The denied invite waits again once the second begin writes. -/
theorem resurrectedInvite :
    (Server.run sample ⟨World.empty, []⟩ deniedMeanwhile).world.invites sampleCode =
        some (.json ⟨"owner@example.net", .denied, some keyA⟩) ∧
      (Server.run sample ⟨World.empty, []⟩ (deniedMeanwhile ++ [.step 2 {}])).world.invites
          sampleCode = some (.json ⟨"owner@example.net", .waiting, some keyB⟩) := by
  decide +kernel

/-- **An invite that has ended stays as it is**, in every schedule whose commands meet
`lifeStep`; the operations that succeeded have ended it; one approval at most holds a machine,
and one at most has succeeded. -/
theorem invite_settles {w : World} (hw : Named w) {ticks : List Tick}
    (hadm : Server.Admissible cp (KeepsLife cp code) ⟨w, []⟩ ticks) :
    (∀ later, Server.Admissible cp (KeepsLife cp code) (Server.run cp ⟨w, []⟩ ticks) later →
      liveInvite ((Server.run cp ⟨w, []⟩ ticks).world.invites code) = false →
      (Server.run cp ⟨w, []⟩ (ticks ++ later)).world.invites code =
        (Server.run cp ⟨w, []⟩ ticks).world.invites code) ∧
    (∀ t ∈ (Server.run cp ⟨w, []⟩ ticks).pool, cp.codeOf t.call = some code →
      ∀ reply, t.result = some (.ok reply) →
        Ended t.call ((Server.run cp ⟨w, []⟩ ticks).world.invites code)) ∧
    (∀ (i j : ℕ) (t u : Handler), (Server.run cp ⟨w, []⟩ ticks).pool[i]? = some t →
      (Server.run cp ⟨w, []⟩ ticks).pool[j]? = some u → cp.codeOf t.call = some code →
      cp.codeOf u.call = some code → (view t).claimed.isSome → (view u).claimed.isSome → i = j) ∧
    ∀ (i j : ℕ) (t u : Handler) (email email' text text' name name' : String) (m m' : Machine),
      (Server.run cp ⟨w, []⟩ ticks).pool[i]? = some t →
      (Server.run cp ⟨w, []⟩ ticks).pool[j]? = some u →
      t.call = .inviteApprove email text name → u.call = .inviteApprove email' text' name' →
      cp.codeOf t.call = some code → cp.codeOf u.call = some code →
      t.result = some (.ok (.machine m)) → u.result = some (.ok (.machine m')) → i = j := by
  have hinit : LifeKept cp code w [] := by
    refine ⟨?_, ?_, ?_, ?_⟩
    · intro v hv
      cases hv
    · intro v hv
      cases hv
    · intro i j v u s s' hi
      cases hi
    · intro i j v u hi
      cases hi
  have hkeeps := lifeKept_checks.run hw hinit hadm
  have hviews : ∀ {i : ℕ} {t : Handler}, (Server.run cp ⟨w, []⟩ ticks).pool[i]? = some t →
      (views (Server.run cp ⟨w, []⟩ ticks))[i]? = some (view t) :=
    fun hi => Protocol.getElem?_states (P := moves cp) hi
  have hlife := hkeeps.holds.2
  refine ⟨fun later hlater hdead => ?_, fun t ht hcode reply hreply => ?_,
    fun i j t u hi hj hc hc' => ?_, ?_⟩
  · rw [Server.run, Conf.run_append]
    exact ((ended_checks hdead).steps.run_keeps ⟨hkeeps.conforms, hkeeps.holds.1, rfl⟩
      hlater).holds.2
  · have hsettled := hkeeps.fin_of_result ht hreply
    change Settled (view t) (.ok reply) at hsettled
    have hcode' : cp.codeOf (view t).call = some code := (view_call t).symm ▸ hcode
    unfold Settled at hsettled
    rw [view_call] at hsettled
    unfold Ended
    cases hcall : t.call with
    | inviteApprove email text name =>
      rw [hcall] at hsettled
      exact hlife.recorded (view t) (mem_views ht) hcode' _ hsettled rfl
    | inviteDeny email text =>
      rw [hcall] at hsettled
      exact hlife.recorded (view t) (mem_views ht) hcode' _ hsettled rfl
    | inviteRevoke email text =>
      rw [hcall] at hsettled
      exact hlife.revoked (view t) (mem_views ht) hcode' hsettled
    | _ => trivial
  · exact hlife.alone i j (view t) (view u) (hviews hi) (hviews hj)
      ((view_call t).symm ▸ hc) ((view_call u).symm ▸ hc')
  · intro i j t u email email' text text' name name' m m' hi hj ht hu hc hc' hm hm'
    have hs := hkeeps.fin_of_result (List.mem_of_getElem? hi) hm
    have hs' := hkeeps.fin_of_result (List.mem_of_getElem? hj) hm'
    change Settled (view t) _ at hs
    change Settled (view u) _ at hs'
    unfold Settled at hs hs'
    rw [view_call, ht] at hs
    rw [view_call, hu] at hs'
    exact hlife.once i j (view t) (view u) _ _ (hviews hi) (hviews hj)
      ((view_call t).symm ▸ hc) ((view_call u).symm ▸ hc') hs hs' rfl rfl

/-- The same denial with a begin that came late. -/
theorem invite_settles_denied :
    let denied : List Tick :=
      .start (.inviteDeny "owner@example.net" sampleCode) :: List.replicate 2 (.step 0 {})
    let later : List Tick := [.start (.inviteBegin sampleCode keyB), .step 1 {}]
    (Server.run sample ⟨waitingWorld, []⟩ (denied ++ later)).world.invites sampleCode =
      (Server.run sample ⟨waitingWorld, []⟩ denied).world.invites sampleCode :=
  (invite_settles (fun _ _ h => by cases h) (by decide +kernel)).1 _ (by decide +kernel)
    (by decide +kernel)

end ControlPlane
end Cococoir
