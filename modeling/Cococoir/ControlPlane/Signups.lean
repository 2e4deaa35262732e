import Cococoir.ControlPlane.AccountRaces

/-!
# Signups that overlap

A signup looks whether the email is free, and stores its record much later without looking
again; when its mail is not sent it removes whatever record is there by then.

* `deletedBySignup`: a signup that fails removes the account of another that succeeded.
* `signup_unique`: in every schedule of signups and verifications in which a record is stored
  only under a free email, a verification stores the record that is there as active, and a
  signup takes back its record only while nobody has verified it, one signup at most succeeds,
  the account is its own, and a signup that fails touches no account but its own.

## Rolling back

A signup looks whether its email has an account, and if not stores its own with `SET`; two signups
that overlap both find nothing, and the later one overwrites the earlier.  It then mails the link,
and if the mail is not sent it deletes the record, for a pending account without a link would
block its email.  It deletes by the key, and does not look whose record is there by then.

`signupStep` is about these two commands: a record is stored under a free email only, and removed
only while it is not active.  Under it one signup of an email at most succeeds, the account is
that signup's, and no step of another signup changes it.
-/

namespace Cococoir
namespace ControlPlane

open Concurrency

variable (cp : ControlPlane)

/-- The account is stored and active. -/
def isActive : Option (Stored AccountRecord) → Bool
  | some (.json a) => a.status = .active
  | _ => false

/-- What is asked of one command of a call: a signup stores its record under a free email and
removes one only while it is not active; a verification changes the record that is there. -/
def signupStep (email : String) (w : World) (call : Call) : Cmd → Bool
  | .redis (.account e (.set (.json a))) =>
    e ≠ email || if call.signsUp then (w.accounts email).isNone
      else call.verifies && keepsFields call a (w.accounts email)
  | .redis (.account e .del) => e ≠ email || call.signsUp && !isActive (w.accounts email)
  | _ => true

/-- Signups and verifications whose commands meet `signupStep`. -/
def KeepsSignup (email : String) (σ : Server) : Tick → Prop
  | .start call => call.signsUp || call.verifies
  | .step i _ => ∀ t ∈ σ.pool[i]?, ∀ c ∈ t.pending, signupStep email σ.world t.call c

instance (email : String) : ∀ σ e, Decidable (KeepsSignup email σ e)
  | _, .start call => inferInstanceAs (Decidable ((call.signsUp || call.verifies) = true))
  | σ, .step i _ => inferInstanceAs (Decidable (∀ t ∈ σ.pool[i]?, ∀ c ∈ t.pending,
      signupStep email σ.world t.call c = true))

/-- The signup of the email that succeeded, if any, is one, and the account is its own. -/
structure SignedUpOnce (email : String) (σ : Server) : Prop where
  unique : ∀ (i j : ℕ) (t u : Handler), σ.pool[i]? = some t → σ.pool[j]? = some u →
    t.call.signsUp → u.call.signsUp → (accountView cp t).email = some email →
    (accountView cp u).email = some email → Succeeded t → Succeeded u → i = j
  own : ∀ t ∈ σ.pool, t.call.signsUp → (accountView cp t).email = some email → Succeeded t →
    ∃ a b, IsSignup cp t.call a ∧ σ.world.accounts email = some (.json b) ∧ b.uuid = a.uuid ∧
      b.passwordHash = a.passwordHash

/-- The call holds the account: it stored the record and has not taken it back. -/
def AccountView.Holds (v : AccountView) (email : String) (a : AccountRecord) : Prop :=
  v.call.signsUp = true ∧ v.email = some email ∧ v.written = some a ∧ v.removed = false

/-- The account is that of the one call that holds it. -/
structure SignupKept (email : String) (w : World) (vs : List AccountView) : Prop where
  own : ∀ v ∈ vs, ∀ a, v.Holds email a → IsSignup cp v.call a ∧
    ∃ s, w.accounts email = some (.json { a with status := s })
  alone : ∀ (i j : ℕ) (v u : AccountView) (a b : AccountRecord), vs[i]? = some v →
    vs[j]? = some u → v.Holds email a → u.Holds email b → i = j

variable {cp} {email : String} {w w' : World} {vs : List AccountView} {i : ℕ}
variable {v v' : AccountView}

/-- A step after which the changed call holds nothing it did not hold. -/
theorem SignupKept.frame (h : SignupKept cp email w vs) (hvi : vs[i]? = some v)
    (hcall : v'.call = v.call)
    (hv : ∀ a, v'.Holds email a → v.Holds email a)
    (haccounts : ∀ a s, w.accounts email = some (.json { a with status := s }) →
      (∃ u ∈ vs.set i v', u.Holds email a) →
      ∃ s', w'.accounts email = some (.json { a with status := s' })) :
    SignupKept cp email w' (vs.set i v') := by
  have hget : ∀ (j : ℕ) (u : AccountView) (a : AccountRecord), (vs.set i v')[j]? = some u →
      u.Holds email a → ∃ u', vs[j]? = some u' ∧ u'.Holds email a ∧ u'.call = u.call := by
    intro j u a hj hu
    rcases getElem?_set_cases hj with ⟨rfl, rfl⟩ | ⟨-, hj⟩
    · exact ⟨v, hvi, hv a hu, hcall.symm⟩
    · exact ⟨u, hj, hu, rfl⟩
  refine ⟨fun u hu a ha => ?_, fun j k u x a b hj hk ha hb => ?_⟩
  · obtain ⟨j, hj⟩ := List.getElem?_of_mem hu
    obtain ⟨u', hu', ha', hc⟩ := hget j u a hj ha
    obtain ⟨hsignup, s, hs⟩ := h.own u' (List.mem_of_getElem? hu') a ha'
    exact ⟨hc ▸ hsignup, haccounts a s hs ⟨u, hu, ha⟩⟩
  · obtain ⟨u', hu', ha', -⟩ := hget j u a hj ha
    obtain ⟨x', hx', hb', -⟩ := hget k x b hk hb
    exact h.alone j k u' x' a b hu' hx' ha' hb'

/-- Under a free email nobody holds the account. -/
theorem SignupKept.free (h : SignupKept cp email w vs) (hfree : w.accounts email = none)
    {u : AccountView} (hu : u ∈ vs) {a : AccountRecord} (ha : u.Holds email a) : False := by
  obtain ⟨-, s, hs⟩ := h.own u hu a ha
  rw [hfree] at hs
  cases hs

/-- A signup stores its record under a free email. -/
theorem SignupKept.create (h : SignupKept cp email w vs)
    (hfree : w.accounts email = none) {a : AccountRecord} (hsignup : IsSignup cp v.call a) :
    SignupKept cp email
      { w with accounts := Function.update w.accounts email (some (.json a)) }
      (vs.set i { v with written := some a }) := by
  have honly : ∀ (j : ℕ) (u : AccountView) (b : AccountRecord),
      (vs.set i { v with written := some a })[j]? = some u → u.Holds email b →
      j = i ∧ u = { v with written := some a } := by
    intro j u b hj hb
    rcases getElem?_set_cases hj with hji | ⟨-, hj⟩
    · exact hji
    · exact (h.free hfree (List.mem_of_getElem? hj) hb).elim
  refine ⟨fun u hu b hb => ?_, fun j k u x b b' hj hk hb hb' => ?_⟩
  · obtain ⟨j, hj⟩ := List.getElem?_of_mem hu
    obtain ⟨-, rfl⟩ := honly j u b hj hb
    obtain rfl : a = b := Option.some.inj hb.2.2.1
    exact ⟨hsignup, a.status, Function.update_self ..⟩
  · rw [(honly j u b hj hb).1, (honly k x b' hk hb').1]

/-- The condition on the command that a call issues next. -/
theorem KeepsSignup.signupStep {σ : Server} {ch : Choice} {t : Handler} {c : Cmd}
    (h : KeepsSignup email σ (.step i ch)) (hi : σ.pool[i]? = some t)
    (hpend : t.pending = some c) : signupStep email σ.world t.call c = true :=
  h t hi c hpend

theorem signupKept_checks : AccountChecks cp (KeepsSignup email) (SignupKept cp email) where
  settles σ call h := by
    cases call <;> first | rfl | cases h
  start σ call hcall h := by
    have hnew : ∀ a, (AccountView.init cp call).Holds email a → False := fun a ha => by
      cases ha.2.2.1
    refine ⟨fun u hu a ha => ?_, fun j k u x a b hj hk ha hb => ?_⟩
    · rcases List.mem_append.mp hu with hu | hu
      · exact h.own u hu a ha
      · rw [List.mem_singleton.mp hu] at ha
        exact (hnew a ha).elim
    · rcases getElem?_concat_cases hj with hj | ⟨-, rfl⟩
      · rcases getElem?_concat_cases hk with hk | ⟨-, rfl⟩
        · exact h.alone j k u x a b hj hk ha hb
        · exact (hnew b hb).elim
      · exact (hnew a ha).elim
  frame haccounts h := by
    refine ⟨fun u hu a ha => ?_, h.alone⟩
    rw [haccounts]
    exact h.own u hu a ha
  consume email' hvi hcall hnew h := by
    refine h.frame hvi rfl (fun a ha => ?_) fun a s hs _ => ⟨s, hs⟩
    have hw : _ = some a := ha.2.2.1
    dsimp only at hw
    rw [hnew] at hw
    cases hw
  write σ i ch t email' a hallowed hi hpend hmove h := by
    have hvi := @getElem?_accountViews cp _ _ _ hi
    have hstep := hallowed.signupStep hi hpend
    rw [ControlPlane.signupStep, Bool.or_eq_true, decide_eq_true_eq] at hstep
    have hemail : (accountView cp t).email = some email' := by
      cases hmove with
      | outside _ h _ => exact absurd rfl h
      | create _ h _ _ => exact h
      | activate _ h _ _ => exact h
      | replace _ h _ => exact h
    by_cases he : email' = email
    · subst he
      have hstep := hstep.resolve_left (by simp)
      rw [← @accountView_call cp t] at hstep
      by_cases hsigns : (accountView cp t).call.signsUp = true
      · rw [if_pos hsigns, Option.isNone_iff_eq_none] at hstep
        refine h.create hstep ?_
        cases hmove with
        | outside _ h _ => exact absurd rfl h
        | create hsignup _ _ _ => exact hsignup
        | activate hv _ _ _ =>
          rw [((kinds _).1 hv).2.2] at hsigns
          cases hsigns
        | replace hreset _ _ =>
          rw [((kinds _).2.1 (resets_of_isReset hreset)).2] at hsigns
          cases hsigns
      · rw [if_neg hsigns, Bool.and_eq_true] at hstep
        refine h.frame hvi rfl (fun b hb => absurd hb.1 hsigns) fun b s hs _ => ?_
        obtain ⟨hv, hkeeps⟩ := hstep
        rw [hs] at hkeeps
        change (if _ then _ else _) = true at hkeeps
        rw [if_pos hv, decide_eq_true_eq] at hkeeps
        exact ⟨.active, by rw [hkeeps]; exact Function.update_self ..⟩
    · refine h.frame hvi rfl (fun b hb => ?_) fun b s hs _ =>
        ⟨s, (Function.update_of_ne (Ne.symm he) _ _).trans hs⟩
      have hb : (accountView cp t).email = some email := hb.2.1
      rw [hemail] at hb
      exact absurd (Option.some.inj hb) he
  drop σ i ch t email' hallowed hi hpend hmove h := by
    have hvi := @getElem?_accountViews cp _ _ _ hi
    have hstep := hallowed.signupStep hi hpend
    rw [ControlPlane.signupStep, Bool.or_eq_true, decide_eq_true_eq] at hstep
    have hnot : ∀ b, ({ accountView cp t with removed := true } : AccountView).Holds email b →
        (accountView cp t).Holds email b := fun b hb => by cases hb.2.2.2
    by_cases he : email' = email
    · subst he
      have hstep := hstep.resolve_left (by simp)
      rw [Bool.and_eq_true, ← @accountView_call cp t] at hstep
      cases hmove with
      | outside _ h _ => exact absurd rfl h
      | undo hsigns hemail hwritten hkept =>
        -- the call that takes its record back was the only one that held the account
        refine h.frame hvi rfl hnot fun b s hs ⟨u, hu, hb⟩ => ?_
        obtain ⟨j, hj⟩ := List.getElem?_of_mem hu
        rcases getElem?_set_cases hj with ⟨-, rfl⟩ | ⟨hji, hj⟩
        · cases hb.2.2.2
        · exact absurd (h.alone j i u _ b _ hj hvi hb ⟨hsigns, hemail, hwritten, hkept⟩) hji
      | drop hd _ _ =>
        rw [(kinds _).2.2 hstep.1] at hd
        cases hd
    · exact h.frame hvi rfl hnot fun b s hs _ =>
        ⟨s, (Function.update_of_ne (Ne.symm he) _ _).trans hs⟩

/-! ## Signups in reachable states -/

/-- Two signups find the email free; the first succeeds; the mail of the second is not sent. -/
def bothFree : List Tick :=
  [.start (.accountSignup "owner@example.net" "correct horse"),
    .start (.accountSignup "Owner@example.net" "battery staple"), .step 0 {}, .step 1 {}] ++
    List.replicate 6 (.step 0 {}) ++ List.replicate 5 (.step 1 {}) ++
    [.step 1 { fails := true }, .step 1 {}]

/-- The failed signup has removed the account of the one that succeeded. -/
theorem deletedBySignup :
    ¬SignedUpOnce sample "owner@example.net" (Server.run sample ⟨World.empty, []⟩ bothFree) := by
  intro h
  obtain ⟨t, ht, hcall, hemail, hok⟩ : ∃ t ∈ (Server.run sample ⟨World.empty, []⟩ bothFree).pool,
      t.call.signsUp = true ∧ (accountView sample t).email = some "owner@example.net" ∧
        Succeeded t = true := by decide +kernel
  obtain ⟨_, _, -, hstored, -⟩ := h.own t ht hcall hemail hok
  have hgone : (Server.run sample ⟨World.empty, []⟩ bothFree).world.accounts
      "owner@example.net" = none := by decide +kernel
  rw [hgone] at hstored
  cases hstored

/-- An account that is held and that nobody has activated is exactly the record of its signup. -/
theorem SignupKept.exact (h : SignupKept cp email w vs) {u : AccountView} (hu : u ∈ vs)
    {a : AccountRecord} (ha : u.Holds email a) (hidle : isActive (w.accounts email) = false) :
    w.accounts email = some (.json a) := by
  obtain ⟨⟨_, _, _, _, -, -, -, hpending⟩, s, hs⟩ := h.own u hu a ha
  rw [hs] at hidle
  cases s with
  | active => cases hidle
  | pending =>
    rw [← hpending] at hs
    exact hs

/-- A step of a signup changes an account only if it is free or exactly its own record. -/
theorem signup_step {σ : Server} {i : ℕ} {ch : Choice} {t : Handler}
    (hσ : Protocol.Keeps (accountMoves cp) AccountSettled (SignupKept cp email) σ)
    (hallowed : KeepsSignup email σ (.step i ch)) (hi : σ.pool[i]? = some t)
    (hcall : t.call.signsUp = true) :
    (Conf.next Cmd.exec cp.body σ (.step i ch)).world.accounts email = σ.world.accounts email ∨
      σ.world.accounts email = none ∨
      ∃ a, (accountView cp t).written = some a ∧ σ.world.accounts email = some (.json a) := by
  have hkept := hσ.holds
  change SignupKept cp email _ (accountViews cp σ) at hkept
  cases ht : t.prog with
  | done o =>
    left
    simp only [Conf.next, hi, ht]
  | cmd c k =>
    have hmove : AccountMove cp (accountView cp t) c := by
      have hc := hσ.conforms t (List.mem_of_getElem? hi)
      rw [ht] at hc
      exact hc.1
    have hstep := hallowed.signupStep hi (c := c) (by rw [Thread.pending, ht])
    rw [Conf.next_step hi ht]
    dsimp only
    -- a command on another account, or on none, leaves this one
    have hother : ∀ e op, c = .redis (.account e op) → e ≠ email →
        (Cmd.exec ch c σ.world).2.accounts email = σ.world.accounts email := by
      rintro e op rfl he
      rcases exec_redis_cases ch (.account e op) σ.world with h | h <;> rw [h]
      exact Function.update_of_ne (Ne.symm he) _ _
    have hleft : c.writes ≠ some .account →
        (Cmd.exec ch c σ.world).2.accounts email = σ.world.accounts email :=
      fun h => congrFun (exec_of_writes h ch σ.world) email
    rw [← @accountView_call cp t] at hcall
    cases hmove with
    | outside _ hwrites _ => exact Or.inl (hleft hwrites)
    | consumeVerify _ _ _ => exact Or.inl (hleft (by simp [Cmd.writes, RedisOp.writes, reads]))
    | consumeReset _ _ _ => exact Or.inl (hleft (by simp [Cmd.writes, RedisOp.writes, reads]))
    | @create e a _ _ _ _ =>
      by_cases he : e = email
      · subst he
        rw [ControlPlane.signupStep, ← @accountView_call cp t, if_pos hcall] at hstep
        exact Or.inr (Or.inl (by simpa using hstep))
      · exact Or.inl (hother _ _ rfl he)
    | @undo e a hsigns hemail hwritten hkeeps =>
      by_cases he : e = email
      · subst he
        rw [ControlPlane.signupStep, ← @accountView_call cp t, hcall] at hstep
        exact Or.inr (Or.inr ⟨a, hwritten, hkept.exact (mem_accountViews (List.mem_of_getElem? hi))
          ⟨hsigns, hemail, hwritten, hkeeps⟩ (by simpa using hstep)⟩)
      · exact Or.inl (hother _ _ rfl he)
    | activate hv _ _ _ =>
      rw [((kinds _).1 hv).2.2] at hcall
      cases hcall
    | replace hreset _ _ =>
      rw [((kinds _).2.1 (resets_of_isReset hreset)).2] at hcall
      cases hcall
    | drop hd _ _ =>
      rw [(kinds _).2.2 hcall] at hd
      cases hd

/-- **Signups of one email exclude each other**, in every schedule of signups and verifications
whose commands meet `signupStep`: one at most succeeds, the account is its own, and no step of a
signup changes an account that is not exactly the one that this signup has stored. -/
theorem signup_unique {ticks : List Tick}
    (hadm : Server.Admissible cp (KeepsSignup email) ⟨w, []⟩ ticks) :
    SignedUpOnce cp email (Server.run cp ⟨w, []⟩ ticks) ∧
    ∀ before i ch after t, ticks = before ++ .step i ch :: after →
      (Server.run cp ⟨w, []⟩ before).pool[i]? = some t → t.call.signsUp →
      (Server.run cp ⟨w, []⟩ (before ++ [.step i ch])).world.accounts email =
          (Server.run cp ⟨w, []⟩ before).world.accounts email ∨
        (Server.run cp ⟨w, []⟩ before).world.accounts email = none ∨
        ∃ a, (accountView cp t).written = some a ∧
          (Server.run cp ⟨w, []⟩ before).world.accounts email = some (.json a) := by
  have hinit : SignupKept cp email w [] :=
    ⟨fun _ hv => absurd hv List.not_mem_nil, fun _ _ _ _ _ _ hi => by simp at hi⟩
  refine ⟨?_, ?_⟩
  · have hkeeps := signupKept_checks.run hinit hadm
    have hkept := hkeeps.holds
    change SignupKept cp email _ (accountViews cp (Server.run cp ⟨w, []⟩ ticks)) at hkept
    have hholds : ∀ t ∈ (Server.run cp ⟨w, []⟩ ticks).pool, t.call.signsUp →
        (accountView cp t).email = some email → Succeeded t →
        ∃ a, (accountView cp t).Holds email a := by
      intro t ht hcall hemail hok
      obtain ⟨_, -, -, hwritten, hremoved⟩ := settled_of_succeeded hkeeps ht hok
      rw [accountView_call] at hwritten hremoved
      obtain ⟨a, ha⟩ := Option.isSome_iff_exists.mp (hwritten ((kinds _).2.2 hcall))
      exact ⟨a, (accountView_call t).symm ▸ hcall, hemail, ha, hremoved hcall⟩
    refine ⟨fun i j t u hi hj hc hc' he he' hok hok' => ?_, fun t ht hc he hok => ?_⟩
    · obtain ⟨a, ha⟩ := hholds t (List.mem_of_getElem? hi) hc he hok
      obtain ⟨b, hb⟩ := hholds u (List.mem_of_getElem? hj) hc' he' hok'
      exact hkept.alone i j _ _ a b (getElem?_accountViews hi) (getElem?_accountViews hj) ha hb
    · obtain ⟨a, ha⟩ := hholds t ht hc he hok
      obtain ⟨hsignup, s, hs⟩ := hkept.own _ (mem_accountViews ht) a ha
      rw [accountView_call] at hsignup
      exact ⟨a, _, hsignup, hs, rfl, rfl⟩
  · rintro before i ch after t rfl hi hcall
    obtain ⟨hbefore, hallowed, -⟩ := Conf.admissible_append.mp hadm
    rw [Server.run, Conf.run_append]
    exact signup_step (signupKept_checks.run hinit hbefore) hallowed hi hcall

/-- A signup whose mail is not sent, and another one after it. -/
def retried : List Tick :=
  .start (.accountSignup "owner@example.net" "correct horse") :: List.replicate 6 (.step 0 {}) ++
    [.step 0 { fails := true }, .step 0 {}, .step 0 {}] ++
    .start (.accountSignup "owner@example.net" "battery staple") :: List.replicate 7 (.step 1 {})

theorem signup_unique_retried :
    SignedUpOnce sample "owner@example.net" (Server.run sample ⟨World.empty, []⟩ retried) :=
  (signup_unique (by decide)).1

end ControlPlane
end Cococoir
