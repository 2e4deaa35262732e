import Cococoir.ControlPlane.AccountMoves

/-!
# Account operations that overlap

Verifying and resetting read the whole account record, change one field and store the record
again, without looking whether it is still what they read.  So one such operation can take back
another's update, and it can bring back an account that was deleted in between.

* `resurrectedAccount`: a verification that read the account before it was deleted stores it
  again.
* `account_updates_last`: in every schedule in which each stored record is the one that is there
  with only the operation's own field changed, no update of an operation that succeeded is lost
  and no deleted account comes back.

## Read, change, store

There is no compare-and-set.  A verification reads a record, sets its status and stores the whole;
a reset does the same with the hash.  What another operation has stored between the read and the
store is overwritten, or, if it was a deletion, undone.  The condition under which nothing is lost
is on the command that stores: the record that is there differs from what is written in the call's
own field only.  `AccountKept` says that every update of a call that has stored is still visible
in the record, and each such store keeps the others' because it changes nothing else.

Calls on other accounts do not matter, and are passed by one lemma for all of them.
-/

namespace Cococoir
namespace ControlPlane

open Concurrency

variable (cp : ControlPlane)

/-- The record that a call stores is the one that is there with the call's own field changed. -/
def keepsFields (call : Call) (a : AccountRecord) : Option (Stored AccountRecord) → Bool
  | some (.json b) =>
    if call.verifies then a = { b with status := .active }
    else if call.resets then a = { b with passwordHash := a.passwordHash }
    else false
  | _ => false

/-- What is asked of one command of a call: what it stores for `email` keeps the other fields of
the record that is there. -/
def accountStep (email : String) (w : World) (call : Call) : Cmd → Bool
  | .redis (.account e (.set (.json a))) => e ≠ email || keepsFields call a (w.accounts email)
  | _ => true

/-- Verifications, resets and deletions of accounts whose commands meet `accountStep`. -/
def KeepsAccount (email : String) (σ : Server) : Tick → Prop
  | .start call => call.verifies || call.resets || call.deletesAccount
  | .step i _ => ∀ t ∈ σ.pool[i]?, ∀ c ∈ t.pending, accountStep email σ.world t.call c

instance (email : String) : ∀ σ e, Decidable (KeepsAccount email σ e)
  | _, .start call =>
    inferInstanceAs (Decidable ((call.verifies || call.resets || call.deletesAccount) = true))
  | σ, .step i _ => inferInstanceAs (Decidable (∀ t ∈ σ.pool[i]?, ∀ c ∈ t.pending,
      accountStep email σ.world t.call c = true))

/-- No update of the account that succeeded is lost, and a deleted one is gone. -/
structure AccountUpdated (email : String) (σ : Server) : Prop where
  verified : ∀ t ∈ σ.pool, t.call.verifies → (accountView cp t).email = some email →
    Succeeded t → ∀ x, σ.world.accounts email = some x → ∃ a, x = .json a ∧ a.status = .active
  reset : ∀ t ∈ σ.pool, t.call.resets → (accountView cp t).email = some email → Succeeded t →
    ∀ x, σ.world.accounts email = some x → ∃ a, x = .json a ∧ ∃ u ∈ σ.pool,
      (accountView cp u).email = some email ∧ Succeeded u ∧ IsReset cp u.call a.passwordHash
  deleted : ∀ t ∈ σ.pool, t.call.deletesAccount → (accountView cp t).email = some email →
    Succeeded t → σ.world.accounts email = none

/-- What the calls have done to the account is still there. -/
structure AccountKept (email : String) (w : World) (vs : List AccountView) : Prop where
  verified : ∀ v ∈ vs, v.call.verifies → v.email = some email → v.written.isSome →
    ∀ x, w.accounts email = some x → ∃ a, x = .json a ∧ a.status = .active
  reset : ∀ v ∈ vs, v.call.resets → v.email = some email → v.written.isSome →
    ∀ x, w.accounts email = some x → ∃ a, x = .json a ∧ ∃ u ∈ vs,
      u.email = some email ∧ u.written.isSome ∧ IsReset cp u.call a.passwordHash
  removed : ∀ v ∈ vs, v.call.deletesAccount → v.email = some email → v.removed →
    w.accounts email = none

variable {cp} {email : String} {w w' : World} {vs : List AccountView} {i : ℕ}
variable {v v' : AccountView}

/-- A call is of one kind. -/
theorem kinds (call : Call) : (call.verifies = true → call.resets = false ∧
    call.deletesAccount = false ∧ call.signsUp = false) ∧
    (call.resets = true → call.deletesAccount = false ∧ call.signsUp = false) ∧
    (call.signsUp = true → call.deletesAccount = false) := by
  cases call <;> exact ⟨fun h => by cases h <;> exact ⟨rfl, rfl, rfl⟩,
    fun h => by cases h <;> exact ⟨rfl, rfl⟩, fun h => by cases h <;> rfl⟩

theorem resets_of_isReset {call : Call} {hash : String} (h : IsReset cp call hash) :
    call.resets = true := by
  obtain ⟨token, password, salt, rfl, -⟩ := h
  rfl

/-- A step of a call that is about another account, or has done nothing to this one. -/
theorem AccountKept.elsewhere (h : AccountKept cp email w vs) (hvi : vs[i]? = some v)
    (haccounts : w'.accounts email = w.accounts email)
    (hidle : v.email = some email → v.written = none)
    (hverified : v'.email = some email → v'.written = none ∧
      (v'.call.deletesAccount = true → v'.removed = false)) :
    AccountKept cp email w' (vs.set i v') := by
  have hold : ∀ u ∈ vs.set i v', u.email = some email → u.written.isSome → u ∈ vs := by
    intro u hu he hw
    rcases List.mem_or_eq_of_mem_set hu with hu | rfl
    · exact hu
    · rw [(hverified he).1] at hw
      cases hw
  refine ⟨fun u hu hc he hw => ?_, fun u hu hc he hw x hx => ?_, fun u hu hc he hr => ?_⟩
  · rw [haccounts]
    exact h.verified u (hold u hu he hw) hc he hw
  · rw [haccounts] at hx
    obtain ⟨a, ha, z, hz, hze, hzw, hza⟩ := h.reset u (hold u hu he hw) hc he hw x hx
    refine ⟨a, ha, exists_mem_set hvi ?_ ⟨z, hz, hze, hzw, hza⟩⟩
    rintro ⟨hve, hvw, -⟩
    rw [hidle hve] at hvw
    cases hvw
  · rw [haccounts]
    rcases List.mem_or_eq_of_mem_set hu with hu | rfl
    · exact h.removed u hu hc he hr
    · rw [(hverified he).2 hc] at hr
      cases hr

/-- Storing the record that is there with the call's own field changed. -/
theorem AccountKept.update (h : AccountKept cp email w vs) (hvi : vs[i]? = some v)
    {a : AccountRecord} (hkeeps : keepsFields v.call a (w.accounts email) = true)
    (hemail : v.email = some email)
    (hreset : v.call.resets = true → IsReset cp v.call a.passwordHash) :
    AccountKept cp email
      { w with accounts := Function.update w.accounts email (some (.json a)) }
      (vs.set i { v with written := some a }) := by
  obtain ⟨b, hb, hfields⟩ : ∃ b, w.accounts email = some (.json b) ∧
      (v.call.verifies = true ∧ a = { b with status := .active } ∨
        v.call.resets = true ∧ a = { b with passwordHash := a.passwordHash }) := by
    unfold keepsFields at hkeeps
    split at hkeeps
    · rename_i b hb
      refine ⟨b, hb, ?_⟩
      split_ifs at hkeeps with hv hr
      · exact Or.inl ⟨hv, by simpa using hkeeps⟩
      · exact Or.inr ⟨hr, by simpa using hkeeps⟩
    · cases hkeeps
  have hmem : v ∈ vs := List.mem_of_getElem? hvi
  have hnow : ∀ x, Function.update w.accounts email (some (.json a)) email = some x →
      x = .json a := by
    intro x hx
    rw [Function.update_self] at hx
    exact (Option.some.inj hx).symm
  refine ⟨fun u hu hc he hw x hx => ⟨a, hnow x hx, ?_⟩, fun u hu hc he hw x hx =>
    ⟨a, hnow x hx, ?_⟩, fun u hu hc he hr => ?_⟩
  · rcases hfields with ⟨-, ha⟩ | ⟨hr, ha⟩
    · rw [ha]
    · -- a reset keeps the status, which the verification left active
      rcases List.mem_or_eq_of_mem_set hu with hu | rfl
      · obtain ⟨_, hab, hactive⟩ := h.verified u hu hc he hw _ hb
        cases hab
        rw [ha]
        exact hactive
      · rw [((kinds _).1 hc).1] at hr
        cases hr
  · rcases hfields with ⟨hv, ha⟩ | ⟨hr, -⟩
    · -- a verification keeps the hash, which is a reset's
      rcases List.mem_or_eq_of_mem_set hu with hu | rfl
      · obtain ⟨_, hab, z, hz, hze, hzw, hza⟩ := h.reset u hu hc he hw _ hb
        cases hab
        refine exists_mem_set hvi (fun hv' => ?_) ⟨z, hz, hze, hzw, by rw [ha]; exact hza⟩
        have := resets_of_isReset hv'.2.2
        rw [((kinds _).1 hv).1] at this
        cases this
      · rw [((kinds _).1 hv).1] at hc
        cases hc
    · refine ⟨_, List.mem_of_getElem? (List.getElem?_set_self
        (List.getElem?_eq_some_iff.mp hvi).1), hemail, rfl, hreset hr⟩
  · have hstored : w.accounts email = none → False := fun hn => by rw [hb] at hn; cases hn
    rcases List.mem_or_eq_of_mem_set hu with hu | rfl
    · exact (hstored (h.removed u hu hc he hr)).elim
    · exact (hstored (h.removed v hmem hc he hr)).elim

/-- Once the record is gone there is nothing to lose. -/
theorem AccountKept.gone (hgone : w'.accounts email = none) : AccountKept cp email w' vs := by
  refine ⟨fun _ _ _ _ _ x hx => ?_, fun _ _ _ _ _ x hx => ?_, fun _ _ _ _ _ => hgone⟩
  · rw [hgone] at hx
    cases hx
  · rw [hgone] at hx
    cases hx

/-- The condition on the command that a call issues next. -/
theorem KeepsAccount.accountStep {σ : Server} {ch : Choice} {t : Handler} {c : Cmd}
    (h : KeepsAccount email σ (.step i ch)) (hi : σ.pool[i]? = some t)
    (hpend : t.pending = some c) : accountStep email σ.world t.call c = true :=
  h t hi c hpend

theorem accountKept_checks : AccountChecks cp (KeepsAccount email) (AccountKept cp email) where
  settles σ call h := by
    cases call <;> first | rfl | cases h
  start σ call hcall h := by
    have hnew : (AccountView.init cp call).written.isSome = true → False := nofun
    refine ⟨fun u hu hc he hw => ?_, fun u hu hc he hw x hx => ?_, fun u hu hc he hr => ?_⟩
    · rcases List.mem_append.mp hu with hu | hu
      · exact h.verified u hu hc he hw
      · rw [List.mem_singleton.mp hu] at hw
        exact (hnew hw).elim
    · rcases List.mem_append.mp hu with hu | hu
      · obtain ⟨a, ha, z, hz, hrest⟩ := h.reset u hu hc he hw x hx
        exact ⟨a, ha, z, List.mem_append_left _ hz, hrest⟩
      · rw [List.mem_singleton.mp hu] at hw
        exact (hnew hw).elim
    · rcases List.mem_append.mp hu with hu | hu
      · exact h.removed u hu hc he hr
      · rw [List.mem_singleton.mp hu] at hr
        cases hr
  frame haccounts h := by
    refine ⟨fun u hu hc he hw => ?_, fun u hu hc he hw => ?_, fun u hu hc he hr => ?_⟩
    · rw [haccounts]
      exact h.verified u hu hc he hw
    · rw [haccounts]
      exact h.reset u hu hc he hw
    · rw [haccounts]
      exact h.removed u hu hc he hr
  consume email' hvi hcall hnew h := by
    refine h.elsewhere hvi rfl (fun _ => hnew) fun _ => ⟨hnew, fun hd => ?_⟩
    rcases hcall with hv | hr
    · rw [((kinds _).1 hv).2.1] at hd
      cases hd
    · rw [((kinds _).2.1 hr).1] at hd
      cases hd
  write σ i ch t email' a hallowed hi hpend hmove h := by
    have hvi := @getElem?_accountViews cp _ _ _ hi
    have hstep := hallowed.accountStep hi hpend
    rw [ControlPlane.accountStep, Bool.or_eq_true, decide_eq_true_eq] at hstep
    have hemail : (accountView cp t).email = some email' := by
      cases hmove with
      | outside _ h _ => exact absurd rfl h
      | create _ h _ _ => exact h
      | activate _ h _ _ => exact h
      | replace _ h _ => exact h
    by_cases he : email' = email
    · subst he
      have hkeeps := hstep.resolve_left (by simp)
      rw [← @accountView_call cp t] at hkeeps
      refine h.update hvi hkeeps hemail fun hr => ?_
      cases hmove with
      | outside _ h _ => exact absurd rfl h
      | create hsignup _ _ _ =>
        obtain ⟨_, _, _, _, hcall, -⟩ := hsignup
        rw [hcall] at hr
        cases hr
      | activate hv _ _ _ =>
        rw [((kinds _).1 hv).1] at hr
        cases hr
      | replace hreset _ _ => exact hreset
    · have hne : ∀ {u : AccountView}, u.email = some email' → u.email ≠ some email := by
        intro u hu hu'
        rw [hu] at hu'
        exact he (Option.some.inj hu')
      exact h.elsewhere hvi (Function.update_of_ne (Ne.symm he) _ _)
        (fun h => absurd h (hne hemail)) fun h => absurd h (hne hemail)
  drop σ i ch t email' hallowed hi hpend hmove h := by
    have hvi := @getElem?_accountViews cp _ _ _ hi
    have hemail : (accountView cp t).email = some email' := by
      cases hmove with
      | outside _ h _ => exact absurd rfl h
      | undo _ h _ _ => exact h
      | drop _ h _ => exact h
    by_cases he : email' = email
    · subst he
      exact .gone (Function.update_self ..)
    · have hne : (accountView cp t).email ≠ some email := by
        rw [hemail]
        exact fun h => he (Option.some.inj h)
      exact h.elsewhere hvi (Function.update_of_ne (Ne.symm he) _ _)
        (fun h => absurd h hne) fun h => absurd h hne

/-! ## Accounts in reachable states -/

/-- An account that has signed up, with its verify token unused. -/
def signedUp : World :=
  (Server.run sample ⟨World.empty, []⟩ (.start (.accountSignup "owner@example.net" "correct horse") ::
    List.replicate 7 (.step 0 {}))).world

/-- The hex token that the generator's zeros give. -/
abbrev zeroToken : String := "0000000000000000000000000000000000000000000000000000000000000000"

/-- A verification reads the account; the account is deleted; the verification stores it. -/
def deletedMeanwhile : List Tick :=
  [.start (.accountVerify zeroToken), .step 0 {}, .step 0 {}] ++
    .start (.accountDelete "owner@example.net" 1) :: List.replicate 6 (.step 1 {}) ++ [.step 0 {}]

/-- The deleted account is stored again. -/
theorem resurrectedAccount :
    ¬AccountUpdated sample "owner@example.net" (Server.run sample ⟨signedUp, []⟩ deletedMeanwhile) := by
  intro h
  have hdeleted : ∃ t ∈ (Server.run sample ⟨signedUp, []⟩ deletedMeanwhile).pool,
      t.call.deletesAccount = true ∧ (accountView sample t).email = some "owner@example.net" ∧
        Succeeded t = true := by decide
  obtain ⟨t, ht, hcall, hemail, hok⟩ := hdeleted
  have hgone := h.deleted t ht hcall hemail hok
  have hthere : (Server.run sample ⟨signedUp, []⟩ deletedMeanwhile).world.accounts
      "owner@example.net" ≠ none := by decide
  exact hthere hgone

/-- **No update of an account is lost and no deleted account comes back**, in every schedule of
verifications, resets and deletions whose commands meet `accountStep`. -/
theorem account_updates_last {ticks : List Tick}
    (hadm : Server.Admissible cp (KeepsAccount email) ⟨w, []⟩ ticks) :
    AccountUpdated cp email (Server.run cp ⟨w, []⟩ ticks) := by
  have hinit : AccountKept cp email w [] :=
    ⟨fun _ hv => absurd hv List.not_mem_nil, fun _ hv => absurd hv List.not_mem_nil,
      fun _ hv => absurd hv List.not_mem_nil⟩
  have hkeeps := accountKept_checks.run hinit hadm
  have hkept := hkeeps.holds
  change AccountKept cp email _ (accountViews cp (Server.run cp ⟨w, []⟩ ticks)) at hkept
  refine ⟨fun t ht hcall hemail hok => ?_, fun t ht hcall hemail hok x hx => ?_,
    fun t ht hcall hemail hok => ?_⟩
  · obtain ⟨_, -, -, hwritten, -⟩ := settled_of_succeeded hkeeps ht hok
    rw [accountView_call] at hwritten
    refine hkept.verified _ (mem_accountViews ht) ?_ hemail (hwritten ((kinds _).1 hcall).2.1)
    rw [accountView_call]
    exact hcall
  · obtain ⟨_, -, -, hwritten, -⟩ := settled_of_succeeded hkeeps ht hok
    rw [accountView_call] at hwritten
    obtain ⟨a, ha, z, hz, hze, hzw, hza⟩ := hkept.reset _ (mem_accountViews ht)
      ((accountView_call t).symm ▸ hcall) hemail (hwritten ((kinds _).2.1 hcall).1) x hx
    obtain ⟨u, hu, rfl⟩ := List.mem_map.mp hz
    rw [accountView_call] at hza
    exact ⟨a, ha, u, hu, hze, succeeded_of_written hkeeps hu
      ((kinds _).2.1 (resets_of_isReset hza)).2 hzw, hza⟩
  · obtain ⟨_, -, hremoved, -⟩ := settled_of_succeeded hkeeps ht hok
    rw [accountView_call] at hremoved
    exact hkept.removed _ (mem_accountViews ht) ((accountView_call t).symm ▸ hcall) hemail
      (hremoved hcall)

/-- A verification that stores the account before the deletion removes it. -/
def storedInTime : List Tick :=
  [.start (.accountVerify zeroToken), .step 0 {}, .step 0 {}] ++
    [.start (.accountDelete "owner@example.net" 1), .step 1 {}, .step 0 {}] ++
    List.replicate 5 (.step 1 {})

theorem account_updates_last_deleted :
    (Server.run sample ⟨signedUp, []⟩ storedInTime).world.accounts "owner@example.net" = none := by
  have h : AccountUpdated sample "owner@example.net" (Server.run sample ⟨signedUp, []⟩ storedInTime) :=
    account_updates_last (by decide)
  obtain ⟨t, ht, hcall, hemail, hok⟩ : ∃ t ∈ (Server.run sample ⟨signedUp, []⟩ storedInTime).pool,
      t.call.deletesAccount = true ∧ (accountView sample t).email = some "owner@example.net" ∧
        Succeeded t = true := by decide
  exact h.deleted t ht hcall hemail hok

end ControlPlane
end Cococoir
