import Cococoir.ControlPlane.AccountRaces
import Cococoir.ControlPlane.AccountRuns

/-!
# Tokens and the accounts they act on

Verify tokens, reset tokens and sessions are capabilities for an account, stored by the email
of the account.  An email can be signed up again after its account is deleted, so a token that
outlives its account acts on another one.

* `danglingToken`: the deletion of an account leaves its verify token.
* `capabilities_backed`: in every sequential run in which an account is deleted only when no
  verify or reset token points at it, every token points at an account that is there, the very
  one it was stored for; an account is active only if such a verify token of it was consumed;
  and a token is consumed again only after it was drawn again.

## Identities

An account has an identity that is drawn when it signs up, and an email that others may have had
before.  A token points at an email.  The property is that it acts on the account it was stored
for, so the invariant is about identities: while a token is stored, the account of its email keeps
its identity.  It does, because the only way to another identity is a deletion and a second
signup, and a deletion is admitted only when no token is left.

The other parts follow from the same steps.  An account becomes active by a verify token of it,
and a token that is consumed is gone, since it is taken with `GETDEL`; to be consumed again it has
to be drawn again.
-/

namespace Cococoir
namespace ControlPlane

open Concurrency

/-! ## Capabilities -/

/-- What can act on an account. -/
inductive Capability : Type where
  | verify | reset | session
  deriving DecidableEq

/-- The email that a token points at. -/
def Credentials.points (c : Credentials) : Capability → String → Option String
  | .verify => c.verifies
  | .reset => c.resets
  | .session => c.sessions

/-- Every token points at an account that is there. -/
def Backed (c : Credentials) : Prop :=
  ∀ k t e, c.points k t = some e → ∃ a, c.accounts e = some (.json a)

/-- The identity of the account of an email. -/
def Credentials.uuidAt (c : Credentials) (e : String) : Option String :=
  match c.accounts e with
  | some (.json a) => some a.uuid
  | _ => none

/-- The call consumes the token. -/
def Call.spends (call : Call) : Capability → String → Prop
  | .verify, t => call = .accountVerify t
  | .reset, t => ∃ password, call = .resetPassword t password
  | .session, _ => False

variable (cp : ControlPlane)

/-- An account operation that runs alone, with scans that are complete. -/
def RunsAlone (w : World) (call : Call) (o : Outcome EdgeError Reply) (w' : World) : Prop :=
  call.managesAccount = true ∧
    ∃ p : Pages, p.Complete w ∧ (cp.body call).Runs Cmd.exec (Paged p Reliable) w o w'

/-- No verify or reset token points at an account that is to be deleted. -/
def TokensSpent (w : World) : Call → Prop
  | .accountDelete email _ => ∀ t, w.verifies t ≠ some (cp.normalizeEmail email) ∧
      w.resets t ≠ some (cp.normalizeEmail email)
  | _ => True

/-- The same, for a run that deletes accounts only when their tokens are spent. -/
def RunsTidily (w : World) (call : Call) (o : Outcome EdgeError Reply) (w' : World) : Prop :=
  RunsAlone cp w call o w' ∧ TokensSpent cp w call

variable {cp} {c c' : Credentials} {call : Call} {o : Outcome EdgeError Reply} {e : String}

/-! ## What a step keeps -/

/-- The accounts decode, and every token points at one. -/
structure Sound (c : Credentials) : Prop where
  decodes : ∀ e x, c.accounts e = some x → ∃ a, x = .json a
  backed : Backed c

/-- A step that removes no account and adds tokens of accounts only. -/
theorem Sound.step (h : Sound c)
    (haccounts : ∀ e x, c'.accounts e = some x → c.accounts e = some x ∨ ∃ a, x = .json a)
    (hthere : ∀ e, c.accounts e ≠ none → c'.accounts e ≠ none)
    (htokens : ∀ k t e, c'.points k t = some e →
      c.points k t = some e ∨ c'.accounts e ≠ none) : Sound c' := by
  have hdecodes : ∀ e x, c'.accounts e = some x → ∃ a, x = .json a := fun e x hx =>
    (haccounts e x hx).elim (h.decodes e x) id
  refine ⟨hdecodes, fun k t e ht => ?_⟩
  have he : c'.accounts e ≠ none := by
    rcases htokens k t e ht with ht | he
    · obtain ⟨a, ha⟩ := h.backed k t e ht
      exact hthere e (by rw [ha]; exact nofun)
    · exact he
  obtain ⟨x, hx⟩ := Option.ne_none_iff_exists'.mp he
  obtain ⟨a, rfl⟩ := hdecodes e x hx
  exact ⟨a, hx⟩

/-- Removing a token, or nothing, keeps the rest. -/
theorem Sound.spend (h : Sound c) (haccounts : c'.accounts = c.accounts)
    (htokens : ∀ k t e, c'.points k t = some e → c.points k t = some e) : Sound c' := by
  refine h.step (fun e x hx => Or.inl ?_) (fun e he => ?_) fun k t e ht => Or.inl (htokens k t e ht)
  · rwa [haccounts] at hx
  · rwa [haccounts]

theorem points_of_update {f : String → Option String} {t t' : String} {x : Option String}
    {e : String} (h : Function.update f t x t' = some e) : f t' = some e ∨ x = some e := by
  rcases update_cases h with ⟨-, h⟩ | ⟨-, h⟩
  · exact Or.inr h
  · exact Or.inl h

theorem Thinned.points {s s' : String → Option String} {email : String}
    (h : Thinned email s s') {t : String} (ht : s' t = some e) : s t = some e := by
  rcases h t with h | ⟨-, h⟩
  · rwa [← h]
  · rw [h] at ht
    cases ht

/-- Storing an account keeps that there is one, here and elsewhere. -/
theorem update_accounts {f : String → Option (Stored AccountRecord)} {email : String}
    {a : AccountRecord} :
    (∀ e x, Function.update f email (some (.json a)) e = some x → f e = some x ∨ ∃ a, x = .json a) ∧
      (∀ e, f e ≠ none → Function.update f email (some (.json a)) e ≠ none) ∧
      Function.update f email (some (.json a)) email ≠ none := by
  refine ⟨fun e x hx => ?_, fun e he => ?_, ?_⟩
  · rcases update_cases hx with ⟨-, hx⟩ | ⟨-, hx⟩
    · exact Or.inr ⟨a, (Option.some.inj hx).symm⟩
    · exact Or.inl hx
  · by_cases hee : e = email
    · subst hee
      rw [Function.update_self]
      exact nofun
    · rwa [Function.update_of_ne hee]
  · rw [Function.update_self]
    exact nofun

/-- **Every step keeps the tokens backed**, when a deletion leaves no token behind. -/
theorem Sound.grants (h : Sound c) (hstep : Grants cp c call o c')
    (hspent : ∀ email pages, call = .accountDelete email pages → ∀ t,
      c.verifies t ≠ some (cp.normalizeEmail email) ∧
        c.resets t ≠ some (cp.normalizeEmail email)) : Sound c' := by
  cases hstep with
  | nothing _ => exact h
  | signUp hfree _ =>
    obtain ⟨h₁, h₂, h₃⟩ := update_accounts
    refine h.step h₁ h₂ fun k t e ht => ?_
    cases k with
    | verify =>
      rcases points_of_update ht with ht | he
      · exact Or.inl ht
      · rw [← Option.some.inj he]
        exact Or.inr h₃
    | _ => exact Or.inl ht
  | takeBack _ =>
    refine h.spend rfl fun k t e ht => ?_
    cases k with
    | verify => exact (points_of_update ht).resolve_right nofun
    | _ => exact ht
  | resend hthere =>
    refine h.step (fun _ _ => Or.inl) (fun _ => id) fun k t e ht => ?_
    cases k with
    | verify =>
      refine (points_of_update ht).imp_right fun he => ?_
      rw [← Option.some.inj he]
      exact fun hn => by rw [show c.accounts _ = none from hn] at hthere; cases hthere
    | _ => exact Or.inl ht
  | request hthere =>
    refine h.step (fun _ _ => Or.inl) (fun _ => id) fun k t e ht => ?_
    cases k with
    | reset =>
      refine (points_of_update ht).imp_right fun he => ?_
      rw [← Option.some.inj he]
      exact fun hn => by rw [show c.accounts _ = none from hn] at hthere; cases hthere
    | _ => exact Or.inl ht
  | verify _ _ =>
    obtain ⟨h₁, h₂, -⟩ := update_accounts
    refine h.step h₁ h₂ fun k t e ht => Or.inl ?_
    cases k with
    | verify => exact (points_of_update ht).resolve_right nofun
    | _ => exact ht
  | spendVerify _ _ =>
    refine h.spend rfl fun k t e ht => ?_
    cases k with
    | verify => exact (points_of_update ht).resolve_right nofun
    | _ => exact ht
  | reset _ _ =>
    obtain ⟨h₁, h₂, -⟩ := update_accounts
    refine h.step h₁ h₂ fun k t e ht => Or.inl ?_
    cases k with
    | reset => exact (points_of_update ht).resolve_right nofun
    | _ => exact ht
  | spendReset _ _ =>
    refine h.spend rfl fun k t e ht => ?_
    cases k with
    | reset => exact (points_of_update ht).resolve_right nofun
    | _ => exact ht
  | logIn hthere =>
    refine h.step (fun _ _ => Or.inl) (fun _ => id) fun k t e ht => ?_
    cases k with
    | session =>
      refine (points_of_update ht).imp_right fun he => ?_
      rw [← Option.some.inj he]
      exact fun hn => by rw [show c.accounts _ = none from hn] at hthere; cases hthere
    | _ => exact Or.inl ht
  | logOut =>
    refine h.spend rfl fun k t e ht => ?_
    cases k with
    | session => exact (points_of_update ht).resolve_right nofun
    | _ => exact ht
  | thin hthin =>
    refine h.spend rfl fun k t e ht => ?_
    cases k with
    | session => exact hthin.points ht
    | _ => exact ht
  | @delete email pages s _ hthin hgone =>
    have hspent := hspent email pages rfl
    -- the tokens that are left point at other accounts
    have hother : ∀ k t e, ({ c with
        accounts := Function.update c.accounts (cp.normalizeEmail email) none
        sessions := s } : Credentials).points k t = some e →
        c.points k t = some e ∧ e ≠ cp.normalizeEmail email := by
      intro k t e ht
      cases k with
      | verify => exact ⟨ht, fun he => (hspent t).1 (he ▸ ht)⟩
      | reset => exact ⟨ht, fun he => (hspent t).2 (he ▸ ht)⟩
      | session => exact ⟨hthin.points ht, fun he => hgone t (he ▸ ht)⟩
    refine ⟨fun e x hx => ?_, fun k t e ht => ?_⟩
    · dsimp only at hx
      by_cases he : e = cp.normalizeEmail email
      · subst he
        rw [Function.update_self] at hx
        cases hx
      · rw [Function.update_of_ne he] at hx
        exact h.decodes e x hx
    · obtain ⟨hold, he⟩ := hother k t e ht
      obtain ⟨a, ha⟩ := h.backed k t e hold
      exact ⟨a, (Function.update_of_ne he _ _).trans ha⟩

/-- A step changes the record of an account, but not its identity, and makes it active only by
consuming a verify token of it. -/
theorem Grants.record (hstep : Grants cp c call o c') {a' : AccountRecord}
    (ha' : c'.accounts e = some (.json a')) :
    (c.accounts e = none ∧ a'.status = .pending) ∨
    ∃ a, c.accounts e = some (.json a) ∧ a'.uuid = a.uuid ∧
      (a'.status = .active → a.status = .active ∨
        ∃ t, call = .accountVerify t ∧ o = .ok .unit ∧ c.verifies t = some e) := by
  have hsame : c.accounts e = some (.json a') → ∃ a, c.accounts e = some (.json a) ∧
      a'.uuid = a.uuid ∧ (a'.status = .active → a.status = .active ∨
        ∃ t, call = .accountVerify t ∧ o = .ok .unit ∧ c.verifies t = some e) :=
    fun h => ⟨a', h, rfl, Or.inl⟩
  cases hstep with
  | @signUp email pw t a _ hfree hpending =>
    rcases update_cases ha' with ⟨rfl, ha⟩ | ⟨-, ha⟩
    · cases ha
      exact Or.inl ⟨hfree, hpending⟩
    · exact Or.inr (hsame ha)
  | @verify t e' a htoken hthere =>
    rcases update_cases ha' with ⟨rfl, ha⟩ | ⟨-, ha⟩
    · cases ha
      exact Or.inr ⟨a, hthere, rfl, fun _ => Or.inr ⟨t, rfl, rfl, htoken⟩⟩
    · exact Or.inr (hsame ha)
  | @reset t pw e' a h htoken hthere =>
    rcases update_cases ha' with ⟨rfl, ha⟩ | ⟨-, ha⟩
    · cases ha
      exact Or.inr ⟨a, hthere, rfl, Or.inl⟩
    · exact Or.inr (hsame ha)
  | @delete email pages s _ hthin hgone =>
    rcases update_cases ha' with ⟨-, ha⟩ | ⟨-, ha⟩
    · cases ha
    · exact Or.inr (hsame ha)
  | _ => exact Or.inr (hsame ha')

/-- A call that consumes a token and succeeds finds it and takes it. -/
theorem Grants.spends (hstep : Grants cp c call o c') {k : Capability} {t : String}
    (hcall : call.spends k t) {r : Reply} (ho : o = .ok r) :
    c.points k t ≠ none ∧ c'.points k t = none := by
  cases k with
  | session => exact hcall.elim
  | verify =>
    obtain rfl : call = .accountVerify t := hcall
    cases hstep with
    | nothing hrefused => exact absurd ho (hrefused (Or.inl rfl) r)
    | verify htoken _ =>
      refine ⟨?_, Function.update_self ..⟩
      change c.verifies t ≠ none
      rw [htoken]
      exact nofun
    | spendVerify _ hnot => exact absurd ho (hnot r)
  | reset =>
    obtain ⟨password, rfl⟩ := hcall
    cases hstep with
    | nothing hrefused => exact absurd ho (hrefused (Or.inr rfl) r)
    | reset htoken _ =>
      refine ⟨?_, Function.update_self ..⟩
      change c.resets t ≠ none
      rw [htoken]
      exact nofun
    | spendReset _ hnot => exact absurd ho (hnot r)

/-! ## Reachable states -/

section Reachable

variable {w₀ w w' : World} {hist : List (Call × Outcome EdgeError Reply)}

/-- Nobody has signed up yet. -/
def NoAccounts (w : World) : Prop :=
  ∀ e, w.accounts e = none ∧ w.verifies e = none ∧ w.resets e = none ∧ w.sessions e = none

theorem RunsTidily.grants (h : RunsTidily cp w call o w') :
    Grants cp w.credentials call o w'.credentials := by
  obtain ⟨⟨hcall, p, hcomplete, hrun⟩, -⟩ := h
  exact credentials_of_runs hcall hcomplete hrun

theorem RunsTidily.sound (h : RunsTidily cp w call o w') (hw : Sound w.credentials) :
    Sound w'.credentials := by
  refine hw.grants h.grants fun email pages hcall t => ?_
  have hspent := h.2
  rw [hcall] at hspent
  exact hspent t

theorem sound_of_served (h₀ : NoAccounts w₀) (h : Served (RunsTidily cp) w₀ hist w) :
    Sound w.credentials := by
  refine h.invariant (fun w => Sound w.credentials) ⟨fun e x hx => ?_, fun k t e ht => ?_⟩
    fun _ _ _ _ hw hstep => hstep.sound hw
  · rw [show w₀.credentials.accounts e = none from (h₀ e).1] at hx
    cases hx
  · obtain ⟨-, h₁, h₂, h₃⟩ := h₀ t
    cases k with
    | verify => rw [show w₀.credentials.points .verify t = none from h₁] at ht; cases ht
    | reset => rw [show w₀.credentials.points .reset t = none from h₂] at ht; cases ht
    | session => rw [show w₀.credentials.points .session t = none from h₃] at ht; cases ht

/-- While a token is stored the account it points at keeps its identity. -/
theorem uuid_of_held {k : Capability} {t : String} (hw₀ : Sound w₀.credentials)
    (ht : w₀.credentials.points k t = some e)
    (h : Served (fun u call o u' => RunsTidily cp u call o u' ∧ u'.credentials.points k t = some e)
      w₀ hist w) : w.credentials.uuidAt e = w₀.credentials.uuidAt e := by
  suffices hall : Sound w.credentials ∧ w.credentials.points k t = some e ∧
      w.credentials.uuidAt e = w₀.credentials.uuidAt e from hall.2.2
  refine h.invariant (fun w => Sound w.credentials ∧ w.credentials.points k t = some e ∧
    w.credentials.uuidAt e = w₀.credentials.uuidAt e) ⟨hw₀, ht, rfl⟩ ?_
  rintro u call o u' ⟨hsound, hu, huuid⟩ ⟨hstep, hu'⟩
  have hsound' := hstep.sound hsound
  refine ⟨hsound', hu', huuid ▸ ?_⟩
  obtain ⟨a, ha⟩ := hsound.backed k t e hu
  obtain ⟨a', ha'⟩ := hsound'.backed k t e hu'
  rcases hstep.grants.record ha' with ⟨hnone, -⟩ | ⟨b, hb, huuid', -⟩
  · rw [hnone] at ha
    cases ha
  · rw [Credentials.uuidAt, Credentials.uuidAt, ha', hb]
    exact congrArg some huuid'

/-- An account that is active was activated by a verify token of it. -/
theorem activated (h₀ : NoAccounts w₀) (h : Served (RunsTidily cp) w₀ hist w) {a : AccountRecord}
    (ha : w.accounts e = some (.json a)) (hactive : a.status = .active) :
    ∃ before t after w₁ a₁, hist = before ++ (.accountVerify t, .ok .unit) :: after ∧
      Served (RunsTidily cp) w₀ before w₁ ∧ w₁.verifies t = some e ∧
      w₁.accounts e = some (.json a₁) ∧ a₁.uuid = a.uuid := by
  induction h generalizing a with
  | nil =>
    rw [(h₀ e).1] at ha
    cases ha
  | @snoc hist u u' call o hbefore hstep ih =>
    rcases hstep.grants.record (c := u.credentials) ha with ⟨-, hpending⟩ | ⟨b, hb, huuid, hact⟩
    · rw [hactive] at hpending
      cases hpending
    · rcases hact hactive with hb' | ⟨t, rfl, rfl, ht⟩
      · obtain ⟨before, t, after, w₁, a₁, rfl, h₁, h₂, h₃, h₄⟩ := ih hb hb'
        exact ⟨before, t, after ++ [(call, o)], w₁, a₁, by simp, h₁, h₂, h₃, h₄.trans huuid.symm⟩
      · exact ⟨hist, t, [], u, b, rfl, hbefore, ht, hb, huuid.symm⟩

/-- A token that is consumed twice was stored in between. -/
theorem drawn_again {k : Capability} {t : String} {c₁ c₂ : Call} {r₁ r₂ : Reply}
    {before mid after : List (Call × Outcome EdgeError Reply)}
    (h : Served (RunsTidily cp) w₀ (before ++ (c₁, .ok r₁) :: mid ++ (c₂, .ok r₂) :: after) w)
    (h₁ : c₁.spends k t) (h₂ : c₂.spends k t) :
    ∃ b call o a u u', mid = b ++ (call, o) :: a ∧
      Served (RunsTidily cp) w₀ (before ++ (c₁, .ok r₁) :: b) u ∧ RunsTidily cp u call o u' ∧
      u.credentials.points k t = none ∧ u'.credentials.points k t ≠ none := by
  have hsplit : before ++ (c₁, .ok r₁) :: mid ++ (c₂, .ok r₂) :: after =
      (before ++ [(c₁, .ok r₁)]) ++ (mid ++ ([(c₂, .ok r₂)] ++ after)) := by simp
  rw [hsplit] at h
  obtain ⟨w₁, hfirst, hrest⟩ := h.split
  obtain ⟨w₂, hmid, hrest⟩ := hrest.split
  obtain ⟨w₃, hsecond, -⟩ := hrest.split
  obtain ⟨v₁, -, hspend₁⟩ := hfirst.last
  obtain ⟨v₂, hnil, hspend₂⟩ := @Served.last _ _ _ _ _ _ _ [] _ _ hsecond
  have hgone := (hspend₁.grants.spends h₁ rfl).2
  have hthere := (hspend₂.grants.spends h₂ rfl).1
  generalize hempty : ([] : List (Call × Outcome EdgeError Reply)) = none' at hnil
  cases hnil with
  | snoc _ _ => simp at hempty
  | nil =>
    obtain ⟨b, call, o, a, u, u', rfl, hb, hstep, -, hu, hu'⟩ :=
      hmid.exists_change (Q := fun w => w.credentials.points k t ≠ none) (not_not.mpr hgone) hthere
    refine ⟨b, call, o, a, u, u', rfl, ?_, hstep, not_not.mp hu, hu'⟩
    have hall := hfirst.append hb
    rwa [List.append_assoc] at hall

/-- **No token outlives its account**, in every sequential run that deletes accounts only when
their verify and reset tokens are spent: every token points at an account that is there, with
the identity it had when the token was stored; an active account was activated by a verify token
of that very account; and a token is consumed again only when it was drawn again. -/
theorem capabilities_backed (h₀ : NoAccounts w₀) (h : Served (RunsTidily cp) w₀ hist w) :
    (∀ k t e, w.credentials.points k t = some e → ∃ a, w.accounts e = some (.json a)) ∧
    (∀ k t e before after w₁, hist = before ++ after → Served (RunsTidily cp) w₀ before w₁ →
      w₁.credentials.points k t = some e →
      Served (fun u call o u' => RunsTidily cp u call o u' ∧ u'.credentials.points k t = some e)
        w₁ after w →
      w.credentials.uuidAt e = w₁.credentials.uuidAt e) ∧
    (∀ e a, w.accounts e = some (.json a) → a.status = .active →
      ∃ before t after w₁ a₁, hist = before ++ (.accountVerify t, .ok .unit) :: after ∧
        Served (RunsTidily cp) w₀ before w₁ ∧ w₁.verifies t = some e ∧
        w₁.accounts e = some (.json a₁) ∧ a₁.uuid = a.uuid) ∧
    ∀ k t c₁ c₂ r₁ r₂ before mid after,
      hist = before ++ (c₁, .ok r₁) :: mid ++ (c₂, .ok r₂) :: after → c₁.spends k t →
      c₂.spends k t → ∃ b call o a u u', mid = b ++ (call, o) :: a ∧
        Served (RunsTidily cp) w₀ (before ++ (c₁, .ok r₁) :: b) u ∧ RunsTidily cp u call o u' ∧
        u.credentials.points k t = none ∧ u'.credentials.points k t ≠ none := by
  refine ⟨fun k t e ht => (sound_of_served h₀ h).backed k t e ht,
    fun k t e before after w₁ _ hbefore ht hafter =>
      uuid_of_held (sound_of_served h₀ hbefore) ht hafter,
    fun e a ha hactive => activated h₀ h ha hactive, ?_⟩
  rintro k t c₁ c₂ r₁ r₂ before mid after rfl h₁ h₂
  exact drawn_again h h₁ h₂

/-! ## Runs of the sample -/

/-- An operation that nothing disturbs, in a world without invites and sessions. -/
theorem runsAlone_eval {call : Call} (hcall : call.managesAccount = true)
    (hinvites : ∀ c, w.invites c = none) (hsessions : ∀ t, w.sessions t = none) :
    RunsAlone cp w call ((cp.body call).eval Cmd.exec [] w).1
      ((cp.body call).eval Cmd.exec [] w).2 := by
  refine ⟨hcall, fun _ _ => ("0", []), ⟨fun c hc => ?_, fun t ht => ?_⟩,
    Prog.runs_eval (fun c => ?_) fun _ _ hch => by cases hch⟩
  · exact absurd (hinvites c) hc
  · exact absurd (hsessions t) ht
  · refine ⟨?_, fun _ _ _ => rfl⟩
    cases c <;> first | rfl | trivial

/-- An account has signed up, alone. -/
def afterSignup : World :=
  ((sample.body (.accountSignup "owner@example.net" "correct horse")).eval Cmd.exec []
    World.empty).2

theorem afterSignup_served : RunsAlone sample World.empty
    (.accountSignup "owner@example.net" "correct horse")
    ((sample.body (.accountSignup "owner@example.net" "correct horse")).eval Cmd.exec []
      World.empty).1 afterSignup :=
  runsAlone_eval rfl (fun _ => rfl) fun _ => rfl

theorem afterSignup_empty :
    (∀ c, afterSignup.invites c = none) ∧ ∀ t, afterSignup.sessions t = none := by
  obtain ⟨-, p, -, hrun⟩ := afterSignup_served
  have hwrites : (sample.body (.accountSignup "owner@example.net" "correct horse")).All
      (WritesOnly [.account, .verify]) := writes_accountSignup.bimap
  exact ⟨congrFun (runs_sameFamily hwrites (f := .invite) (by simp) hrun),
    congrFun (runs_sameFamily hwrites (f := .session) (by simp) hrun)⟩

/-- An account is deleted, and its verify token stays. -/
theorem danglingToken : ∃ hist w, Served (RunsAlone sample) World.empty hist w ∧
    w.verifies zeroToken = some "owner@example.net" ∧ w.accounts "owner@example.net" = none :=
  ⟨_, ((sample.body (.accountDelete "owner@example.net" 1)).eval Cmd.exec [] afterSignup).2,
    .snoc (.snoc .nil afterSignup_served)
      (runsAlone_eval rfl afterSignup_empty.1 afterSignup_empty.2),
    by decide, by decide⟩

/-- The verify token of the account that has signed up points at it. -/
theorem capabilities_backed_signup :
    ∃ a, afterSignup.accounts "owner@example.net" = some (.json a) := by
  have h : Served (RunsTidily sample) World.empty _ afterSignup :=
    .snoc .nil ⟨afterSignup_served, trivial⟩
  exact (capabilities_backed (fun _ => ⟨rfl, rfl, rfl, rfl⟩) h).1 .verify zeroToken _
    (by decide)

end Reachable

end ControlPlane
end Cococoir
