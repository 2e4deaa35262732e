import Cococoir.ControlPlane.AccountMoves
import Cococoir.ControlPlane.Alone

/-!
# Account operations alone

What the account operations do to the accounts, the tokens and the sessions when they run alone
and Redis does not fail; the mailer may.  `SCAN` returns the keys of a family page by page, in
pages that the server chooses; of a full iteration only one thing is known, that it returns every
key that is there throughout: `Pages.Complete`.

* `runs_sessionsScan`: the sessions of an account after a scan, also when commands fail.
* `runs_accountDelete`: what a deletion leaves, also when commands fail.
* `credentials_of_runs`: every account operation is one of the steps of `Grants`.

## The argument

The account's record, its tokens and its sessions lie under different keys, and an operation that
runs alone changes few of them; what these runs do is written out here, operation by operation.
The one with loops is the deletion.  Its scan returns pages, and for each session on a page it
reads whose it is and deletes it if it is the account's; so after a full iteration no session of
the account is left, whatever the pages are, provided that every key was on one.  The rest of the
deletion writes other families, and leaves the sessions.

`credentials_of_runs` forgets how the operations go and keeps what they grant and what they take
back, which is what the invariant about capabilities needs.
-/

namespace Cococoir
namespace ControlPlane

open Concurrency

variable {cp : ControlPlane} {w w' : World} {ε α β : Type} {good : Cmd → Choice → Prop}

/-! ## Scans -/

/-- How the server splits the scans: the page at each cursor, and the next cursor. -/
abbrev Pages : Type := Family → String → String × List String

/-- The keys of the first `n` pages from a cursor; a scan ends when its cursor is `0` again. -/
def Pages.keysFrom (p : Pages) (f : Family) : ℕ → String → List String
  | 0, _ => []
  | n + 1, cursor =>
    (p f cursor).2 ++ if (p f cursor).1 = "0" then [] else keysFrom p f n (p f cursor).1

/-- A full iteration returns every key that is there. -/
structure Pages.Complete (p : Pages) (w : World) : Prop where
  invites : ∀ code, w.invites code ≠ none → ∃ n, code ∈ p.keysFrom .invite n "0"
  sessions : ∀ token, w.sessions token ≠ none → ∃ n, token ∈ p.keysFrom .session n "0"

/-- The choices of an environment in which the scans are split in this way. -/
def Paged (p : Pages) (good : Cmd → Choice → Prop) (c : Cmd) (ch : Choice) : Prop :=
  good c ch ∧ ∀ f cursor, c = .scan f cursor → (ch.cursor, ch.keys) = p f cursor

theorem Paged.runs {p : Pages} {prog : Edge ε α} {o : Outcome ε α}
    (h : prog.Runs Cmd.exec (Paged p good) w o w') : prog.Runs Cmd.exec good w o w' :=
  h.mono fun _ _ hgood => hgood.1

/-! ## Sessions -/

/-- Some sessions of the account are gone, and nothing else. -/
def Thinned (email : String) (s s' : String → Option String) : Prop :=
  ∀ t, s' t = s t ∨ s t = some email ∧ s' t = none

theorem Thinned.refl (email : String) (s : String → Option String) : Thinned email s s :=
  fun _ => Or.inl rfl

theorem Thinned.trans {email : String} {s s' s'' : String → Option String}
    (h : Thinned email s s') (h' : Thinned email s' s'') : Thinned email s s'' := by
  intro t
  rcases h' t with ht' | ⟨ht', hnone⟩
  · rcases h t with ht | ⟨ht, hnone⟩
    · exact Or.inl (ht'.trans ht)
    · exact Or.inr ⟨ht, ht'.trans hnone⟩
  · rcases h t with ht | ⟨ht, -⟩
    · exact Or.inr ⟨ht ▸ ht', hnone⟩
    · exact Or.inr ⟨ht, hnone⟩

/-- What is gone stays gone. -/
theorem Thinned.not_back {email : String} {s s' : String → Option String}
    (h : Thinned email s s') {t : String} (ht : s t ≠ some email) : s' t ≠ some email := by
  rcases h t with h | ⟨-, h⟩
  · rwa [h]
  · rw [h]
    exact nofun

@[simp] theorem exec_session_get {t : String} :
    (RedisOp.session t .get).exec w = (w.sessions t, w) := by
  simp [RedisOp.exec]

theorem exec_session_del {t : String} : ((RedisOp.session t .del).exec w).2 =
    { w with sessions := Function.update w.sessions t none } := by
  simp [RedisOp.exec]

theorem runs_deleteSessions {email : String} {tokens : List String} {o : Outcome AccountError Unit}
    (h : (deleteSessions email tokens).Runs Cmd.exec good w o w') :
    ∃ s, w' = { w with sessions := s } ∧ Thinned email w.sessions s ∧
      (o = .ok () → ∀ t ∈ tokens, s t ≠ some email) := by
  induction tokens generalizing w with
  | nil =>
    obtain ⟨-, rfl⟩ := h
    exact ⟨w'.sessions, rfl, .refl _ _, fun _ t ht => by cases ht⟩
  | cons token tokens ih =>
    rw [deleteSessions, runs_redis, exec_session_get] at h
    dsimp only at h
    rcases h with ⟨_, -, -, h⟩ | ⟨_, -, -, rfl, rfl⟩
    · split_ifs at h with hmine
      · rw [runs_redis, exec_session_del] at h
        rcases h with ⟨_, -, -, h⟩ | ⟨_, -, -, rfl, rfl⟩
        · obtain ⟨s, rfl, hthin, hgone⟩ := ih h
          have hfirst : Thinned email w.sessions (Function.update w.sessions token none) := by
            intro t
            by_cases ht : t = token
            · subst ht
              exact Or.inr ⟨hmine, Function.update_self ..⟩
            · exact Or.inl (Function.update_of_ne ht _ _)
          refine ⟨s, rfl, hfirst.trans hthin, fun ho t ht => ?_⟩
          rcases List.mem_cons.mp ht with rfl | ht
          · exact hthin.not_back (by simp)
          · exact hgone ho t ht
        · exact ⟨w'.sessions, rfl, .refl _ _, nofun⟩
      · obtain ⟨s, rfl, hthin, hgone⟩ := ih h
        refine ⟨s, rfl, hthin, fun ho t ht => ?_⟩
        rcases List.mem_cons.mp ht with rfl | ht
        · exact hthin.not_back hmine
        · exact hgone ho t ht
    · exact ⟨w'.sessions, rfl, .refl _ _, nofun⟩

/-- **The scan of the sessions.**  One that ends has seen the keys of every page. -/
theorem runs_sessionsScan {p : Pages} {email : String} {pages : ℕ} {cursor : String}
    {o : Outcome AccountError Unit}
    (h : (sessionsScan email pages cursor).Runs Cmd.exec (Paged p good) w o w') :
    ∃ s, w' = { w with sessions := s } ∧ Thinned email w.sessions s ∧
      (o = .ok () → ∀ n, ∀ t ∈ p.keysFrom .session n cursor, s t ≠ some email) := by
  induction pages generalizing w cursor with
  | zero =>
    obtain ⟨rfl, rfl⟩ := h
    exact ⟨w'.sessions, rfl, .refl _ _, fun h => by cases h⟩
  | succ pages ih =>
    obtain ⟨ch, ⟨-, hpage⟩, h⟩ := h
    have hpage := hpage _ _ rfl
    cases hf : ch.fails with
    | true =>
      simp only [Cmd.exec, hf, if_true] at h
      obtain ⟨rfl, rfl⟩ := h
      exact ⟨w'.sessions, rfl, .refl _ _, fun h => by cases h⟩
    | false =>
      simp only [Cmd.exec, hf, Bool.false_eq_true, if_false] at h
      rcases Prog.runs_bind.mp h with ⟨_, w₁, hdel, h⟩ | ⟨e, hdel, rfl⟩ | ⟨m, hdel, rfl⟩
      · obtain ⟨s, rfl, hthin, hgone⟩ := runs_deleteSessions hdel
        have hfirst : ∀ t ∈ (p .session cursor).2, s t ≠ some email := by
          rw [← hpage]
          exact hgone rfl
        split_ifs at h with hend
        · obtain ⟨rfl, rfl⟩ := h
          refine ⟨s, rfl, hthin, fun _ n t ht => ?_⟩
          cases n with
          | zero => cases ht
          | succ n =>
            rw [Pages.keysFrom, if_pos (by rw [← hpage]; exact hend), List.append_nil] at ht
            exact hfirst t ht
        · obtain ⟨s', rfl, hthin', hgone'⟩ := ih h
          refine ⟨s', rfl, hthin.trans hthin', fun ho n t ht => ?_⟩
          cases n with
          | zero => cases ht
          | succ n =>
            rw [Pages.keysFrom, if_neg (by rw [← hpage]; exact hend), List.mem_append] at ht
            rcases ht with ht | ht
            · exact hthin'.not_back (hfirst t ht)
            · refine hgone' ho n t ?_
              rw [← hpage] at ht
              exact ht
      · obtain ⟨s, rfl, hthin, -⟩ := runs_deleteSessions hdel
        exact ⟨s, rfl, hthin, fun h => by cases h⟩
      · obtain ⟨s, rfl, hthin, -⟩ := runs_deleteSessions hdel
        exact ⟨s, rfl, hthin, fun h => by cases h⟩

/-! ## Deleting an account -/

/-- A run that begins with a program that writes few families. -/
theorem runs_part {fs : List Family} {p : Edge ε α} {f : α → Edge ε β} {o : Outcome ε β}
    (hp : p.All (WritesOnly fs)) (h : (p >>= f).Runs Cmd.exec good w o w') :
    (∃ a w₁, p.Runs Cmd.exec good w (.ok a) w₁ ∧ (∀ g, g ∉ fs → SameFamily w w₁ g) ∧
        (f a).Runs Cmd.exec good w₁ o w') ∨
      (∀ b, o ≠ .ok b) ∧ ∀ g, g ∉ fs → SameFamily w w' g := by
  rcases Prog.runs_bind.mp h with ⟨a, w₁, hrun, h⟩ | ⟨e, hrun, rfl⟩ | ⟨m, hrun, rfl⟩
  · exact Or.inl ⟨a, w₁, hrun, fun g hg => runs_sameFamily hp hg hrun, h⟩
  · exact Or.inr ⟨nofun, fun g hg => runs_sameFamily hp hg hrun⟩
  · exact Or.inr ⟨nofun, fun g hg => runs_sameFamily hp hg hrun⟩

/-- A run that begins by reading an account. -/
theorem runs_readAccount_bind {email : String} {f : Option AccountRecord → Edge AccountError α}
    {o : Outcome AccountError α} (h : (readAccount email >>= f).Runs Cmd.exec good w o w') :
    (w.accounts email = none ∧ (f none).Runs Cmd.exec good w o w') ∨
      (∃ a, w.accounts email = some (.json a) ∧ (f (some a)).Runs Cmd.exec good w o w') ∨
      (∃ e, o = .err e) ∧ w' = w := by
  rw [readAccount, Prog.bind_assoc, runs_redis, exec_account_get] at h
  rcases h with ⟨_, -, -, h⟩ | ⟨_, -, -, rfl, rfl⟩
  · match hx : w.accounts email with
    | none =>
      rw [hx] at h
      exact Or.inl ⟨rfl, h⟩
    | some (.json a) =>
      rw [hx] at h
      exact Or.inr (Or.inl ⟨a, rfl, h⟩)
    | some (.corrupt text err) =>
      rw [hx] at h
      obtain ⟨rfl, rfl⟩ := h
      exact Or.inr (Or.inr ⟨⟨_, rfl⟩, rfl⟩)
  · exact Or.inr (Or.inr ⟨⟨_, rfl⟩, rfl⟩)

theorem exec_account_delete {email : String} : ((RedisOp.account email .del).exec w).2 =
    { w with accounts := Function.update w.accounts email none } := by
  simp [RedisOp.exec]

/-- What a deletion does before it comes to the sessions. -/
def deleteBelongings (cp : ControlPlane) (email : String) (pages : ℕ) : Edge AccountError Unit := do
  let machines ← Prog.attempt (cp.machinesOf email)
  cp.deleteMachines (machines.toOption.getD [])
  let invites ← Prog.attempt (invitesOf email pages)
  deleteInvites (invites.toOption.getD [])

theorem writes_deleteBelongings {email : String} {pages : ℕ} :
    (cp.deleteBelongings email pages).All (WritesOnly [.machine, .machineIndex, .invite]) := by
  refine (writes_machinesOf.attempt.mono (WritesOnly.mono (by simp))).bind fun _ => ?_
  refine (writes_deleteMachines.mono (WritesOnly.mono (by simp))).bind fun _ => ?_
  refine (writes_invitesOf.attempt.mono (WritesOnly.mono (by simp))).bind fun _ => ?_
  exact writes_deleteInvites.mono (WritesOnly.mono (by simp))

theorem accountDelete_eq {email : String} {pages : ℕ} : cp.accountDelete email pages = (do
    match ← readAccount (cp.normalizeEmail email) with
    | none => .throw .notFound
    | some _ => do
      cp.deleteBelongings (cp.normalizeEmail email) pages
      sessionsScan (cp.normalizeEmail email) pages "0"
      let _ ← redis (.account (cp.normalizeEmail email) .del)
      return ()) := by
  unfold accountDelete deleteBelongings
  refine congrArg (readAccount (cp.normalizeEmail email) >>= ·) (funext fun account => ?_)
  cases account with
  | none => rfl
  | some account => simp only [Prog.bind_assoc]

/-- **A deletion** leaves the other accounts and the tokens, thins the sessions of the account,
and when it succeeds the account and every session that the scan returned are gone. -/
theorem runs_accountDelete {p : Pages} {email : String} {pages : ℕ}
    {o : Outcome AccountError Unit}
    (h : (cp.accountDelete email pages).Runs Cmd.exec (Paged p good) w o w') :
    w'.verifies = w.verifies ∧ w'.resets = w.resets ∧
      Thinned (cp.normalizeEmail email) w.sessions w'.sessions ∧
      ((∀ u, o ≠ .ok u) ∧ w'.accounts = w.accounts ∨
        (∃ a, w.accounts (cp.normalizeEmail email) = some (.json a)) ∧
          w'.accounts = Function.update w.accounts (cp.normalizeEmail email) none ∧
          ∀ n, ∀ t ∈ p.keysFrom .session n "0",
            w'.sessions t ≠ some (cp.normalizeEmail email)) := by
  rw [accountDelete_eq] at h
  rcases runs_readAccount_bind h with ⟨-, h⟩ | ⟨a, ha, h⟩ | ⟨⟨e, rfl⟩, rfl⟩
  · obtain ⟨rfl, rfl⟩ := h
    exact ⟨rfl, rfl, .refl _ _, Or.inl ⟨nofun, rfl⟩⟩
  · rcases runs_part writes_deleteBelongings h with ⟨_, w₁, -, h₁, h⟩ | ⟨hnot, h₁⟩
    · have hverify : w₁.verifies = w.verifies := h₁ .verify (by simp)
      have hreset : w₁.resets = w.resets := h₁ .reset (by simp)
      have hsession : w₁.sessions = w.sessions := h₁ .session (by simp)
      have haccount : w₁.accounts = w.accounts := h₁ .account (by simp)
      rcases Prog.runs_bind.mp h with ⟨_, w₂, hscan, h⟩ | ⟨e, hscan, rfl⟩ | ⟨m, hscan, rfl⟩
      · obtain ⟨s, rfl, hthin, hgone⟩ := runs_sessionsScan hscan
        rw [hsession] at hthin
        rw [runs_redis, exec_account_delete] at h
        rcases h with ⟨_, -, -, rfl, rfl⟩ | ⟨_, -, -, rfl, rfl⟩
        · refine ⟨hverify, hreset, hthin, Or.inr ⟨⟨a, ha⟩, ?_, hgone rfl⟩⟩
          dsimp only
          rw [haccount]
        · exact ⟨hverify, hreset, hthin, Or.inl ⟨nofun, haccount⟩⟩
      · obtain ⟨s, rfl, hthin, -⟩ := runs_sessionsScan hscan
        rw [hsession] at hthin
        exact ⟨hverify, hreset, hthin, Or.inl ⟨nofun, haccount⟩⟩
      · obtain ⟨s, rfl, hthin, -⟩ := runs_sessionsScan hscan
        rw [hsession] at hthin
        exact ⟨hverify, hreset, hthin, Or.inl ⟨nofun, haccount⟩⟩
    · exact ⟨h₁ .verify (by simp), h₁ .reset (by simp),
        fun t => Or.inl (congrFun (h₁ .session (by simp)) t),
        Or.inl ⟨hnot, h₁ .account (by simp)⟩⟩
  · exact ⟨rfl, rfl, .refl _ _, Or.inl ⟨nofun, rfl⟩⟩

/-! ## The steps of the credentials -/

/-- The accounts, and what acts on them. -/
structure Credentials where
  accounts : String → Option (Stored AccountRecord)
  verifies : String → Option String
  resets : String → Option String
  sessions : String → Option String

def World.credentials (w : World) : Credentials := ⟨w.accounts, w.verifies, w.resets, w.sessions⟩

/-- The account operations. -/
def Call.managesAccount : Call → Bool
  | .accountSignup _ _ => true
  | .accountVerify _ => true
  | .accountLogin _ _ => true
  | .accountLogout _ => true
  | .resendVerification _ => true
  | .requestPasswordReset _ => true
  | .resetPassword _ _ => true
  | .accountDelete _ _ => true
  | _ => false

/-- The call consumes a token, and has not succeeded. -/
def Refused (call : Call) (o : Outcome EdgeError Reply) : Prop :=
  call.verifies = true ∨ call.resets = true → ∀ r, o ≠ .ok r

/-- What an account operation does to the accounts, the tokens and the sessions. -/
inductive Grants (cp : ControlPlane) (c : Credentials) :
    Call → Outcome EdgeError Reply → Credentials → Prop
  | nothing {call o} (hrefused : Refused call o) : Grants cp c call o c
  | signUp {email pw t a o} (hfree : c.accounts (cp.normalizeEmail email) = none)
      (hpending : a.status = .pending) :
      Grants cp c (.accountSignup email pw) o { c with
        accounts := Function.update c.accounts (cp.normalizeEmail email) (some (.json a))
        verifies := Function.update c.verifies t (some (cp.normalizeEmail email)) }
  | takeBack {email pw t o} (hfree : c.accounts (cp.normalizeEmail email) = none) :
      Grants cp c (.accountSignup email pw) o
        { c with verifies := Function.update c.verifies t none }
  | resend {email t a o} (hthere : c.accounts (cp.normalizeEmail email) = some (.json a)) :
      Grants cp c (.resendVerification email) o
        { c with verifies := Function.update c.verifies t (some (cp.normalizeEmail email)) }
  | request {email t x o} (hthere : c.accounts (cp.normalizeEmail email) = some x) :
      Grants cp c (.requestPasswordReset email) o
        { c with resets := Function.update c.resets t (some (cp.normalizeEmail email)) }
  | verify {t e a} (htoken : c.verifies t = some e) (hthere : c.accounts e = some (.json a)) :
      Grants cp c (.accountVerify t) (.ok .unit) { c with
        verifies := Function.update c.verifies t none
        accounts := Function.update c.accounts e (some (.json { a with status := .active })) }
  | spendVerify {t e o} (htoken : c.verifies t = some e) (hnot : ∀ r, o ≠ .ok r) :
      Grants cp c (.accountVerify t) o { c with verifies := Function.update c.verifies t none }
  | reset {t pw e a h} (htoken : c.resets t = some e) (hthere : c.accounts e = some (.json a)) :
      Grants cp c (.resetPassword t pw) (.ok .unit) { c with
        resets := Function.update c.resets t none
        accounts := Function.update c.accounts e (some (.json { a with passwordHash := h })) }
  | spendReset {t pw e o} (htoken : c.resets t = some e) (hnot : ∀ r, o ≠ .ok r) :
      Grants cp c (.resetPassword t pw) o { c with resets := Function.update c.resets t none }
  | logIn {email pw t a o} (hthere : c.accounts (cp.normalizeEmail email) = some (.json a)) :
      Grants cp c (.accountLogin email pw) o
        { c with sessions := Function.update c.sessions t (some (cp.normalizeEmail email)) }
  | logOut {t o} : Grants cp c (.accountLogout t) o
      { c with sessions := Function.update c.sessions t none }
  | thin {email pages s o} (hthin : Thinned (cp.normalizeEmail email) c.sessions s) :
      Grants cp c (.accountDelete email pages) o { c with sessions := s }
  | delete {email pages s o} (hthin : Thinned (cp.normalizeEmail email) c.sessions s)
      (hgone : ∀ t, s t ≠ some (cp.normalizeEmail email)) :
      Grants cp c (.accountDelete email pages) o { c with
        accounts := Function.update c.accounts (cp.normalizeEmail email) none
        sessions := s }

/-! ## The operations -/

section Operations

variable {o : Outcome AccountError Unit}

/-- The command that consumes a token takes it. -/
theorem exec_verify_getDel {t : String} : (RedisOp.verify t .getDel).exec w =
    (w.verifies t, { w with verifies := Function.update w.verifies t none }) := rfl

theorem exec_reset_getDel {t : String} : (RedisOp.reset t .getDel).exec w =
    (w.resets t, { w with resets := Function.update w.resets t none }) := rfl

/-- Hashing a password changes nothing. -/
theorem runs_hashPassword_bind {password : String} {f : String → Edge AccountError α}
    {o : Outcome AccountError α} (h : (cp.hashPassword password >>= f).Runs Cmd.exec good w o w') :
    (∃ hash, (f hash).Runs Cmd.exec good w o w') ∨ (∀ a, o ≠ .ok a) ∧ w' = w := by
  rw [hashPassword, Prog.bind_assoc] at h
  obtain ⟨salt, h⟩ := runs_fillBytes h
  cases hhash : cp.bcryptHash salt.1 password with
  | ok hash =>
    rw [hhash] at h
    exact Or.inl ⟨hash, h⟩
  | error e =>
    rw [hhash] at h
    obtain ⟨rfl, rfl⟩ := h
    exact Or.inr ⟨fun a h => (by cases h), rfl⟩

theorem grants_accountVerify {token : String}
    (h : (accountVerify token).Runs Cmd.exec Reliable w o w') :
    Grants cp w.credentials (.accountVerify token) (o.bimap .account fun _ => .unit)
      w'.credentials := by
  have hstop : ∀ {e : AccountError}, ∀ r,
      (Outcome.err e : Outcome AccountError Unit).bimap EdgeError.account (fun _ => Reply.unit) ≠
        .ok r := nofun
  rw [accountVerify, runs_redis_reliable, exec_verify_getDel] at h
  dsimp only at h
  cases hx : w.verifies token with
  | none =>
    rw [hx] at h
    obtain ⟨rfl, rfl⟩ := h
    have hsame : Function.update w.verifies token none = w.verifies :=
      hx ▸ Function.update_eq_self token w.verifies
    change Grants cp w.credentials _ _ ⟨_, Function.update w.verifies token none, _, _⟩
    rw [hsame]
    exact .nothing fun _ => hstop
  | some email =>
    rw [hx] at h
    rcases runs_readAccount_bind h with ⟨-, h⟩ | ⟨a, ha, h⟩ | ⟨⟨e, rfl⟩, rfl⟩
    · obtain ⟨rfl, rfl⟩ := h
      exact .spendVerify hx hstop
    · rw [runs_redis_last_reliable] at h
      obtain ⟨rfl, rfl⟩ := h
      exact .verify hx ha
    · exact .spendVerify hx hstop

theorem grants_resetPassword {token password : String}
    (h : (cp.resetPassword token password).Runs Cmd.exec Reliable w o w') :
    Grants cp w.credentials (.resetPassword token password) (o.bimap .account fun _ => .unit)
      w'.credentials := by
  have hstop : ∀ {o : Outcome AccountError Unit}, (∀ u, o ≠ .ok u) → ∀ r,
      o.bimap EdgeError.account (fun _ => Reply.unit) ≠ .ok r := by
    intro o hnot r hr
    cases o with
    | ok u => exact hnot u rfl
    | err e => cases hr
    | panic m => cases hr
  rcases runs_ofExcept.mp h with ⟨_, -, h⟩ | ⟨e, -, rfl, rfl⟩
  swap
  · exact .nothing fun _ => hstop nofun
  rw [runs_redis_reliable, exec_reset_getDel] at h
  dsimp only at h
  cases hx : w.resets token with
  | none =>
    rw [hx] at h
    obtain ⟨rfl, rfl⟩ := h
    have hsame : Function.update w.resets token none = w.resets :=
      hx ▸ Function.update_eq_self token w.resets
    change Grants cp w.credentials _ _ ⟨_, _, Function.update w.resets token none, _⟩
    rw [hsame]
    exact .nothing fun _ => hstop nofun
  | some email =>
    rw [hx] at h
    rcases runs_readAccount_bind h with ⟨-, h⟩ | ⟨a, ha, h⟩ | ⟨⟨e, rfl⟩, rfl⟩
    · obtain ⟨rfl, rfl⟩ := h
      exact .spendReset hx (hstop nofun)
    · rcases runs_hashPassword_bind h with ⟨hash, h⟩ | ⟨hnot, rfl⟩
      · rw [runs_redis_last_reliable] at h
        obtain ⟨rfl, rfl⟩ := h
        exact .reset hx ha
      · exact .spendReset hx (hstop hnot)
    · exact .spendReset hx (hstop nofun)

theorem grants_accountSignup {email password : String}
    (h : (cp.accountSignup email password).Runs Cmd.exec Reliable w o w') :
    Grants cp w.credentials (.accountSignup email password) (o.bimap .account fun _ => .unit)
      w'.credentials := by
  have hnothing : ∀ {o'}, Grants cp w.credentials (.accountSignup email password) o'
      w.credentials := .nothing fun h => by rcases h with h | h <;> cases h
  rcases runs_ofExcept.mp h with ⟨_, -, h⟩ | ⟨e, -, rfl, rfl⟩
  swap
  · exact hnothing
  rcases runs_ofExcept.mp h with ⟨_, -, h⟩ | ⟨e, -, rfl, rfl⟩
  swap
  · exact hnothing
  rw [runs_redis_reliable] at h
  have hlook : (RedisOp.account (cp.normalizeEmail email) .isThere).exec w =
      ((w.accounts (cp.normalizeEmail email)).isSome, w) := by simp [RedisOp.exec]
  rw [hlook] at h
  dsimp only at h
  cases hx : w.accounts (cp.normalizeEmail email) with
  | some x =>
    rw [hx] at h
    obtain ⟨rfl, rfl⟩ := h
    exact hnothing
  | none =>
    rw [hx] at h
    simp only [Option.isSome_none, Bool.false_eq_true, if_false] at h
    rcases runs_hashPassword_bind h with ⟨hash, h⟩ | ⟨-, rfl⟩
    swap
    · exact hnothing
    obtain ⟨bytes, h⟩ := runs_fillBytes h
    rw [runs_redis_reliable] at h
    obtain ⟨token, -, h⟩ := runs_randomTokenHex h
    rw [runs_redis_reliable] at h
    obtain ⟨sent, h⟩ := runs_send h
    cases sent with
    | ok u =>
      obtain ⟨rfl, rfl⟩ := h
      exact .signUp hx rfl
    | error err =>
      rw [runs_tryRedis, exec_account_delete, runs_tryRedis] at h
      obtain ⟨rfl, rfl⟩ := h
      have hverify : ∀ {t : String} {v : World}, ((RedisOp.verify t .del).exec v).2 =
          { v with verifies := Function.update v.verifies t none } := by
        intro t v
        simp [RedisOp.exec]
      rw [hverify]
      have hsame : Function.update w.accounts (cp.normalizeEmail email) none = w.accounts :=
        hx ▸ Function.update_eq_self _ w.accounts
      simp only [World.credentials, RedisOp.exec, Redis.exec_set, Redis.exec_setEx,
        Function.update_idem, hsame]
      exact .takeBack hx

theorem grants_accountLogin {email password : String} {o : Outcome AccountError String}
    (h : (cp.accountLogin email password).Runs Cmd.exec Reliable w o w') :
    Grants cp w.credentials (.accountLogin email password) (o.bimap .account .text)
      w'.credentials := by
  have hnothing : ∀ {o'}, Grants cp w.credentials (.accountLogin email password) o'
      w.credentials := .nothing fun h => by rcases h with h | h <;> cases h
  rcases runs_readAccount_bind h with ⟨-, h⟩ | ⟨a, ha, h⟩ | ⟨⟨e, rfl⟩, rfl⟩
  · obtain ⟨rfl, rfl⟩ := h
    exact hnothing
  · rcases runs_ofExcept.mp h with ⟨isRight, -, h⟩ | ⟨e, -, rfl, rfl⟩
    · split_ifs at h
      · obtain ⟨session, -, h⟩ := runs_randomTokenHex h
        rw [runs_redis_reliable] at h
        obtain ⟨rfl, rfl⟩ := h
        exact .logIn ha
      · obtain ⟨rfl, rfl⟩ := h
        exact hnothing
      · obtain ⟨rfl, rfl⟩ := h
        exact hnothing
    · exact hnothing
  · exact hnothing

theorem grants_resendVerification {email : String} {o : Outcome AccountError ResendVerifyOutcome}
    (h : (cp.resendVerification email).Runs Cmd.exec Reliable w o w') :
    Grants cp w.credentials (.resendVerification email) (o.bimap .account .resend)
      w'.credentials := by
  have hnothing : ∀ {o'}, Grants cp w.credentials (.resendVerification email) o'
      w.credentials := .nothing fun h => by rcases h with h | h <;> cases h
  rcases runs_readAccount_bind h with ⟨-, h⟩ | ⟨a, ha, h⟩ | ⟨⟨e, rfl⟩, rfl⟩
  · obtain ⟨rfl, rfl⟩ := h
    exact hnothing
  · dsimp only at h
    split_ifs at h
    · obtain ⟨rfl, rfl⟩ := h
      exact hnothing
    · obtain ⟨token, -, h⟩ := runs_randomTokenHex h
      rw [runs_redis_reliable] at h
      obtain ⟨sent, h⟩ := runs_send h
      cases sent <;> (obtain ⟨rfl, rfl⟩ := h; exact .resend ha)
  · exact hnothing

theorem grants_requestPasswordReset {email : String} {o : Outcome AccountError ResetOutcome}
    (h : (cp.requestPasswordReset email).Runs Cmd.exec Reliable w o w') :
    Grants cp w.credentials (.requestPasswordReset email) (o.bimap .account .reset)
      w'.credentials := by
  rw [requestPasswordReset, runs_redis_reliable] at h
  have hlook : (RedisOp.account (cp.normalizeEmail email) .isThere).exec w =
      ((w.accounts (cp.normalizeEmail email)).isSome, w) := by simp [RedisOp.exec]
  rw [hlook] at h
  dsimp only at h
  cases hx : w.accounts (cp.normalizeEmail email) with
  | none =>
    rw [hx] at h
    obtain ⟨rfl, rfl⟩ := h
    exact .nothing fun h => by rcases h with h | h <;> cases h
  | some x =>
    rw [hx] at h
    simp only [Option.isSome_some, if_true] at h
    obtain ⟨token, -, h⟩ := runs_randomTokenHex h
    rw [runs_redis_reliable] at h
    obtain ⟨sent, h⟩ := runs_send h
    cases sent <;> (obtain ⟨rfl, rfl⟩ := h; exact .request hx)

end Operations

/-- **Every account operation is a step of the credentials.** -/
theorem credentials_of_runs {p : Pages} {call : Call} (hcall : call.managesAccount = true)
    (hpages : p.Complete w) {o : Outcome EdgeError Reply}
    (h : (cp.body call).Runs Cmd.exec (Paged p Reliable) w o w') :
    Grants cp w.credentials call o w'.credentials := by
  cases call with
  | accountSignup email pw =>
    obtain ⟨o', hrun, rfl⟩ := Prog.runs_bimap.mp h
    exact grants_accountSignup (Paged.runs hrun)
  | accountVerify token =>
    obtain ⟨o', hrun, rfl⟩ := Prog.runs_bimap.mp h
    exact grants_accountVerify (Paged.runs hrun)
  | accountLogin email pw =>
    obtain ⟨o', hrun, rfl⟩ := Prog.runs_bimap.mp h
    exact grants_accountLogin (Paged.runs hrun)
  | accountLogout session =>
    obtain ⟨o', hrun, rfl⟩ := Prog.runs_bimap.mp h
    have hrun := Paged.runs hrun
    rw [accountLogout, runs_redis_reliable, exec_session_del] at hrun
    obtain ⟨rfl, rfl⟩ := hrun
    exact .logOut
  | resendVerification email =>
    obtain ⟨o', hrun, rfl⟩ := Prog.runs_bimap.mp h
    exact grants_resendVerification (Paged.runs hrun)
  | requestPasswordReset email =>
    obtain ⟨o', hrun, rfl⟩ := Prog.runs_bimap.mp h
    exact grants_requestPasswordReset (Paged.runs hrun)
  | resetPassword token pw =>
    obtain ⟨o', hrun, rfl⟩ := Prog.runs_bimap.mp h
    exact grants_resetPassword (Paged.runs hrun)
  | accountDelete email pages =>
    obtain ⟨o', hrun, rfl⟩ := Prog.runs_bimap.mp h
    obtain ⟨hverify, hreset, hthin, ⟨-, haccounts⟩ | ⟨-, haccounts, hgone⟩⟩ :=
      runs_accountDelete hrun
    · have hstep : w'.credentials = { w.credentials with sessions := w'.sessions } := by
        rw [World.credentials, hverify, hreset, haccounts]
        rfl
      rw [hstep]
      exact .thin hthin
    · have hstep : w'.credentials = { w.credentials with
          accounts := Function.update w.accounts (cp.normalizeEmail email) none
          sessions := w'.sessions } := by
        rw [World.credentials, hverify, hreset, haccounts]
        rfl
      rw [hstep]
      refine .delete hthin fun t => ?_
      by_cases ht : w.sessions t = none
      · exact hthin.not_back (by rw [ht]; exact nofun)
      · obtain ⟨n, hn⟩ := hpages.sessions t ht
        exact hgone n t hn
  | _ => cases hcall

end ControlPlane
end Cococoir
