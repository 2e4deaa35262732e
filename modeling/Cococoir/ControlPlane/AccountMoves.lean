import Cococoir.ControlPlane.Writes

/-!
# What the account operations do to an account record

Signing up, verifying, resetting the password and deleting the account: the four operations
that write an account's record.  `AccountView` is what such a call has done to the record of
its email, and `AccountMove` says which commands it may issue next; all the rest of what the
operations do leaves the record and the view.

`AccountChecks` is what has to be checked of an assertion about the account records and the
views, and `AccountChecks.steps` derives the protocol rule from it.

## Two protocols, not one

The views of `ControlPlane.Moves` say nothing of accounts, and what is needed here is small: which
email a call works on, which record it stored for it, and whether it removed the record.  A
protocol of its own keeps both lists short, and a result about accounts does not depend on how an
allocation goes.  The largest operation, the deletion of an account, is nearly all *elsewhere*: a
program that writes neither accounts nor tokens leaves the view, and `conforms_elsewhere` takes it
in one step.

A signup needs the most care.  It stores its record before it mails the link, and takes it back if
the mail is not sent.  Between the two its view is open, and what another call does there is what
the results are about.
-/

namespace Cococoir
namespace ControlPlane

open Concurrency

/-! ## Views -/

/-- The calls that write account records. -/
def Call.settles : Call → Bool
  | .accountSignup _ _ => true
  | .accountVerify _ => true
  | .resetPassword _ _ => true
  | .accountDelete _ _ => true
  | _ => false

def Call.signsUp : Call → Bool
  | .accountSignup _ _ => true
  | _ => false

def Call.verifies : Call → Bool
  | .accountVerify _ => true
  | _ => false

def Call.resets : Call → Bool
  | .resetPassword _ _ => true
  | _ => false

def Call.deletesAccount : Call → Bool
  | .accountDelete _ _ => true
  | _ => false

/-- What a call has done to the account record of its email. -/
structure AccountView where
  call : Call
  /-- The email it works on; that of a token is known once the token is consumed. -/
  email : Option String
  /-- The record it stored. -/
  written : Option AccountRecord
  /-- It removed the record. -/
  removed : Bool

/-- The email a call names. -/
def Call.names (cp : ControlPlane) : Call → Option String
  | .accountSignup email _ => some (cp.normalizeEmail email)
  | .accountDelete email _ => some (cp.normalizeEmail email)
  | _ => none

def AccountView.init (cp : ControlPlane) (call : Call) : AccountView :=
  ⟨call, call.names cp, none, false⟩

def AccountView.next (v : AccountView) : (c : Cmd) → c.Resp → AccountView
  | .redis (.verify _ .getDel), .ok (some email) => { v with email := some email }
  | .redis (.reset _ .getDel), .ok (some email) => { v with email := some email }
  | .redis (.account _ (.set (.json a))), .ok _ => { v with written := some a }
  | .redis (.account _ .del), .ok _ => { v with removed := true }
  | _, _ => v

/-- The call has not stored its record yet, or it is one that goes on after that. -/
def AccountView.Open (v : AccountView) : Prop := v.written = none ∨ v.call.signsUp = true

variable (cp : ControlPlane)

/-- The record of a signup: pending, with the hash of its password and a new identity. -/
def IsSignup (call : Call) (a : AccountRecord) : Prop :=
  ∃ email password salt bytes, call = .accountSignup email password ∧
    cp.bcryptHash salt password = .ok a.passwordHash ∧ a.uuid = cp.uuidV4 bytes ∧
    a.status = .pending

/-- The hash is that of the call's new password. -/
def IsReset (call : Call) (hash : String) : Prop :=
  ∃ token password salt, call = .resetPassword token password ∧
    cp.bcryptHash salt password = .ok hash

/-- The commands a call may issue next. -/
inductive AccountMove : AccountView → Cmd → Prop
  /-- Whatever leaves account records and the view. -/
  | outside {v c} (hopen : v.Open) (hwrites : c.writes ≠ some .account)
      (hnext : ∀ r, v.next c r = v) : AccountMove v c
  | consumeVerify {v token} (hverifies : v.call.verifies = true) (hemail : v.email = none)
      (hnew : v.written = none) : AccountMove v (.redis (.verify token .getDel))
  | consumeReset {v token} (hresets : v.call.resets = true) (hemail : v.email = none)
      (hnew : v.written = none) : AccountMove v (.redis (.reset token .getDel))
  | create {v email a} (hsignup : IsSignup cp v.call a) (hemail : v.email = some email)
      (hnew : v.written = none) (hkept : v.removed = false) :
      AccountMove v (.redis (.account email (.set (.json a))))
  | undo {v email a} (hsigns : v.call.signsUp = true) (hemail : v.email = some email)
      (hwritten : v.written = some a) (hkept : v.removed = false) :
      AccountMove v (.redis (.account email .del))
  | activate {v email a} (hverifies : v.call.verifies = true) (hemail : v.email = some email)
      (hnew : v.written = none) (hactive : a.status = .active) :
      AccountMove v (.redis (.account email (.set (.json a))))
  | replace {v email a} (hreset : IsReset cp v.call a.passwordHash) (hemail : v.email = some email)
      (hnew : v.written = none) : AccountMove v (.redis (.account email (.set (.json a))))
  | drop {v email} (hdeletes : v.call.deletesAccount = true) (hemail : v.email = some email)
      (hnew : v.written = none) : AccountMove v (.redis (.account email .del))

/-- What a call that has returned has done. -/
def AccountSettled (v : AccountView) : Outcome EdgeError Reply → Prop
  | .ok _ =>
    v.email.isSome ∧
      (v.call.deletesAccount = true → v.removed = true) ∧
      (v.call.deletesAccount = false → v.written.isSome) ∧
      (v.call.signsUp = true → v.removed = false)
  | _ => v.Open

/-- The account operations as a protocol. -/
def accountMoves : Protocol Call Cmd Cmd.Resp AccountView where
  init := .init cp
  next := .next
  ok := AccountMove cp
  resp _ _ := True

variable {cp} {v : AccountView}

/-! ## The programs conform -/

/-- A program that writes neither accounts nor tokens leaves the view. -/
theorem conforms_elsewhere {ε α : Type} {fs : List Family} {p : Edge ε α}
    (hp : p.All (WritesOnly fs)) (hopen : v.Open)
    (hfs : Family.account ∉ fs ∧ Family.verify ∉ fs ∧ Family.reset ∉ fs) :
    (accountMoves cp).Conforms (fun v' _ => v' = v) p v := by
  refine Protocol.Conforms.of_all (hp.mono fun c hc => ?_)
  have hnext : ∀ r, v.next c r = v := by
    intro r
    unfold AccountView.next
    split
    · exact absurd (hc _ rfl) hfs.2.1
    · exact absurd (hc _ rfl) hfs.2.2
    · exact absurd (hc _ rfl) hfs.1
    · exact absurd (hc _ rfl) hfs.1
    · rfl
  exact ⟨.outside hopen (fun h => hfs.1 (hc _ h)) hnext, hnext⟩

/-- A read leaves the view. -/
theorem conforms_look {ε α : Type} [FromRedis ε] {op : RedisOp} {f : op.Resp → Edge ε α}
    {fin : AccountView → Outcome ε α → Prop} (hopen : v.Open) (hwrites : op.writes ≠ some .account)
    (hnext : ∀ r, v.next (.redis op) r = v)
    (hf : ∀ a, (accountMoves cp).Conforms fin (f a) v)
    (herr : ∀ e, fin v (.err (FromRedis.ofRedis e))) :
    (accountMoves cp).Conforms fin (redis op >>= f) v := by
  refine conforms_redis.mpr ⟨.outside hopen hwrites hnext, fun a _ => ?_, fun e _ => ?_⟩
  · exact (congrArg _ (hnext (.ok a))).mpr (hf a)
  · exact (congrArg (fun v => fin v _) (hnext (.error e))).mpr (herr e)

/-- Reading an account leaves the view. -/
theorem conforms_readAccount {α : Type} {email : String}
    {f : Option AccountRecord → Edge AccountError α}
    {fin : AccountView → Outcome AccountError α → Prop} (hopen : v.Open)
    (hf : ∀ a, (accountMoves cp).Conforms fin (f a) v) (herr : ∀ e, fin v (.err e))
    (hpanic : ∀ m, fin v (.panic m)) :
    (accountMoves cp).Conforms fin (readAccount email >>= f) v := by
  refine (conforms_elsewhere writes_readAccount hopen (by simp)).bind ?_ ?_ ?_
  · rintro _ a rfl
    exact hf a
  · rintro _ e rfl
    exact herr e
  · rintro _ m rfl
    exact hpanic m

/-- Hashing a password leaves the view. -/
theorem conforms_hashPassword {α : Type} {password : String} {f : String → Edge AccountError α}
    {fin : AccountView → Outcome AccountError α → Prop} (hopen : v.Open)
    (hf : ∀ salt hash, cp.bcryptHash salt password = .ok hash →
      (accountMoves cp).Conforms fin (f hash) v) (hpanic : ∀ m, fin v (.panic m)) :
    (accountMoves cp).Conforms fin (cp.hashPassword password >>= f) v := by
  rw [hashPassword, Prog.bind_assoc]
  refine Protocol.conforms_issue.mpr ⟨.outside hopen (by simp [Cmd.writes]) fun _ => rfl, ?_⟩
  intro salt _
  cases hhash : cp.bcryptHash salt.1 password with
  | ok hash => exact hf salt.1 hash hhash
  | error e => exact hpanic _

/-- What an operation of accounts leaves when it has returned. -/
def AccountEnd (v : AccountView) (o : Outcome AccountError Unit) : Prop :=
  AccountSettled v (o.bimap .account fun _ => .unit)

theorem conforms_accountVerify {token : String} :
    (accountMoves cp).Conforms AccountEnd (accountVerify token)
      (.init cp (.accountVerify token)) := by
  have hopen : ∀ {email}, AccountView.Open ⟨.accountVerify token, email, none, false⟩ := Or.inl rfl
  refine conforms_redis.mpr ⟨.consumeVerify rfl rfl rfl, fun email _ => ?_, fun e _ => hopen⟩
  cases email with
  | none => exact hopen
  | some email =>
    refine conforms_readAccount hopen (fun account => ?_) (fun _ => hopen) fun _ => hopen
    cases account with
    | none => exact hopen
    | some account =>
      refine conforms_redis_last.mpr ⟨.activate rfl rfl rfl rfl, fun _ _ => ?_, fun e _ => hopen⟩
      exact ⟨rfl, nofun, fun _ => rfl, nofun⟩

theorem conforms_resetPassword {token password : String} :
    (accountMoves cp).Conforms AccountEnd (cp.resetPassword token password)
      (.init cp (.resetPassword token password)) := by
  have hopen : ∀ {email}, AccountView.Open ⟨.resetPassword token password, email, none, false⟩ :=
    Or.inl rfl
  refine conforms_ofExcept.mpr ⟨fun _ _ => ?_, fun e _ => hopen⟩
  refine conforms_redis.mpr ⟨.consumeReset rfl rfl rfl, fun email _ => ?_, fun e _ => hopen⟩
  cases email with
  | none => exact hopen
  | some email =>
    refine conforms_readAccount hopen (fun account => ?_) (fun _ => hopen) fun _ => hopen
    cases account with
    | none => exact hopen
    | some account =>
      refine conforms_hashPassword hopen (fun salt hash hhash => ?_) fun _ => hopen
      refine conforms_redis_last.mpr
        ⟨.replace ⟨_, _, salt, rfl, hhash⟩ rfl rfl, fun _ _ => ?_, fun e _ => hopen⟩
      exact ⟨rfl, nofun, fun _ => rfl, nofun⟩

/-- Where a signup stands once it has stored its record, and after the rollback. -/
theorem conforms_accountSignup {email password : String} :
    (accountMoves cp).Conforms AccountEnd (cp.accountSignup email password)
      (.init cp (.accountSignup email password)) := by
  have hopen : ∀ {e a b}, AccountView.Open ⟨.accountSignup email password, e, a, b⟩ := Or.inr rfl
  refine conforms_ofExcept.mpr ⟨fun _ _ => ?_, fun e _ => hopen⟩
  refine conforms_ofExcept.mpr ⟨fun _ _ => ?_, fun e _ => hopen⟩
  refine conforms_look hopen (by simp [RedisOp.writes, reads]) (fun _ => rfl) (fun isTaken => ?_)
    fun e => hopen
  cases isTaken with
  | true => exact hopen
  | false =>
    refine conforms_hashPassword hopen (fun salt hash hhash => ?_) fun _ => hopen
    refine Protocol.conforms_issue.mpr
      ⟨.outside hopen (by simp [Cmd.writes]) fun _ => rfl, fun bytes _ => ?_⟩
    refine conforms_redis.mpr ⟨.create ⟨_, _, salt, bytes.1, rfl, hhash, rfl, rfl⟩ rfl rfl rfl,
      fun _ _ => ?_, fun e _ => hopen⟩
    refine Protocol.conforms_issue.mpr
      ⟨.outside hopen (by simp [Cmd.writes]) fun _ => rfl, fun token _ => ?_⟩
    refine conforms_redis.mpr ⟨.outside hopen (by simp [Cmd.writes, RedisOp.writes, reads])
      fun _ => rfl, fun _ _ => ?_, fun e _ => hopen⟩
    refine Protocol.conforms_issue.mpr
      ⟨.outside hopen (by simp [Cmd.writes]) fun _ => rfl, fun sent _ => ?_⟩
    cases sent with
    | ok u => exact ⟨rfl, nofun, fun _ => rfl, fun _ => rfl⟩
    | error err =>
      refine Protocol.conforms_issue.mpr ⟨.undo rfl rfl rfl rfl, fun r _ => ?_⟩
      refine Protocol.conforms_issue.mpr ⟨?_, fun r' _ => ?_⟩
      · cases r <;> exact .outside hopen (by simp [Cmd.writes, RedisOp.writes, reads]) fun _ => rfl
      · cases r <;> exact hopen

theorem conforms_accountDelete {email : String} {pages : ℕ} :
    (accountMoves cp).Conforms AccountEnd (cp.accountDelete email pages)
      (.init cp (.accountDelete email pages)) := by
  have hopen : ∀ {e b}, AccountView.Open ⟨.accountDelete email pages, e, none, b⟩ := Or.inl rfl
  -- whatever part writes no account and no token leaves the view
  have helsewhere : ∀ {α : Type} {fs : List Family} {p : Edge AccountError α}
      {f : α → Edge AccountError Unit}, p.All (WritesOnly fs) →
      (Family.account ∉ fs ∧ Family.verify ∉ fs ∧ Family.reset ∉ fs) →
      (∀ a, (accountMoves cp).Conforms AccountEnd (f a) (.init cp (.accountDelete email pages))) →
      (accountMoves cp).Conforms AccountEnd (p >>= f) (.init cp (.accountDelete email pages)) := by
    intro α fs p f hp hfs hf
    refine (conforms_elsewhere hp hopen hfs).bind ?_ ?_ ?_
    · rintro _ a rfl
      exact hf a
    · rintro _ e rfl
      exact hopen
    · rintro _ m rfl
      exact hopen
  refine conforms_readAccount hopen (fun account => ?_) (fun _ => hopen) fun _ => hopen
  cases account with
  | none => exact hopen
  | some account =>
    refine helsewhere writes_machinesOf.attempt (by simp) fun machines => ?_
    refine helsewhere writes_deleteMachines (by simp) fun _ => ?_
    refine helsewhere writes_invitesOf.attempt (by simp) fun invites => ?_
    refine helsewhere writes_deleteInvites (by simp) fun _ => ?_
    refine helsewhere writes_sessionsScan (by simp) fun _ => ?_
    refine conforms_redis.mpr ⟨.drop rfl rfl rfl, fun _ _ => ?_, fun e _ => hopen⟩
    exact ⟨rfl, fun _ => rfl, nofun, nofun⟩

/-- **The account operations conform.** -/
theorem body_accountMoves {call : Call} (h : call.settles = true) :
    (accountMoves cp).Conforms AccountSettled (cp.body call) (.init cp call) := by
  cases call with
  | accountSignup email pw => exact conforms_accountSignup.bimap fun _ _ h => h
  | accountVerify token => exact conforms_accountVerify.bimap fun _ _ h => h
  | resetPassword token pw => exact conforms_resetPassword.bimap fun _ _ h => h
  | accountDelete email pages => exact conforms_accountDelete.bimap fun _ _ h => h
  | _ => cases h

/-! ## The rule -/

variable (cp) in
/-- What a call in progress has done to its account. -/
def accountView (t : Handler) : AccountView :=
  t.log.foldl (fun v e => v.next e.1 e.2) (.init cp t.call)

variable (cp) in
def accountViews (σ : Server) : List AccountView := σ.pool.map (accountView cp)

theorem accountNext_call (v : AccountView) (c : Cmd) (r : c.Resp) :
    (v.next c r).call = v.call := by
  unfold AccountView.next
  split <;> rfl

theorem accountView_call (t : Handler) : (accountView cp t).call = t.call := by
  suffices h : ∀ (l : List (Σ c : Cmd, c.Resp)) (v : AccountView),
      (l.foldl (fun v e => v.next e.1 e.2) v).call = v.call from h t.log _
  intro l
  induction l with
  | nil => exact fun v => rfl
  | cons e l ih => exact fun v => (ih _).trans (accountNext_call v e.1 e.2)

theorem mem_accountViews {σ : Server} {t : Handler} (h : t ∈ σ.pool) :
    accountView cp t ∈ accountViews cp σ := List.mem_map_of_mem h

theorem getElem?_accountViews {σ : Server} {i : ℕ} {t : Handler} (h : σ.pool[i]? = some t) :
    (accountViews cp σ)[i]? = some (accountView cp t) :=
  Protocol.getElem?_states (P := accountMoves cp) h

/-- What has to be checked of an assertion `I` about the account records and the views. -/
structure AccountChecks (cp : ControlPlane) (allowed : Server → Tick → Prop)
    (I : World → List AccountView → Prop) : Prop where
  settles : ∀ σ call, allowed σ (.start call) → call.settles = true
  start : ∀ σ call, allowed σ (.start call) → I σ.world (accountViews cp σ) →
    I σ.world (accountViews cp σ ++ [.init cp call])
  frame : ∀ {w w' : World} {vs : List AccountView}, w'.accounts = w.accounts → I w vs → I w' vs
  consume : ∀ {w : World} {vs : List AccountView} {i : ℕ} {v : AccountView} (email : String),
    vs[i]? = some v → (v.call.verifies = true ∨ v.call.resets = true) → v.written = none →
      I w vs → I w (vs.set i { v with email := some email })
  write : ∀ (σ : Server) (i : ℕ) (ch : Choice) (t : Handler) (email : String) (a : AccountRecord),
    allowed σ (.step i ch) → σ.pool[i]? = some t →
    t.pending = some (.redis (.account email (.set (.json a)))) →
    AccountMove cp (accountView cp t) (.redis (.account email (.set (.json a)))) →
    I σ.world (accountViews cp σ) →
    I { σ.world with accounts := Function.update σ.world.accounts email (some (.json a)) }
      ((accountViews cp σ).set i { accountView cp t with written := some a })
  drop : ∀ (σ : Server) (i : ℕ) (ch : Choice) (t : Handler) (email : String),
    allowed σ (.step i ch) → σ.pool[i]? = some t →
    t.pending = some (.redis (.account email .del)) →
    AccountMove cp (accountView cp t) (.redis (.account email .del)) →
    I σ.world (accountViews cp σ) →
    I { σ.world with accounts := Function.update σ.world.accounts email none }
      ((accountViews cp σ).set i { accountView cp t with removed := true })

theorem exec_account_del {w : World} {email : String} :
    ((RedisOp.account email .del).exec w).2 =
      { w with accounts := Function.update w.accounts email none } := by
  simp [RedisOp.exec]

theorem accountNext_error (v : AccountView) (op : RedisOp) (e : RedisError) :
    v.next (.redis op) (.error e) = v := by
  cases op with
  | account email op =>
    cases op with
    | set x => cases x <;> rfl
    | _ => rfl
  | verify token op => cases op <;> rfl
  | reset token op => cases op <;> rfl
  | _ => rfl

/-- **The rule.**  A checked assertion is kept by every admitted schedule. -/
theorem AccountChecks.steps {allowed : Server → Tick → Prop}
    {I : World → List AccountView → Prop} (h : AccountChecks cp allowed I) :
    Protocol.Steps (accountMoves cp) Cmd.exec cp.body allowed AccountSettled I where
  conforms σ call hcall := body_accountMoves (h.settles σ call hcall)
  start σ call hcall hI := h.start σ call hcall hI
  step σ i ch t c k hallowed hi ht hok hI := by
    refine ⟨trivial, ?_⟩
    have hvi : (accountViews cp σ)[i]? = some (accountView cp t) := getElem?_accountViews hi
    have hpend : t.pending = some c := by rw [Thread.pending, ht]
    change I (Cmd.exec ch c σ.world).2
      ((accountViews cp σ).set i ((accountView cp t).next c (Cmd.exec ch c σ.world).1))
    change AccountMove cp (accountView cp t) c at hok
    -- a command that fails changes nothing
    have hredis : ∀ op, c = .redis op →
        I (op.exec σ.world).2 ((accountViews cp σ).set i
          ((accountView cp t).next (.redis op) (.ok (op.exec σ.world).1))) →
        I (Cmd.exec ch c σ.world).2
          ((accountViews cp σ).set i ((accountView cp t).next c (Cmd.exec ch c σ.world).1)) := by
      rintro op rfl hsucceeds
      rcases exec_redis_cases ch op σ.world with he | he
      · rw [he, accountNext_error, set_same hvi]
        exact hI
      · rw [he]
        exact hsucceeds
    cases hok with
    | outside hopen hwrites hnext =>
      rw [hnext, set_same hvi]
      exact h.frame (exec_of_writes hwrites ch σ.world) hI
    | @consumeVerify token hverifies hemail hnew =>
      refine hredis _ rfl (h.frame (w := σ.world) rfl ?_)
      change I σ.world ((accountViews cp σ).set i ((accountView cp t).next
        (.redis (.verify token .getDel)) (Except.ok (σ.world.verifies token))))
      cases σ.world.verifies token with
      | none => exact (set_same hvi).symm ▸ hI
      | some email => exact h.consume email hvi (Or.inl hverifies) hnew hI
    | @consumeReset token hresets hemail hnew =>
      refine hredis _ rfl (h.frame (w := σ.world) rfl ?_)
      change I σ.world ((accountViews cp σ).set i ((accountView cp t).next
        (.redis (.reset token .getDel)) (Except.ok (σ.world.resets token))))
      cases σ.world.resets token with
      | none => exact (set_same hvi).symm ▸ hI
      | some email => exact h.consume email hvi (Or.inr hresets) hnew hI
    | create hsignup hemail hnew hkept =>
      exact hredis _ rfl (h.write σ i ch t _ _ hallowed hi hpend
        (.create hsignup hemail hnew hkept) hI)
    | activate hverifies hemail hnew hactive =>
      exact hredis _ rfl (h.write σ i ch t _ _ hallowed hi hpend
        (.activate hverifies hemail hnew hactive) hI)
    | replace hreset hemail hnew =>
      exact hredis _ rfl (h.write σ i ch t _ _ hallowed hi hpend
        (.replace hreset hemail hnew) hI)
    | undo hsigns hemail hwritten hkept =>
      refine hredis _ rfl ?_
      rw [exec_account_del]
      exact h.drop σ i ch t _ hallowed hi hpend (.undo hsigns hemail hwritten hkept) hI
    | drop hdeletes hemail hnew =>
      refine hredis _ rfl ?_
      rw [exec_account_del]
      exact h.drop σ i ch t _ hallowed hi hpend (.drop hdeletes hemail hnew) hI

/-- The call has returned, and not an error. -/
def Succeeded (t : Handler) : Bool :=
  match t.result with
  | some (.ok _) => true
  | _ => false

section Ends

variable {I : World → List AccountView → Prop} {σ : Server} {t : Handler}

/-- What a call that succeeded has done. -/
theorem settled_of_succeeded (h : Protocol.Keeps (accountMoves cp) AccountSettled I σ)
    (ht : t ∈ σ.pool) (hs : Succeeded t = true) :
    ∃ reply, AccountSettled (accountView cp t) (.ok reply) := by
  unfold Succeeded at hs
  split at hs
  · rename_i reply hr
    exact ⟨reply, h.fin_of_result ht hr⟩
  · cases hs

/-- A verification or a reset that stored its record has succeeded. -/
theorem succeeded_of_written (h : Protocol.Keeps (accountMoves cp) AccountSettled I σ)
    (ht : t ∈ σ.pool) (hcall : t.call.signsUp = false)
    (hw : (accountView cp t).written.isSome = true) : Succeeded t = true := by
  have hnot : ¬(accountView cp t).Open := by
    rintro (hn | hs)
    · rw [hn] at hw
      cases hw
    · rw [accountView_call, hcall] at hs
      cases hs
  have hnew : (accountView cp t).written ≠ none := fun hn => hnot (Or.inl hn)
  have hc := h.conforms t ht
  cases hp : t.prog with
  | done o =>
    rw [hp] at hc
    cases o with
    | ok reply => simp [Succeeded, Thread.result, hp]
    | err e => exact absurd hc hnot
    | panic m => exact absurd hc hnot
  | cmd c k =>
    rw [hp] at hc
    cases hc.1 with
    | outside hopen _ _ => exact absurd hopen hnot
    | undo hsigns _ _ _ => exact absurd (Or.inr hsigns) hnot
    | consumeVerify _ _ h => exact absurd h hnew
    | consumeReset _ _ h => exact absurd h hnew
    | create _ _ h _ => exact absurd h hnew
    | activate _ _ h _ => exact absurd h hnew
    | replace _ _ h => exact absurd h hnew
    | drop _ _ h => exact absurd h hnew

end Ends

/-- What an admitted schedule of account operations from `w` ends in. -/
theorem AccountChecks.run {allowed : Server → Tick → Prop} {I : World → List AccountView → Prop}
    (h : AccountChecks cp allowed I) {w : World} (hI : I w []) {ticks : List Tick}
    (hadm : Server.Admissible cp allowed ⟨w, []⟩ ticks) :
    Protocol.Keeps (accountMoves cp) AccountSettled I (Server.run cp ⟨w, []⟩ ticks) :=
  h.steps.run_keeps (Protocol.keeps_nil hI) hadm

end ControlPlane
end Cococoir
