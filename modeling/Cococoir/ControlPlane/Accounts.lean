import Cococoir.ControlPlane.Invites

/-!
# Account operations

An account is an email, a password hash and a status.  It begins pending, and a magic link that is
mailed to its address makes it active; the same way of mailing a token replaces a lost password.
This module has the operations on accounts as the source has them, each as the program of the
commands it issues: signup, the two links and what consumes them, login, sessions, and the
deletion of an account with everything that belongs to it.

## The dictionary

The operations keep their names from `account.rs`, in camel case: `account_signup` is
`accountSignup`, `reset_password` is `resetPassword`.  Four keys are used.  The account lies under
its normalized email and stays; a verify token and a reset token are keys that hold an email and
are taken with `GETDEL`, so that each works once; a session is a key that holds an email and
expires.  Lifetimes are written with the commands, and what expires is the concern of the modules
that run a clock.

The loops of the source are recursions over what is looped over: the machines, the invites, and
the scan of the session keys, which gets a bound on its pages since the cursor is the server's.

## What is decided elsewhere

Hashing and verifying a password, and what counts as a mailbox, are parameters of the control
plane; the bytes of a token are the environment's.  `validatePassword` refuses more than 72 bytes
because the hash does not read further; a panic of a program is an assertion of the source that it
would trip.
-/

namespace Cococoir
namespace ControlPlane

open Concurrency
open Concurrency.Prog (ofExcept expect mapErr attempt)

def VERIFY_TOKEN_TTL_SECS : ℕ := 24 * 60 * 60

def RESET_TOKEN_TTL_SECS : ℕ := 24 * 60 * 60

def SESSION_TTL_SECS : ℕ := 7 * 24 * 60 * 60

/-! ## Links and validation -/

def verifyLink (domain token : String) : String := s!"https://{domain}/verify?token={token}"

def resetLink (domain token : String) : String := s!"https://{domain}/reset?token={token}"

def verifyBody (link : String) : String :=
  s!"Verify your fortress account:\n\n{link}\n\nThis link expires in 24 hours."

def resetBody (link : String) : String :=
  s!"Reset your fortress password:\n\n{link}\n\nThis link expires in 24 hours."

variable (cp : ControlPlane)

def validateEmail (email : String) : Except AccountError Unit :=
  if cp.isMailbox email then .ok () else .error (.invalidEmail email)

def validatePassword (password : String) : Except AccountError Unit :=
  if password = "" then .error (.invalidPassword "empty")
  else if 72 < password.utf8ByteSize then
    .error (.invalidPassword "longer than bcrypt's 72-byte limit")
  else .ok ()

/-- Hash a password under a fresh salt. -/
def hashPassword (password : String) : Edge AccountError String := do
  let salt ← fillBytes 16
  match cp.bcryptHash salt.1 password with
  | .ok hash => return hash
  | .error _ => .panic "bcrypt cannot fail: password is non-empty and ≤72 bytes"

/-! ## The operations -/

/-- The account stored for an email, if it is there. -/
def readAccount (email : String) : Edge AccountError (Option AccountRecord) := do
  match ← redis (.account email .get) with
  | none => return none
  | some json => do
    let account ← ofExcept (accountFromJson json)
    return some account

/-- Create a pending account and mail its magic link; a link that is not sent undoes it. -/
def accountSignup (email password : String) : Edge AccountError Unit := do
  let email := cp.normalizeEmail email
  ofExcept (cp.validateEmail email)
  ofExcept (validatePassword password)
  let isTaken ← redis (.account email .isThere)
  if isTaken then .throw (.duplicateEmail email)
  else do
    let passwordHash ← cp.hashPassword password
    let bytes ← fillBytes 16
    let account : AccountRecord := ⟨cp.uuidV4 bytes.1, .pending, passwordHash, none⟩
    redis (.account email (.set (.json account)))
    let token ← randomTokenHex
    redis (.verify token (.setEx email VERIFY_TOKEN_TTL_SECS))
    match ← send email "Verify your fortress account" (verifyBody (verifyLink cp.rootDomain token))
      with
    | .ok _ => return ()
    | .error err => do
      let _ ← tryRedis (.account email .del)
      let _ ← tryRedis (.verify token .del)
      .throw (.mail err)

/-- Delete each machine, best effort. -/
def deleteMachines : List Machine → Edge AccountError Unit
  | [] => pure ()
  | machine :: rest => do
    let _ ← attempt (cp.delete machine.name)
    deleteMachines rest

/-- Delete the invites of an account. -/
def deleteInvites : List (String × InviteRecord) → Edge AccountError Unit
  | [] => pure ()
  | (code, _) :: rest => do
    let _ ← redis (.invite code .del)
    deleteInvites rest

/-- Delete the sessions of an account among the scanned ones. -/
def deleteSessions (email : String) : List String → Edge AccountError Unit
  | [] => pure ()
  | token :: rest => do
    let value ← redis (.session token .get)
    if value = some email then do
      let _ ← redis (.session token .del)
      deleteSessions email rest
    else deleteSessions email rest

/-- The scan of the sessions, at most `pages` pages of it. -/
def sessionsScan (email : String) : (pages : ℕ) → (cursor : String) → Edge AccountError Unit
  | 0, _ => .panic "the scan has more pages"
  | pages + 1, cursor => .cmd (.scan .session cursor) fun
    | .error e => .throw (.redis e)
    | .ok (next, tokens) => do
      deleteSessions email tokens
      if next = "0" then return () else sessionsScan email pages next

/-- Delete an account: its machines, invites and sessions, and the record last. -/
def accountDelete (email : String) (pages : ℕ) : Edge AccountError Unit := do
  let email := cp.normalizeEmail email
  match ← readAccount email with
  | none => .throw .notFound
  | some _ => do
    let machines ← attempt (cp.machinesOf email)
    cp.deleteMachines (machines.toOption.getD [])
    let invites ← attempt (invitesOf email pages)
    deleteInvites (invites.toOption.getD [])
    sessionsScan email pages "0"
    let _ ← redis (.account email .del)
    return ()

/-- Consume a verify token and activate its account. -/
def accountVerify (token : String) : Edge AccountError Unit := do
  match ← redis (.verify token .getDel) with
  | none => .throw .invalidToken
  | some email => do
    match ← readAccount email with
    | none => .throw .notFound
    | some account => redis (.account email (.set (.json { account with status := .active })))

/-- Log in: a session for the right password of an active account. -/
def accountLogin (email password : String) : Edge AccountError String := do
  let email := cp.normalizeEmail email
  match ← readAccount email with
  | none => .throw .invalidCredentials
  | some account => do
    let isRight ← ofExcept
      ((cp.bcryptVerify password account.passwordHash).mapError AccountError.corrupt)
    if isRight then
      if account.status = .active then do
        let session ← randomTokenHex
        redis (.session session (.setEx email SESSION_TTL_SECS))
        return session
      else .throw (.notVerified email)
    else .throw .invalidCredentials

def accountLogout (session : String) : Edge AccountError Unit := do
  let _ ← redis (.session session .del)
  return ()

/-- The email a session belongs to. -/
def sessionAccount (session : String) : Edge AccountError (Option String) :=
  redis (.session session .get)

/-- Mail a pending account a new verify link. -/
def resendVerification (email : String) : Edge AccountError ResendVerifyOutcome := do
  let email := cp.normalizeEmail email
  match ← readAccount email with
  | none => return .unknownEmail
  | some account =>
    if account.status = .active then return .alreadyActive
    else do
      let token ← randomTokenHex
      redis (.verify token (.setEx email VERIFY_TOKEN_TTL_SECS))
      match ← send email "Verify your fortress account"
        (verifyBody (verifyLink cp.rootDomain token)) with
      | .ok _ => return .sent
      | .error err => .throw (.mail err)

/-- Mail an account a reset link. -/
def requestPasswordReset (email : String) : Edge AccountError ResetOutcome := do
  let email := cp.normalizeEmail email
  let isKnown ← redis (.account email .isThere)
  if isKnown then do
    let token ← randomTokenHex
    redis (.reset token (.setEx email RESET_TOKEN_TTL_SECS))
    match ← send email "Reset your fortress password" (resetBody (resetLink cp.rootDomain token))
      with
    | .ok _ => return .sent
    | .error err => .throw (.mail err)
  else return .unknownEmail

/-- Consume a reset token and replace its account's password. -/
def resetPassword (token newPassword : String) : Edge AccountError Unit := do
  ofExcept (validatePassword newPassword)
  match ← redis (.reset token .getDel) with
  | none => .throw .invalidToken
  | some email => do
    match ← readAccount email with
    | none => .throw .notFound
    | some account => do
      let passwordHash ← cp.hashPassword newPassword
      redis (.account email (.set (.json { account with passwordHash := passwordHash })))

end ControlPlane
end Cococoir
