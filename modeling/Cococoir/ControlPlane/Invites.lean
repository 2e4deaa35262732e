import Cococoir.ControlPlane.Machines

/-!
# Invite operations

An invite lets a machine in.  Its owner creates it and passes its code on; a machine begins it
with its public key and polls; the owner approves the waiting machine under a name, or denies it;
the next poll hands out the machine's payload, once.  The payload has a device token, with which
the machine may change its key later on.

## The life of an invite

The record's status goes from dormant to waiting at a begin, and from there to approved or denied.
A begin of a dormant or waiting invite takes the place of the one before, so the last machine
that dialled is the one that waits.  A begin of an approved invite is let through only with the
key that was approved: it draws a new token and stores the payload again, which is how a box that
lost its answer gets another, `rearmDelivery`.  An invite that is dormant or waiting can be
revoked, and a denied one is never begun again.

## The dictionary

The operations are those of `pairing.rs` under their own names.  Two keys belong to a code: the
invite's record, written with a lifetime of 30 days, and the delivery, written with one day and
taken with `GETDEL`.  The account's operations check that the invite is theirs before they look at
its status (`readOwnInvite`); the machine's two, begin and poll, need the code only.

Randomness comes in bytes: a code is drawn by reducing each word's bytes modulo the length of the
list, and a token is 32 bytes in hex.  What is stored of a token is its hash.
-/

namespace Cococoir
namespace ControlPlane

open Concurrency
open Concurrency.Prog (ofExcept expect mapErr)

def INVITE_TTL_SECS : ℕ := 30 * 24 * 60 * 60

def DELIVERY_TTL_SECS : ℕ := 24 * 60 * 60

/-- Invite codes are this many words, joined by hyphens. -/
def CODE_WORDS : ℕ := 4

/-! ## Tokens and codes -/

/-- Two lowercase hexadecimal digits per byte. -/
def hexEncode (bytes : List UInt8) : String :=
  String.ofList (bytes.flatMap fun b =>
    [Nat.digitChar (b.toNat / 16), Nat.digitChar (b.toNat % 16)])

/-- A 32-byte random token, in hex. -/
def randomTokenHex {ε : Type} : Edge ε String := do
  let bytes ← fillBytes 32
  return hexEncode bytes.1

/-- A number from its bytes, least significant first. -/
def fromLeBytes : List UInt8 → ℕ
  | [] => 0
  | b :: bytes => b.toNat + 256 * fromLeBytes bytes

variable (cp : ControlPlane)

/-- What is stored of a device token. -/
def tokenHash (token : String) : String := hexEncode (cp.sha256 token)

/-- `n` random words of the list. -/
def randomWords {ε : Type} : (n : ℕ) → Edge ε (List String)
  | 0 => pure []
  | n + 1 => do
    let bytes ← fillBytes 8
    let word ← expect "index out of bounds"
      (cp.words[fromLeBytes bytes.1 % cp.words.length]?)
    let words ← randomWords n
    return word :: words

/-- A random invite code. -/
def randomInviteCode {ε : Type} : Edge ε String := do
  let words ← cp.randomWords CODE_WORDS
  return "-".intercalate words

/-- The lowercased code, if it is four words of the list. -/
@[irreducible] def canonicalInviteCode (code : String) : Option String :=
  let lowered := String.ofList (code.toList.map Char.toLower)
  let words := (lowered.toList.splitOn '-').map String.ofList
  if words.length = CODE_WORDS ∧ ∀ word ∈ words, word ∈ cp.words then some lowered else none

/-- The canonical code, or the error that it is none. -/
def canonical (code : String) : Except InviteError String :=
  match cp.canonicalInviteCode code with
  | some code => .ok code
  | none => .error (.invalidCode code)

/-! ## Reading an invite -/

/-- The record stored for a code, which must be there and decode. -/
def readInvite (code : String) : Edge InviteError InviteRecord := do
  match ← redis (.invite code .get) with
  | none => .throw (.unknown code)
  | some json => ofExcept (recordFromJson code json)

/-- The same, for an operation of the inviting account. -/
def readOwnInvite (email code : String) : Edge InviteError InviteRecord := do
  let record ← readInvite code
  if record.ownerEmail = email then return record else .throw (.forbidden code)

/-- What the owner may still decide: a machine waits. -/
def requireWaiting (code : String) : InviteStatus → Except InviteError Unit
  | .dormant => .error (.notBegun code)
  | .waiting => .ok ()
  | .approved | .denied => .error (.notWaiting code)

/-! ## The account behind an email -/

/-- The whitespace that `trim` removes. -/
def isWhitespace (c : Char) : Bool :=
  c.toNat ∈ [0x09, 0x0a, 0x0b, 0x0c, 0x0d, 0x20, 0x85, 0xa0, 0x1680, 0x2000, 0x2001, 0x2002,
    0x2003, 0x2004, 0x2005, 0x2006, 0x2007, 0x2008, 0x2009, 0x200a, 0x2028, 0x2029, 0x202f,
    0x205f, 0x3000]

def trim (s : String) : String :=
  String.ofList ((s.toList.dropWhile isWhitespace).reverse.dropWhile isWhitespace).reverse

/-- `email.trim().to_lowercase()` -/
def normalizeEmail (email : String) : String := cp.toLowercase (trim email)

/-- The account's UUID; `none` for an unknown email. -/
def accountUuid (email : String) : Edge AccountError (Option String) := do
  match ← redis (.account (cp.normalizeEmail email) .get) with
  | none => return none
  | some json => do
    let account ← ofExcept (accountFromJson json)
    return some account.uuid

/-! ## The operations -/

/-- Create an invite under the first of `retries` random codes that is free. -/
def inviteCreateFrom (email : String) : (retries : ℕ) → Edge InviteError String
  | 0 => .panic "32^10 collisions 16 times in a row is not a real probability"
  | retries + 1 => do
    let code ← cp.randomInviteCode
    let record : InviteRecord := ⟨email, .dormant, none⟩
    let set ← redis (.invite code (.setNxEx (.json record) INVITE_TTL_SECS))
    if set then return code else inviteCreateFrom email retries

def inviteCreate (email : String) : Edge InviteError String := cp.inviteCreateFrom email 16

/-- The account's machines, in allocation order. -/
def machinesOf (email : String) : Edge InviteError (List Machine) := do
  match ← mapErr .account (cp.accountUuid email) with
  | none => return []
  | some uuid => do
    let machines ← mapErr .ofControlPlane list
    return machines.filter fun m => m.owner = some uuid

/-- The invites of `email` among the scanned codes. -/
def invitesFrom (email : String) : List String → Edge InviteError (List (String × InviteRecord))
  | [] => pure []
  | code :: rest => do
    match ← redis (.invite code .get) with
    | none => invitesFrom email rest
    | some json => do
      let record ← ofExcept (recordFromJson code json)
      let invites ← invitesFrom email rest
      return if record.ownerEmail = email then (code, record) :: invites else invites

/-- The scan of the invites, at most `pages` pages of it. -/
def invitesScan (email : String) :
    (pages : ℕ) → (cursor : String) → Edge InviteError (List (String × InviteRecord))
  | 0, _ => .panic "the scan has more pages"
  | pages + 1, cursor => .cmd (.scan .invite cursor) fun
    | .error e => .throw (.redis e)
    | .ok (next, codes) => do
      let invites ← invitesFrom email codes
      if next = "0" then return invites
      else do
        let rest ← invitesScan email pages next
        return invites ++ rest

/-- The invites of the account that are still stored. -/
def invitesOf (email : String) (pages : ℕ) : Edge InviteError (List (String × InviteRecord)) :=
  invitesScan email pages "0"

/-- Revoke a dormant or waiting invite. -/
def inviteRevoke (email code : String) : Edge InviteError Unit := do
  let code ← ofExcept (cp.canonical code)
  let record ← readOwnInvite email code
  match record.status with
  | .dormant | .waiting => do
    let _ ← redis (.invite code .del)
    return ()
  | .approved | .denied => .throw (.notWaiting code)

/-- Attach a fresh device token to a machine and store its one-time payload. -/
def issueToken (code : String) (machine : Machine) : Edge InviteError Unit := do
  let deviceToken ← randomTokenHex
  let enrolled := { machine with deviceTokenHash := some (cp.tokenHash deviceToken) }
  mapErr .ofControlPlane (storeMachine enrolled)
  redis (.delivery code (.setEx (.json ⟨enrolled, deviceToken⟩) DELIVERY_TTL_SECS))

/-- Re-arm the one-time delivery of an approved invite. -/
def rearmDelivery (code : String) (record : InviteRecord) : Edge InviteError Unit := do
  let pubkey ← expect "approved invite carries a device pubkey" record.devicePubkey
  let machines ← mapErr .ofControlPlane list
  let machine ← expect "an approved invite's machine exists"
    (machines.find? fun m => m.wgPublicKey = pubkey)
  cp.issueToken code machine

/-- A machine dials the invite with its public key. -/
def inviteBegin (code publicKey : String) : Edge InviteError PollOutcome := do
  let code ← ofExcept (cp.canonical code)
  match cp.validateWgPubkey publicKey with
  | .error _ => .throw (.invalidPubkey publicKey)
  | .ok _ => do
    let record ← readInvite code
    match record.status with
    | .approved =>
      if record.devicePubkey = some publicKey then do
        cp.rearmDelivery code record
        return .bare "approved"
      else .throw (.notWaiting code)
    | .denied => .throw (.notWaiting code)
    | .dormant | .waiting => do
      let begun := { record with devicePubkey := some publicKey, status := .waiting }
      redis (.invite code (.setEx (.json begun) INVITE_TTL_SECS))
      return .bare "waiting"

/-- A machine polls the invite; an approved one gives its payload away, once. -/
def invitePoll (code : String) : Edge InviteError PollOutcome := do
  let code ← ofExcept (cp.canonical code)
  let record ← readInvite code
  match record.status with
  | .dormant => return .bare "dormant"
  | .waiting => return .bare "waiting"
  | .denied => return .bare "denied"
  | .approved => do
    match ← redis (.delivery code .getDel) with
    | none => return .bare "approved"
    | some payload => do
      let delivery ← ofExcept (deliveryFromJson code payload)
      return ⟨"approved", some delivery.machine, some delivery.deviceToken⟩

/-- The owner approves the waiting machine and names it. -/
def inviteApprove (email code name : String) : Edge InviteError Machine := do
  let code ← ofExcept (cp.canonical code)
  let record ← readOwnInvite email code
  ofExcept (requireWaiting code record.status)
  match record.devicePubkey with
  | none => .throw (.notBegun code)
  | some pubkey => do
    let uuid ← mapErr .account (cp.accountUuid email)
    let accountUuid ← expect "invite owner email resolves to an active account" uuid
    match ← mapErr .ofControlPlane (cp.allocateMachine (some accountUuid) name pubkey) with
    | .existing _ => .throw (.nameTaken name)
    | .created resp => do
      cp.issueToken code resp.machine
      let approved := { record with status := .approved }
      redis (.invite code (.setEx (.json approved) INVITE_TTL_SECS))
      return resp.machine

/-- The owner denies the waiting machine. -/
def inviteDeny (email code : String) : Edge InviteError Unit := do
  let code ← ofExcept (cp.canonical code)
  let record ← readOwnInvite email code
  ofExcept (requireWaiting code record.status)
  let denied := { record with status := .denied }
  redis (.invite code (.setEx (.json denied) INVITE_TTL_SECS))

/-- Rotate the key of the machine that a device token belongs to. -/
def deviceRegister (deviceToken publicKey : String) : Edge ControlPlaneError Machine :=
  if deviceToken = "" then .panic "device token is required"
  else do
    ofExcept (cp.validateWgPubkey publicKey)
    let machines ← list
    match machines.find? fun m => m.deviceTokenHash = some (cp.tokenHash deviceToken) with
    | none => .throw (.notFound "no machine for this device token")
    | some target => do
      match ← cp.allocateMachine target.owner target.name publicKey with
      | .created _ => .panic "re-registering an enrolled machine is always Existing"
      | .existing resp => return resp.machine

end ControlPlane
end Cococoir
