import Mathlib.Data.List.Basic
import Mathlib.Data.Int.Init

/-!
# What the control plane stores, returns and fails with

The durable records (a machine, an invite, a one-time delivery, an account), the results of the
operations, and their errors with the texts they print.

A record lives in the store as JSON text.  Text that a record was serialized to decodes to that
record again, so a stored value is either a record or text that does not decode: `Stored`.

## Records

They have the fields of the source and their names.  The store never changes a part of a record:
an operation reads the text, decodes it, and writes the whole anew, which is why two operations
can undo each other's work.  `Stored.corrupt` is for a text that an older version or another hand
has left; the operations read it as an error, and which error differs from record to record.

## Errors

There are four types, and the small ones are converted into the large ones, as `From` does it in
the source: a command that fails becomes the error of the operation that issued it, through
`FromRedis`, and a failed allocation inside an approval becomes an invite's error.  The texts are
those that `Display` prints, and they are here because the site shows them.
-/

namespace Cococoir
namespace ControlPlane

/-! ## Records -/

structure Machine where
  /-- The machine's name, its identity and its DNS label. -/
  name : String
  /-- The owning account's UUID; the operator's machines have none. -/
  owner : Option String
  hostname : String
  ipv6 : String
  /-- The tunnel address, where the edge's forwards go. -/
  wgIp : String
  wgPublicKey : String
  /-- SHA-256 of the device token, in hex; the token itself is never stored. -/
  deviceTokenHash : Option String
  deriving DecidableEq

inductive InviteStatus : Type where
  | dormant | waiting | approved | denied
  deriving DecidableEq

/-- The durable invite record, keyed by code. -/
structure InviteRecord where
  ownerEmail : String
  status : InviteStatus
  /-- The key that posted `begin`. -/
  devicePubkey : Option String
  deriving DecidableEq

/-- The one-time payload a poll receives after approval. -/
structure EnrollmentDelivery where
  machine : Machine
  deviceToken : String
  deriving DecidableEq

inductive AccountStatus : Type where
  | pending | active
  deriving DecidableEq

/-- The durable account record, keyed by email. -/
structure AccountRecord where
  uuid : String
  status : AccountStatus
  passwordHash : String
  plan : Option String
  deriving DecidableEq

/-- The text under a record's key: the serialization of a record, or other text, with
what the decoder says about it. -/
inductive Stored (α : Type) : Type where
  | json (a : α) : Stored α
  | corrupt (text err : String) : Stored α
  deriving DecidableEq

theorem Stored.some_corrupt_ne_json {α : Type} {text err : String} {a : α} :
    some (.corrupt text err : Stored α) ≠ some (.json a) := nofun

/-- One listener of the edge: the public port on a machine's address, relayed to the
machine's own port on its tunnel address. -/
structure Forward where
  listenAddr : String
  proto : String
  destAddr : String
  deriving DecidableEq

/-- The key of a live forward: `proto://listen_addr`. -/
def forwardKey (fwd : Forward) : String := s!"{fwd.proto}://{fwd.listenAddr}"

/-! ## Errors -/

inductive RedisError : Type where
  /-- The server or the connection failed. -/
  | server (text : String) : RedisError
  /-- A response the caller could not use. -/
  | response (desc detail : String) : RedisError
  deriving DecidableEq

def RedisError.display : RedisError → String
  | .server text => text
  | .response desc detail => s!"{desc}: {detail}"

inductive WgError : Type where
  | command (code : ℤ) (stderr : String) : WgError
  | io (err : String) : WgError
  deriving DecidableEq

def WgError.display : WgError → String
  | .command code stderr => s!"wg exited with status {code}: {stderr}"
  | .io err => s!"failed to run wg: {err}"

inductive ControlPlaneError : Type where
  | redis (err : RedisError) : ControlPlaneError
  | notFound (name : String) : ControlPlaneError
  | allocExhausted (why : String) : ControlPlaneError
  | forward (why : String) : ControlPlaneError
  | wg (err : WgError) : ControlPlaneError
  | invalidName (name : String) : ControlPlaneError
  | invalidPubkey (key : String) : ControlPlaneError
  | duplicate (name : String) : ControlPlaneError
  deriving DecidableEq

def ControlPlaneError.display : ControlPlaneError → String
  | .redis err => s!"redis error: {err.display}"
  | .notFound name => s!"machine not found: {name}"
  | .allocExhausted why => s!"allocation exhausted: {why}"
  | .forward why => s!"forwarder: {why}"
  | .wg err => s!"wg: {err.display}"
  | .invalidName name => s!"invalid machine name: {name}"
  | .invalidPubkey key => s!"invalid wireguard public key: {key}"
  | .duplicate name => s!"machine name already taken: {name}"

inductive AccountError : Type where
  | invalidEmail (email : String) : AccountError
  | invalidPassword (why : String) : AccountError
  | duplicateEmail (email : String) : AccountError
  | notFound : AccountError
  | invalidCredentials : AccountError
  | notVerified (email : String) : AccountError
  | invalidToken : AccountError
  | corrupt (why : String) : AccountError
  | redis (err : RedisError) : AccountError
  | mail (err : String) : AccountError
  deriving DecidableEq

/-- `From<ControlPlaneError>` for account operations. -/
def AccountError.ofControlPlane : ControlPlaneError → AccountError
  | .redis err => .redis err
  | other => .corrupt other.display

inductive InviteError : Type where
  | invalidCode (code : String) : InviteError
  | unknown (code : String) : InviteError
  | forbidden (code : String) : InviteError
  | notWaiting (code : String) : InviteError
  | notBegun (code : String) : InviteError
  | nameTaken (name : String) : InviteError
  | invalidName (name : String) : InviteError
  | invalidPubkey (key : String) : InviteError
  | corrupt (why : String) : InviteError
  | account (err : AccountError) : InviteError
  | redis (err : RedisError) : InviteError
  deriving DecidableEq

/-- `From<ControlPlaneError>` for invite operations. -/
def InviteError.ofControlPlane : ControlPlaneError → InviteError
  | .redis err => .redis err
  | .duplicate name => .nameTaken name
  | .invalidName name => .invalidName name
  | .invalidPubkey key => .invalidPubkey key
  | other => .corrupt other.display

/-- Error types that a failed Redis command is converted into. -/
class FromRedis (ε : Type) where
  ofRedis : RedisError → ε

instance : FromRedis ControlPlaneError := ⟨.redis⟩

instance : FromRedis InviteError := ⟨.redis⟩

instance : FromRedis AccountError := ⟨.redis⟩

/-! ## Decoding -/

/-- The machine stored as `json`. -/
def machineFromJson : Stored Machine → Except ControlPlaneError Machine
  | .json m => .ok m
  | .corrupt text err => .error (.redis (.response "corrupt machine record" s!"{text}: {err}"))

/-- The invite stored as `json`. -/
def recordFromJson (code : String) : Stored InviteRecord → Except InviteError InviteRecord
  | .json r => .ok r
  | .corrupt _ err => .error (.corrupt s!"{code}: {err}")

/-- The payload stored as `json`. -/
def deliveryFromJson (code : String) :
    Stored EnrollmentDelivery → Except InviteError EnrollmentDelivery
  | .json d => .ok d
  | .corrupt _ err => .error (.corrupt s!"delivery {code}: {err}")

/-- The account stored as `json`. -/
def accountFromJson : Stored AccountRecord → Except AccountError AccountRecord
  | .json a => .ok a
  | .corrupt _ err => .error (.corrupt err)

/-! ## Results -/

/-- The enrollment response: the route, and the edge's key to dial with. -/
structure SignupResponse where
  machine : Machine
  edgePublicKey : String
  deriving DecidableEq

/-- Whether an allocation made a new route or found one. -/
inductive SignupOutcome : Type where
  | created (resp : SignupResponse) : SignupOutcome
  | existing (resp : SignupResponse) : SignupOutcome
  deriving DecidableEq

/-- What a machine's poll sees. -/
structure PollOutcome where
  status : String
  machine : Option Machine
  deviceToken : Option String
  deriving DecidableEq

/-- An outcome without a payload. -/
def PollOutcome.bare (status : String) : PollOutcome := ⟨status, none, none⟩

/-- What a password-reset request did. -/
inductive ResetOutcome : Type where
  | sent | unknownEmail
  deriving DecidableEq

/-- What a verification-email resend did. -/
inductive ResendVerifyOutcome : Type where
  | sent | alreadyActive | unknownEmail
  deriving DecidableEq

end ControlPlane
end Cococoir
