import Cococoir.Box.Wire
import Cococoir.ControlPlane.Calls
import Cococoir.Net.SubnetText

/-!
# The API that a box dials

The endpoints hand the operations of the control plane on, write what they return as JSON, and put
every error into a status code and a short message.

* `tunnelInfo`: what a box that has only a link needs to dial, and `tunnelInfo_eq`.
* `serve`: the response to one request.
* `runs_perform`: what is served is a run of the operation in which neither Redis nor `wg` fails.

## From a program to a response

A handler of the site runs one operation and looks at its outcome.  `perform` computes that run
from a list of choices, one for each command, so that a response can be evaluated; `runs_perform`
says that what it computes is one of the runs which the rest of the development is about.  A value
becomes a JSON body, an error a status and a message, and a panic is no response at all, since the
connection is dropped.

## Statuses

`ApiError.ofInvite` and `ApiError.ofControlPlane` are the source's two conversions.  An invite
that is not there, and one that expired, is 404; one of somebody else is 403; one in another
status than the operation needs is 409.  What failed inside, the store or a record that does not
decode, is 500 and its text stays on the edge.

`tunnelInfo` is made from what the edge holds: its key, its domain and the port of its interface.
-/

namespace Cococoir

open Concurrency

namespace ControlPlane

/-- The port that the edge's interface listens on. -/
def WG_ENDPOINT_PORT : ℕ := 51820

/-- The facts that a box without any needs for its tunnel. -/
structure TunnelInfo : Type where
  publicKey : String
  endpoint : String
  allowedIps : String
  deriving DecidableEq

variable (cp : ControlPlane)

/-- The tunnel facts, from what the edge holds anyway. -/
def tunnelInfo : Edge ControlPlaneError TunnelInfo := do
  let publicKey ← cp.edgePublicKey
  if cp.rootDomain = "" then .panic "root domain must be non-empty"
  else do
    let endpoint := cp.rootDomain ++ ":" ++ Nat.repr WG_ENDPOINT_PORT
    let allowedIps ← Prog.expect "prefix is byte-aligned by construction" cp.wgSubnet.toString
    if ¬(":" ++ Nat.repr WG_ENDPOINT_PORT).toList <:+ endpoint.toList then
      .panic "the endpoint carries the wg dial port"
    else if '/' ∉ allowedIps.toList then .panic "allowed-ips is a CIDR range, e.g. 10.10.0.0/24"
    else return ⟨publicKey, endpoint, allowedIps⟩

/-- **The tunnel facts are there** where the edge has a key and a domain; no assertion fails. -/
theorem tunnelInfo_eq {cp : ControlPlane} {edge : String} (hedge : cp.edgePublicKey = pure edge)
    (hroot : cp.rootDomain ≠ "") : ∃ range, cp.wgSubnet.toString = some range ∧
      cp.tunnelInfo = pure ⟨edge, cp.rootDomain ++ ":51820", range⟩ := by
  refine ⟨_, cp.wgSubnet.toString_eq, ?_⟩
  have hport : ":" ++ Nat.repr WG_ENDPOINT_PORT = ":51820" := by decide
  have hsuffix : (":51820" : String).toList <:+ (cp.rootDomain ++ ":51820").toList := by
    rw [String.toList_append]
    exact List.suffix_append _ _
  rw [tunnelInfo, hedge, Prog.pure_bind, if_neg hroot, cp.wgSubnet.toString_eq, Prog.expect_some,
    Prog.pure_bind, String.append_assoc, hport, if_neg (not_not.mpr hsuffix), if_neg (by simp)]

end ControlPlane

namespace Site
namespace Api

open Box (mapPoll)
open ControlPlane
open Json (Value)

/-! ## Errors -/

inductive StatusCode : Type where
  | badRequest | unauthorized | forbidden | notFound | conflict | internalServerError
  deriving DecidableEq

/-- A status as it is printed. -/
def StatusCode.text : StatusCode → String
  | .badRequest => "400 Bad Request"
  | .unauthorized => "401 Unauthorized"
  | .forbidden => "403 Forbidden"
  | .notFound => "404 Not Found"
  | .conflict => "409 Conflict"
  | .internalServerError => "500 Internal Server Error"

/-- The error surface: a status code and a short message, which the body is. -/
structure ApiError : Type where
  status : StatusCode
  message : String
  deriving DecidableEq

def inviteStatus : InviteError → StatusCode
  | .invalidCode _ => .badRequest
  | .unknown _ => .notFound
  | .forbidden _ => .forbidden
  | .notWaiting _ | .notBegun _ | .nameTaken _ => .conflict
  | .invalidName _ | .invalidPubkey _ => .badRequest
  | .account _ | .corrupt _ | .redis _ => .internalServerError

def ApiError.ofInvite (err : InviteError) : ApiError :=
  ⟨inviteStatus err, match err with
    | .invalidCode _ => "invalid invite code"
    | .unknown _ => "invite not found"
    | .forbidden _ => "not the inviting account"
    | .notWaiting _ => "invite is not in a claimable state"
    | .notBegun _ => "no machine has claimed this invite yet"
    | .nameTaken name => "machine name " ++ name ++ " is already taken"
    | .invalidName _ => "invalid machine name"
    | .invalidPubkey _ => "invalid wireguard public key"
    | .account _ | .corrupt _ | .redis _ => "internal error"⟩

def ApiError.ofControlPlane : ControlPlaneError → ApiError
  | .notFound _ => ⟨.unauthorized, "invalid device token"⟩
  | .invalidPubkey _ => ⟨.badRequest, "invalid wireguard public key"⟩
  | _ => ⟨.internalServerError, "internal error"⟩

/-! ## Responses -/

/-- What the sender of a request gets: a JSON body, an error, or nothing if the handler panicked. -/
abbrev Response : Type := Option (Except ApiError Value)

def respond {ε α : Type} (toError : ε → ApiError) (toJson : α → Value) : Outcome ε α → Response
  | .ok a => some (.ok (toJson a))
  | .err e => some (.error (toError e))
  | .panic _ => none

/-- The choice of an environment in which neither Redis nor `wg` fails. -/
def steady (ch : Choice) : Cmd → Choice
  | .redis _ | .scan _ _ | .addPeer _ _ | .removePeer _ => { ch with fails := false }
  | _ => ch

/-- One operation, alone, with what the environment decides about its commands. -/
def perform {ε α : Type} (p : Edge ε α) (choices : List Choice) (w : World) : Outcome ε α × World :=
  p.eval (fun ch c => Cmd.exec (steady ch c) c) choices w

theorem runs_perform {ε α : Type} (p : Edge ε α) (choices : List Choice) (w : World) :
    p.Runs Cmd.exec Reliable w (perform p choices w).1 (perform p choices w).2 := by
  unfold perform
  induction p generalizing choices w with
  | done o => exact ⟨rfl, rfl⟩
  | cmd c k ih =>
    refine ⟨steady (choices.headD default) c, ?_, ih _ choices.tail _⟩
    cases c <;> first | rfl | trivial

/-- The response to one request. -/
def serve {ε α : Type} (p : Edge ε α) (toError : ε → ApiError) (toJson : α → Value) (choices : List Choice)
    (w : World) : Response × World :=
  let r := perform p choices w
  (respond toError toJson r.1, r.2)

/-- The tunnel facts as the site writes them. -/
def wireguardInfoJson (info : TunnelInfo) : Value :=
  .object (Value.field "public_key" (.string info.publicKey) ++
    (Value.field "endpoint" (.string info.endpoint) ++ Value.field "allowed_ips" (.string info.allowedIps)))

variable (cp : ControlPlane) (choices : List Choice) (w : World)

def inviteBegin (code publicKey : String) : Response × World :=
  serve (cp.inviteBegin code publicKey) .ofInvite (fun outcome => (mapPoll outcome).toJson) choices w

def invitePoll (code : String) : Response × World :=
  serve (cp.invitePoll code) .ofInvite (fun outcome => (mapPoll outcome).toJson) choices w

def wireguardInfo : Response × World := serve cp.tunnelInfo .ofControlPlane wireguardInfoJson choices w

/-- A registration has no body. -/
def deviceRegister (deviceToken publicKey : String) : Response × World :=
  serve (cp.deviceRegister deviceToken publicKey) .ofControlPlane (fun _ => .null) choices w

end Api
end Site
end Cococoir
