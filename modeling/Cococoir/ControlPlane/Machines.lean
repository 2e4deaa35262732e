import Cococoir.ControlPlane.World
import Cococoir.Net.Parse
import Mathlib.Data.List.Infix

/-!
# Machine operations

A machine is a name, and the name is its hostname.  Giving it away means a route: a host index,
the two addresses that the index stands for, a WireGuard peer, two listeners and two DNS records.
This module has the operations that make such a route and take it down, each as the program of
commands it issues, in the order in which the source issues them.

## Allocation

`allocateMachine` is the one core that a public enrollment, an approval and a key rotation share.
It has three paths.  A name that is not there gets a fresh route, `allocateFresh`; a name with
the same key is wired again and nothing else; a name with another key has its key replaced.  Only
the first path touches the counter of host indices, and it is the one with a rollback,
`rollbackAllocation`: if the peer or a listener cannot be made, the store entry is removed.  A
publication in DNS that fails undoes nothing, since the reconciliation comes back to it.

An index beyond a subnet is an assertion of the source that fails.  `capacityPanic` is its text,
with the length of the first prefix that the index is beyond.

## Deletion and reconciliation

`delete` unwires first, best effort, and removes the store entry last, the record before the name
on the list.  `reconcileDnsOnce` compares what each stored machine's names resolve to with its
address and applies the record again where they differ.

The two records of a machine are published, and removed, side by side in the source, which waits
for both.  Here the bare hostname goes first and the wildcard second, and the result is the error
of the bare one if both fail.
-/

namespace Cococoir
namespace ControlPlane

open Concurrency
open Concurrency.Prog (ofExcept expect)
open Net (Ipv6Addr)

/-! ## Validation -/

/-- Names that are refused: the zone's own infrastructure and common service labels. -/
def reserved : List String :=
  ["www", "mail", "mx", "smtp", "imap", "webmail", "autodiscover", "ns", "ns1", "ns2", "ftp",
    "api", "admin", "edge", "fortress", "redis", "vault", "status", "docs", "vpn", "jellyfin",
    "cryptpad", "radarr", "sonarr", "seerr", "media", "caddy", "dex"]

/-- A machine name is a DNS label of at least six characters. -/
def validateMachineName (name : String) : Except ControlPlaneError Unit :=
  let chars := name.toList
  if 6 ≤ name.utf8ByteSize ∧ name.utf8ByteSize ≤ 63 ∧ chars.head? ≠ some '-' ∧
      chars.getLast? ≠ some '-' ∧ ¬['-', '-'] <:+: chars ∧ name ∉ reserved ∧
      chars.all fun c => c.isLower || c.isDigit || c == '-' then
    .ok ()
  else .error (.invalidName name)

variable (cp : ControlPlane)

/-- A WireGuard public key is 32 bytes of base64. -/
def validateWgPubkey (publicKey : String) : Except ControlPlaneError Unit :=
  if (cp.b64Decode publicKey).any (·.length = 32) then .ok ()
  else .error (.invalidPubkey publicKey)

/-- The edge's own public key, derived from the private key it holds. -/
def edgePublicKey : Edge ControlPlaneError String :=
  match cp.b64Decode cp.edgeWgPrivateKey with
  | none => .panic "store-held edge key is base64"
  | some bytes =>
    if bytes.length = 32 then pure (cp.b64Encode (cp.x25519 bytes))
    else .throw (.wg (.io "edge private key is not 32 bytes"))

/-! ## Wiring -/

/-- The machine's bare hostname. -/
def machineHostname (name domain : String) : String := s!"{name}.{domain}"

/-- The edge's ingress map: public port and the machine's own port. -/
def edgeForwards : List (ℕ × ℕ) := [(80, 8080), (443, 8443)]

/-- The forward of one machine at one pair of ports. -/
def machineForward (ipv6 wgIp : String) (ports : ℕ × ℕ) : Forward where
  listenAddr := s!"[{ipv6}]:{ports.1}"
  proto := "tcp"
  destAddr := s!"{wgIp}:{ports.2}"

/-- Publish the machine's two records, the bare hostname and then the wildcard; the source joins the
two, and waits for both. -/
def upsertMachine {ε : Type} (name ipv6 domain : String) : Edge ε (Except String Unit) := do
  let host := machineHostname name domain
  let main ← upsertAaaa host ipv6
  let wild ← upsertAaaa s!"*.{host}" ipv6
  return main.bind fun _ => wild

/-- Remove the machine's two records, in the same order. -/
def removeMachine {ε : Type} (name domain : String) : Edge ε (Except String Unit) := do
  let host := machineHostname name domain
  let main ← removeAaaa host
  let wild ← removeAaaa s!"*.{host}"
  return main.bind fun _ => wild

/-- Remove the machine's forwards. -/
def removeForwards {ε : Type} (machine : Machine) : List (ℕ × ℕ) → Edge ε Unit
  | [] => pure ()
  | ports :: rest => do
    let _ ← removeForward (machineForward machine.ipv6 machine.wgIp ports)
    removeForwards machine rest

/-- Best-effort rollback of a failed allocation: drop the store entry, then unwire. -/
def rollbackAllocation {ε : Type} (name : String) (machine : Machine) : Edge ε Unit := do
  match ← tryRedis (.machine name .del) with
  | .error _ => return ()
  | .ok _ =>
    match ← tryRedis (.index (.lrem name)) with
    | .error _ => return ()
    | .ok _ => do
      let _ ← removePeer machine.wgPublicKey
      removeForwards machine edgeForwards

/-- Bind the machine's listeners; a bind that fails undoes the allocation. -/
def addForwards (name : String) (machine : Machine) :
    List (ℕ × ℕ) → Edge ControlPlaneError Unit
  | [] => pure ()
  | ports :: rest => do
    let fwd := machineForward machine.ipv6 machine.wgIp ports
    match ← addForward fwd with
    | .ok _ => addForwards name machine rest
    | .error err => do
      rollbackAllocation name machine
      .throw (.forward s!"add forward {fwd.listenAddr}: {err}")

/-- Live wiring of a stored machine: the peer, then the listeners, then DNS, whose failure
is not an error. -/
def wire (machine : Machine) : Edge ControlPlaneError Unit := do
  match ← addPeer machine.wgIp machine.wgPublicKey with
  | .error err => do
    rollbackAllocation machine.name machine
    .throw (.wg err)
  | .ok _ => do
    addForwards machine.name machine edgeForwards
    let _ ← upsertMachine machine.name machine.ipv6 cp.rootDomain
    return ()

/-! ## Allocation -/

/-- The idempotent and the rotating path of an allocation: the route exists. -/
def ensureKey (name publicKey : String) (machine : Machine) : Edge ControlPlaneError Machine :=
  if machine.wgPublicKey = publicKey then do
    -- the same key: its peer is re-ensured, and a failure of that is only logged
    let _ ← addPeer machine.wgIp publicKey
    return machine
  else do
    let _ ← removePeer machine.wgPublicKey
    match ← addPeer machine.wgIp publicKey with
    | .error err => .throw (.wg err)
    | .ok _ => do
      let rotated := { machine with wgPublicKey := publicKey }
      redis (.machine name (.set (.json rotated)))
      return rotated

/-- The machine record of a new route. -/
def freshMachine (owner : Option String) (name publicKey ipv6 wgIp : String) : Machine where
  name := name
  owner := owner
  hostname := machineHostname name cp.rootDomain
  ipv6 := ipv6
  wgIp := wgIp
  wgPublicKey := publicKey
  deviceTokenHash := none

/-- The two addresses of a host index; an index beyond either subnet is a panic. -/
def hostStrings (index : ℕ) : Option (String × String) :=
  match cp.subnet.hostString index, cp.wgSubnet.hostString index with
  | some ipv6, some wgIp => some (ipv6, wgIp)
  | _, _ => none

/-- What the panic says: the length of the first prefix that the index is beyond. -/
def capacityPanic (index : ℕ) : String :=
  let prefixLen :=
    if (cp.subnet.hostString index).isNone then cp.subnet.prefixLen else cp.wgSubnet.prefixLen
  s!"host index {index} exceeds /{prefixLen} capacity"

/-- A new route: take the next host index, claim the name, list it, wire it. -/
def allocateFresh (owner : Option String) (name publicKey : String) :
    Edge ControlPlaneError Machine := do
  let _ ← redis (.alloc (.setNx 1))
  let index ← redis (.alloc .incr)
  if index < 2 then .throw (.allocExhausted "allocation counter below host 2")
  else do
    let (ipv6, wgIp) ← expect (cp.capacityPanic index.toNat) (cp.hostStrings index.toNat)
    let machine := cp.freshMachine owner name publicKey ipv6 wgIp
    let set ← redis (.machine name (.setNx (.json machine)))
    if set then do
      let _ ← redis (.index (.rpush name))
      cp.wire machine
      return machine
    else do
      -- the loser of the race gives its index back
      let _ ← redis (.alloc .decr)
      .throw (.duplicate name)

/-- The one allocation core. -/
def allocateMachine (owner : Option String) (name publicKey : String) :
    Edge ControlPlaneError SignupOutcome := do
  ofExcept (validateMachineName name)
  ofExcept (cp.validateWgPubkey publicKey)
  let existing ← redis (.machine name .get)
  let edgePublicKey ← cp.edgePublicKey
  match existing with
  | some json => do
    let machine ← ofExcept (machineFromJson json)
    let machine ← ensureKey name publicKey machine
    return .existing ⟨machine, edgePublicKey⟩
  | none => do
    let machine ← cp.allocateFresh owner name publicKey
    return .created ⟨machine, edgePublicKey⟩

/-! ## The other operations -/

/-- Overwrite a machine record. -/
def storeMachine (machine : Machine) : Edge ControlPlaneError Unit :=
  redis (.machine machine.name (.set (.json machine)))

/-- The machines of a list of names; names without a record are skipped. -/
def listFrom : List String → Edge ControlPlaneError (List Machine)
  | [] => pure []
  | name :: rest => do
    match ← redis (.machine name .get) with
    | none => listFrom rest
    | some json => do
      let machine ← ofExcept (machineFromJson json)
      let machines ← listFrom rest
      return machine :: machines

/-- List machines in allocation order. -/
def list : Edge ControlPlaneError (List Machine) := do
  let names ← redis (.index .lrange)
  listFrom names

/-- Remove the store entry: the record, then the name. -/
def removeEntry (name : String) : Edge ControlPlaneError Unit := do
  let _ ← redis (.machine name .del)
  let _ ← redis (.index (.lrem name))
  return ()

/-- Delete a machine: unwire it, best effort, and remove the store entry last. -/
def delete (name : String) : Edge ControlPlaneError Unit := do
  match ← redis (.machine name .get) with
  | none => .throw (.notFound name)
  | some (.corrupt _ _) => removeEntry name
  | some (.json machine) => do
    let _ ← removePeer machine.wgPublicKey
    removeForwards machine edgeForwards
    let _ ← removeMachine name cp.rootDomain
    removeEntry name

/-! ## Reconciliation -/

/-- Is the machine's address among those that its name resolved to? -/
def aaaaMatches (resolved : List Ipv6Addr) (expected : Ipv6Addr) : Bool := resolved.contains expected

/-- Apply a record again; how many were applied. -/
def reapply {ε : Type} (name : String) (ipv6 : Ipv6Addr) : Edge ε ℕ := do
  match ← upsertAaaa name ipv6.display with
  | .error _ => return 0
  | .ok _ => return 1

/-- Verify one record against real resolution, and re-apply it on a mismatch. -/
def reconcileRecord {ε : Type} (name : String) (ipv6 : Ipv6Addr) : Edge ε ℕ := do
  match ← resolveAaaa name with
  | .error _ => reapply name ipv6
  | .ok resolved => if aaaaMatches resolved ipv6 then return 0 else reapply name ipv6

/-- One reconcile pass over the machine set; the number of records re-applied. -/
def reconcilePass {ε : Type} (domain : String) : List (String × Ipv6Addr) → Edge ε ℕ
  | [] => pure 0
  | (name, ipv6) :: rest => do
    let host := machineHostname name domain
    let main ← reconcileRecord host ipv6
    let wild ← reconcileRecord s!"*.{host}" ipv6
    let reapplied ← reconcilePass domain rest
    return main + wild + reapplied

/-- One DNS reconcile pass over the stored machines whose address parses. -/
def reconcileDnsOnce : Edge ControlPlaneError ℕ := do
  let machines ← list
  reconcilePass cp.rootDomain
    (machines.filterMap fun m => (Ipv6Addr.fromStr m.ipv6).map fun ipv6 => (m.name, ipv6))

end ControlPlane
end Cococoir
