import Cococoir.Concurrency.Prog
import Cococoir.ControlPlane.Records
import Cococoir.Net.Subnet
import Cococoir.Redis.Commands

/-!
# The control plane and what it acts on

`ControlPlane` is what one process holds: its subnets, its domain, its key, and the third
party functions it calls.  `World` is everything the processes share: the Redis keyspace,
the WireGuard interface, the live forwards and the DNS zone.  `Cmd` is one atomic action
on the world, and `exec` what it does under one choice of the environment.

A command that fails has no effect.  The keyspace is split by the families of the key
namespace, `fortress:machine:{name}`, `fortress:invite:{code}` and so on, and a command
names the family and what follows its tag; `Family.key_inj` says that this loses nothing.

## Choices

What the environment decides about a command is one record, `Choice`: whether it fails and with
which text, and the values it gives: random bytes, the page of a scan, the addresses that a name
resolves to.  A choice has all of these for every command, and a command looks at those that
concern it; so an environment is a predicate on choices, and needs no type of its own for each
command.

## Crates

Functions of other crates that are pure are fields of `ControlPlane`: the curve, base64, the
hashes, what counts as a mailbox.  Nothing is assumed of them here.  Where a result needs a
property of theirs it has a hypothesis with that name, and the sample, whose functions behave as
the real ones do on a few inputs, is used to show that such hypotheses can be met.
-/

namespace Cococoir

open Net (Ipv6Addr Subnet64 WgSubnet)

/-- The configuration of the control plane and the functions of other crates it calls. -/
structure ControlPlane where
  subnet : Subnet64
  wgSubnet : WgSubnet
  rootDomain : String
  edgeWgPrivateKey : String
  /-- The wordlist invite codes are made of. -/
  words : List String
  /-- Base64, standard alphabet. -/
  b64Decode : String → Option (List UInt8)
  b64Encode : List UInt8 → String
  /-- The x25519 public key of a private key. -/
  x25519 : List UInt8 → List UInt8
  /-- SHA-256 of a string's bytes. -/
  sha256 : String → List UInt8
  bcryptHash : (salt : List UInt8) → (password : String) → Except String String
  bcryptVerify : (password hash : String) → Except String Bool
  /-- A version 4 UUID from its random bytes. -/
  uuidV4 : List UInt8 → String
  /-- Whether a string parses as a mailbox. -/
  isMailbox : String → Bool
  /-- Lowercase, by the Unicode tables. -/
  toLowercase : String → String

namespace ControlPlane

open Concurrency Redis

/-! ## Redis keys -/

/-- The families of the key namespace. -/
inductive Family : Type where
  | machine | machineIndex | allocCounter | invite | delivery | account | verify | reset | session
  deriving DecidableEq

/-- What the keys of a family begin with. -/
def Family.tag : Family → String
  | .machine => "fortress:machine:"
  | .machineIndex => "fortress:machines"
  | .allocCounter => "fortress:alloc:next"
  | .invite => "fortress:invite:"
  | .delivery => "fortress:invite-delivery:"
  | .account => "fortress:account:"
  | .verify => "fortress:verify:"
  | .reset => "fortress:reset:"
  | .session => "fortress:session:"

/-- The Redis key of an entry of a family. -/
def Family.key (f : Family) (name : String) : String := f.tag ++ name

/-- **The families share no key**, and an entry has its own. -/
theorem Family.key_inj {f f' : Family} {name name' : String} (h : f.key name = f'.key name') :
    f = f' ∧ name = name' := by
  have hchars : f.tag.toList ++ name.toList = f'.tag.toList ++ name'.toList := by
    simpa [key] using congrArg String.toList h
  have hfree : ∀ f f' : Family, f.tag.toList <+: f'.tag.toList → f = f' := by
    intro f f'
    cases f <;> cases f' <;> decide
  have hf : f = f' := by
    rcases List.prefix_or_prefix_of_prefix ⟨_, hchars⟩
      (List.prefix_append f'.tag.toList name'.toList) with hp | hp
    · exact hfree f f' hp
    · exact (hfree f' f hp).symm
  subst hf
  exact ⟨rfl, String.toList_injective (List.append_cancel_left hchars)⟩

/-! ## The shared state -/

structure World where
  machines : String → Option (Stored Machine)
  /-- The machine names, in allocation order. -/
  index : List String
  /-- The last host index handed out. -/
  alloc : Option ℤ
  invites : String → Option (Stored InviteRecord)
  deliveries : String → Option (Stored EnrollmentDelivery)
  accounts : String → Option (Stored AccountRecord)
  verifies : String → Option String
  resets : String → Option String
  sessions : String → Option String
  /-- The peers of the WireGuard interface, by public key, with the allowed address. -/
  peers : String → Option String
  /-- The live forwards, by key. -/
  forwards : String → Option Forward
  /-- The AAAA records. -/
  dns : String → Option String

/-- Nothing stored, wired or published. -/
def World.empty : World where
  machines _ := none
  index := []
  alloc := none
  invites _ := none
  deliveries _ := none
  accounts _ := none
  verifies _ := none
  resets _ := none
  sessions _ := none
  peers _ := none
  forwards _ := none
  dns _ := none

/-! ## Commands -/

/-- A Redis command, by the family of its key. -/
inductive RedisOp : Type where
  | machine (name : String) (op : KeyOp (Stored Machine)) : RedisOp
  | index (op : ListOp String) : RedisOp
  | alloc (op : CounterOp) : RedisOp
  | invite (code : String) (op : KeyOp (Stored InviteRecord)) : RedisOp
  | delivery (code : String) (op : KeyOp (Stored EnrollmentDelivery)) : RedisOp
  | account (email : String) (op : KeyOp (Stored AccountRecord)) : RedisOp
  | verify (token : String) (op : KeyOp String) : RedisOp
  | reset (token : String) (op : KeyOp String) : RedisOp
  | session (token : String) (op : KeyOp String) : RedisOp
  deriving DecidableEq

@[reducible] def RedisOp.Resp : RedisOp → Type
  | .machine _ op => op.Resp
  | .index op => op.Resp
  | .alloc op => op.Resp
  | .invite _ op => op.Resp
  | .delivery _ op => op.Resp
  | .account _ op => op.Resp
  | .verify _ op => op.Resp
  | .reset _ op => op.Resp
  | .session _ op => op.Resp

def RedisOp.exec : (op : RedisOp) → World → op.Resp × World
  | .machine n op, w =>
    ((op.exec (w.machines n)).1,
      { w with machines := Function.update w.machines n (op.exec (w.machines n)).2 })
  | .index op, w => ((op.exec w.index).1, { w with index := (op.exec w.index).2 })
  | .alloc op, w => ((op.exec w.alloc).1, { w with alloc := (op.exec w.alloc).2 })
  | .invite c op, w =>
    ((op.exec (w.invites c)).1,
      { w with invites := Function.update w.invites c (op.exec (w.invites c)).2 })
  | .delivery c op, w =>
    ((op.exec (w.deliveries c)).1,
      { w with deliveries := Function.update w.deliveries c (op.exec (w.deliveries c)).2 })
  | .account e op, w =>
    ((op.exec (w.accounts e)).1,
      { w with accounts := Function.update w.accounts e (op.exec (w.accounts e)).2 })
  | .verify t op, w =>
    ((op.exec (w.verifies t)).1,
      { w with verifies := Function.update w.verifies t (op.exec (w.verifies t)).2 })
  | .reset t op, w =>
    ((op.exec (w.resets t)).1,
      { w with resets := Function.update w.resets t (op.exec (w.resets t)).2 })
  | .session t op, w =>
    ((op.exec (w.sessions t)).1,
      { w with sessions := Function.update w.sessions t (op.exec (w.sessions t)).2 })

/-- One atomic action on the world. -/
inductive Cmd : Type where
  | redis (op : RedisOp) : Cmd
  /-- One page of `SCAN`, from a cursor. -/
  | scan (family : Family) (cursor : String) : Cmd
  /-- `wg set wg0 peer {pubkey} allowed-ips {wg_ip}/32` -/
  | addPeer (wgIp pubkey : String) : Cmd
  /-- `wg set wg0 peer {pubkey} remove` -/
  | removePeer (pubkey : String) : Cmd
  | addForward (fwd : Forward) : Cmd
  | removeForward (fwd : Forward) : Cmd
  | upsertAaaa (name ipv6 : String) : Cmd
  | removeAaaa (name : String) : Cmd
  /-- Resolve the AAAA records of a name. -/
  | resolveAaaa (name : String) : Cmd
  /-- Send one mail. -/
  | send (recipient subject body : String) : Cmd
  /-- Bytes of the system's random generator. -/
  | fillBytes (n : ℕ) : Cmd
  deriving DecidableEq

@[reducible] def Cmd.Resp : Cmd → Type
  | .redis op => Except RedisError op.Resp
  | .scan _ _ => Except RedisError (String × List String)
  | .addPeer _ _ => Except WgError Unit
  | .removePeer _ => Except WgError Unit
  | .addForward _ => Except String Unit
  | .removeForward _ => Bool
  | .upsertAaaa _ _ => Except String Unit
  | .removeAaaa _ => Except String Unit
  | .resolveAaaa _ => Except String (List Ipv6Addr)
  | .send _ _ _ => Except String Unit
  | .fillBytes n => {bytes : List UInt8 // bytes.length = n}

/-- What the environment decides about one command: whether it fails and with which error,
which random bytes there are, which page a scan returns, and what a name resolves to. -/
structure Choice where
  fails : Bool := false
  text : String := ""
  wgError : WgError := .io ""
  bytes : List UInt8 := []
  cursor : String := "0"
  keys : List String := []
  resolved : List Ipv6Addr := []

instance : Inhabited Choice := ⟨{}⟩

/-- `wg set … allowed-ips`: the key's only address, taken from every other peer. -/
def setPeer (peers : String → Option String) (wgIp pubkey : String) : String → Option String :=
  fun k => if k = pubkey then some wgIp else if peers k = some wgIp then none else peers k

def Cmd.exec (ch : Choice) : (c : Cmd) → World → c.Resp × World
  | .redis op, w =>
    if ch.fails then (.error (.server ch.text), w) else (.ok (op.exec w).1, (op.exec w).2)
  | .scan _ _, w => if ch.fails then (.error (.server ch.text), w) else (.ok (ch.cursor, ch.keys), w)
  | .addPeer ip k, w =>
    if ch.fails then (.error ch.wgError, w) else (.ok (), { w with peers := setPeer w.peers ip k })
  | .removePeer k, w =>
    if ch.fails then (.error ch.wgError, w)
    else (.ok (), { w with peers := Function.update w.peers k none })
  | .addForward fwd, w =>
    -- a key that is already live is left alone, whatever it relays to
    if (w.forwards (forwardKey fwd)).isSome then (.ok (), w)
    else if ch.fails then
      (.error s!"forwarder: start {fwd.proto} {fwd.listenAddr}: {ch.text}", w)
    else (.ok (), { w with forwards := Function.update w.forwards (forwardKey fwd) (some fwd) })
  | .removeForward fwd, w =>
    ((w.forwards (forwardKey fwd)).isSome,
      { w with forwards := Function.update w.forwards (forwardKey fwd) none })
  | .upsertAaaa name ipv6, w =>
    if ch.fails then (.error ch.text, w)
    else (.ok (), { w with dns := Function.update w.dns name (some ipv6) })
  | .removeAaaa name, w =>
    if ch.fails then (.error ch.text, w)
    else (.ok (), { w with dns := Function.update w.dns name none })
  -- resolution goes to a public resolver, which may answer anything
  | .resolveAaaa _, w => if ch.fails then (.error ch.text, w) else (.ok ch.resolved, w)
  | .send _ _ _, w => if ch.fails then (.error ch.text, w) else (.ok (), w)
  | .fillBytes n, w => (⟨(ch.bytes ++ List.replicate n 0).take n, by simp⟩, w)

/-- A program of the control plane. -/
abbrev Edge (ε α : Type) : Type := Prog Cmd Cmd.Resp ε α

/-- Issue a Redis command; its failure ends the program. -/
def redis {ε : Type} [FromRedis ε] (op : RedisOp) : Edge ε op.Resp :=
  .cmd (.redis op) fun r =>
    match r with
    | .ok a => pure a
    | .error e => .throw (FromRedis.ofRedis e)

section Issue

variable {ε : Type}

/-- Issue a Redis command and look at how it went. -/
abbrev tryRedis (op : RedisOp) : Edge ε (Except RedisError op.Resp) := Prog.issue (Cmd.redis op)

abbrev addPeer (wgIp pubkey : String) : Edge ε (Except WgError Unit) :=
  Prog.issue (Cmd.addPeer wgIp pubkey)

abbrev removePeer (pubkey : String) : Edge ε (Except WgError Unit) := Prog.issue (Cmd.removePeer pubkey)

abbrev addForward (fwd : Forward) : Edge ε (Except String Unit) := Prog.issue (Cmd.addForward fwd)

abbrev removeForward (fwd : Forward) : Edge ε Bool := Prog.issue (Cmd.removeForward fwd)

abbrev upsertAaaa (name ipv6 : String) : Edge ε (Except String Unit) :=
  Prog.issue (Cmd.upsertAaaa name ipv6)

abbrev removeAaaa (name : String) : Edge ε (Except String Unit) := Prog.issue (Cmd.removeAaaa name)

abbrev resolveAaaa (name : String) : Edge ε (Except String (List Ipv6Addr)) :=
  Prog.issue (Cmd.resolveAaaa name)

abbrev send (recipient subject body : String) : Edge ε (Except String Unit) :=
  Prog.issue (Cmd.send recipient subject body)

abbrev fillBytes (n : ℕ) : Edge ε {bytes : List UInt8 // bytes.length = n} :=
  Prog.issue (Cmd.fillBytes n)

end Issue

/-! ## What a command changes -/

variable {ch : Choice} {c : Cmd} {w : World}

theorem exec_redis_of_fails {op : RedisOp} (h : ch.fails = true) :
    Cmd.exec ch (.redis op) w = (.error (.server ch.text), w) := by
  simp [Cmd.exec, h]

theorem exec_redis_of_not_fails {op : RedisOp} (h : ch.fails = false) :
    Cmd.exec ch (.redis op) w = (.ok (op.exec w).1, (op.exec w).2) := by
  simp [Cmd.exec, h]

/-- A Redis command fails without effect, or it is executed. -/
theorem exec_redis_cases (ch : Choice) (op : RedisOp) (w : World) :
    Cmd.exec ch (.redis op) w = (.error (.server ch.text), w) ∨
      Cmd.exec ch (.redis op) w = (.ok (op.exec w).1, (op.exec w).2) := by
  cases h : ch.fails
  · exact Or.inr (exec_redis_of_not_fails h)
  · exact Or.inl (exec_redis_of_fails h)

/-- What an entry holds after one was written. -/
theorem update_cases {V : Type} {f : String → V} {n n' : String} {x y : V}
    (h : Function.update f n x n' = y) : n' = n ∧ x = y ∨ n' ≠ n ∧ f n' = y := by
  by_cases hn : n' = n
  · subst hn
    exact Or.inl ⟨rfl, (Function.update_self ..).symm.trans h⟩
  · exact Or.inr ⟨hn, (Function.update_of_ne hn ..).symm.trans h⟩

section Frames

/-- Only Redis commands reach the keyspace. -/
theorem exec_keyspace (h : ∀ op, c ≠ .redis op) :
    (Cmd.exec ch c w).2.machines = w.machines ∧ (Cmd.exec ch c w).2.index = w.index ∧
      (Cmd.exec ch c w).2.alloc = w.alloc ∧ (Cmd.exec ch c w).2.invites = w.invites ∧
      (Cmd.exec ch c w).2.deliveries = w.deliveries ∧
      (Cmd.exec ch c w).2.accounts = w.accounts := by
  cases c with
  | redis op => exact absurd rfl (h op)
  | removeForward fwd => exact ⟨rfl, rfl, rfl, rfl, rfl, rfl⟩
  | fillBytes n => exact ⟨rfl, rfl, rfl, rfl, rfl, rfl⟩
  | _ =>
    simp only [Cmd.exec]
    split_ifs <;> exact ⟨rfl, rfl, rfl, rfl, rfl, rfl⟩

theorem exec_machines (h : ∀ n op, c ≠ .redis (.machine n op)) :
    (Cmd.exec ch c w).2.machines = w.machines := by
  by_cases hr : ∃ op, c = .redis op
  · obtain ⟨op, rfl⟩ := hr
    rcases exec_redis_cases ch op w with he | he <;> rw [he]
    cases op <;> first | rfl | exact absurd rfl (h _ _)
  · exact (exec_keyspace (not_exists.mp hr)).1

theorem exec_invites (h : ∀ n op, c ≠ .redis (.invite n op)) :
    (Cmd.exec ch c w).2.invites = w.invites := by
  by_cases hr : ∃ op, c = .redis op
  · obtain ⟨op, rfl⟩ := hr
    rcases exec_redis_cases ch op w with he | he <;> rw [he]
    cases op <;> first | rfl | exact absurd rfl (h _ _)
  · exact (exec_keyspace (not_exists.mp hr)).2.2.2.1

end Frames

/-! ## Reading leaves the world -/

@[simp] theorem exec_machine_get {n : String} :
    (RedisOp.machine n .get).exec w = (w.machines n, w) := by
  simp [RedisOp.exec]

@[simp] theorem exec_invite_get {code : String} :
    (RedisOp.invite code .get).exec w = (w.invites code, w) := by
  simp [RedisOp.exec]

@[simp] theorem exec_account_get {email : String} :
    (RedisOp.account email .get).exec w = (w.accounts email, w) := by
  simp [RedisOp.exec]

@[simp] theorem exec_index_lrange : (RedisOp.index .lrange).exec w = (w.index, w) := rfl

/-! ## Writing one machine record -/

/-- A name without a record is claimed. -/
theorem exec_claim {n : String} {x : Stored Machine} (h : w.machines n = none) :
    (RedisOp.machine n (.setNx x)).exec w =
      (true, { w with machines := Function.update w.machines n (some x) }) := by
  simp [RedisOp.exec, h]

/-- A name with a record is not, and the record stays. -/
theorem exec_claim_of_some {n : String} {x y : Stored Machine} (h : w.machines n = some y) :
    (RedisOp.machine n (.setNx x)).exec w = (false, w) := by
  have hself : Function.update w.machines n (some y) = w.machines := by
    rw [← h]
    exact Function.update_eq_self n w.machines
  simp [RedisOp.exec, h, hself]

theorem exec_machine_set {n : String} {x : Stored Machine} :
    (RedisOp.machine n (.set x)).exec w =
      ((), { w with machines := Function.update w.machines n (some x) }) := rfl

theorem exec_machine_del {n : String} :
    (RedisOp.machine n .del).exec w =
      ((w.machines n).toList.length, { w with machines := Function.update w.machines n none }) := by
  simp [RedisOp.exec]

end ControlPlane
end Cococoir
