import Cococoir.Concurrency.Protocol
import Cococoir.ControlPlane.Accounts

/-!
# The control plane as a server

Every operation of the control plane as one call type, and the program that serves it.  A
configuration of the server is the world together with the calls in progress.

`Reliable` is the environment in which Redis and `wg` never fail; the listeners, the DNS provider,
the mailer and the random generator stay unconstrained.

## Concurrency

The source is asynchronous, and two requests may be anywhere in their operations at the same time.
A `Server` is therefore a world and a list of calls that have been accepted, each with what is
left of its program; a `Tick` accepts another call or lets one go on by one command.  Every
interleaving of the operations is a list of ticks, and a result about all of them is one about
`Server.run`.  A call that stops being scheduled is a crash of its request.

Which ticks may happen, in a result about some schedules only, is a predicate on the events and the
states they happen in: `Server.Admissible`.

## Where the programs meet the protocols

`body` is the only place where a call becomes a program.  The invariants of runs do not look into
it: they use a protocol, a list of moves, and that the programs conform to it is checked command
by command with the lemmas at the end.  The sample in between is a control plane with functions
that behave as the real ones do on a few inputs, and runs on fixed inputs are made with it.
-/

namespace Cococoir
namespace ControlPlane

open Concurrency

/-- The operations, with their arguments.  The two that scan the keyspace carry a bound on
the pages they read; a run that reads fewer does not notice it. -/
inductive Call : Type where
  | allocate (owner : Option String) (name publicKey : String) : Call
  | delete (name : String) : Call
  | list : Call
  | reconcileDnsOnce : Call
  | inviteCreate (email : String) : Call
  | inviteRevoke (email code : String) : Call
  | inviteBegin (code publicKey : String) : Call
  | invitePoll (code : String) : Call
  | inviteApprove (email code name : String) : Call
  | inviteDeny (email code : String) : Call
  | deviceRegister (deviceToken publicKey : String) : Call
  | machinesOf (email : String) : Call
  | invitesOf (email : String) (pages : ℕ) : Call
  | accountSignup (email password : String) : Call
  | accountVerify (token : String) : Call
  | accountLogin (email password : String) : Call
  | accountLogout (session : String) : Call
  | sessionAccount (session : String) : Call
  | resendVerification (email : String) : Call
  | requestPasswordReset (email : String) : Call
  | resetPassword (token newPassword : String) : Call
  | accountDelete (email : String) (pages : ℕ) : Call

inductive Reply : Type where
  | unit : Reply
  | signup (outcome : SignupOutcome) : Reply
  | machine (m : Machine) : Reply
  | machines (ms : List Machine) : Reply
  | count (n : ℕ) : Reply
  | text (s : String) : Reply
  | email (e : Option String) : Reply
  | poll (outcome : PollOutcome) : Reply
  | invites (rs : List (String × InviteRecord)) : Reply
  | resend (outcome : ResendVerifyOutcome) : Reply
  | reset (outcome : ResetOutcome) : Reply
  deriving DecidableEq

inductive EdgeError : Type where
  | controlPlane (err : ControlPlaneError) : EdgeError
  | invite (err : InviteError) : EdgeError
  | account (err : AccountError) : EdgeError
  deriving DecidableEq

/-- The program that serves a call. -/
def body (cp : ControlPlane) : Call → Edge EdgeError Reply
  | .allocate owner name key => (cp.allocateMachine owner name key).bimap .controlPlane .signup
  | .delete name => (cp.delete name).bimap .controlPlane fun _ => .unit
  | .list => list.bimap .controlPlane .machines
  | .reconcileDnsOnce => cp.reconcileDnsOnce.bimap .controlPlane .count
  | .inviteCreate email => (cp.inviteCreate email).bimap .invite .text
  | .inviteRevoke email code => (cp.inviteRevoke email code).bimap .invite fun _ => .unit
  | .inviteBegin code key => (cp.inviteBegin code key).bimap .invite .poll
  | .invitePoll code => (cp.invitePoll code).bimap .invite .poll
  | .inviteApprove email code name => (cp.inviteApprove email code name).bimap .invite .machine
  | .inviteDeny email code => (cp.inviteDeny email code).bimap .invite fun _ => .unit
  | .deviceRegister token key => (cp.deviceRegister token key).bimap .controlPlane .machine
  | .machinesOf email => (cp.machinesOf email).bimap .invite .machines
  | .invitesOf email pages => (invitesOf email pages).bimap .invite .invites
  | .accountSignup email pw => (cp.accountSignup email pw).bimap .account fun _ => .unit
  | .accountVerify token => (accountVerify token).bimap .account fun _ => .unit
  | .accountLogin email pw => (cp.accountLogin email pw).bimap .account .text
  | .accountLogout session => (accountLogout session).bimap .account fun _ => .unit
  | .sessionAccount session => (sessionAccount session).bimap .account .email
  | .resendVerification email => (cp.resendVerification email).bimap .account .resend
  | .requestPasswordReset email => (cp.requestPasswordReset email).bimap .account .reset
  | .resetPassword token pw => (cp.resetPassword token pw).bimap .account fun _ => .unit
  | .accountDelete email pages => (cp.accountDelete email pages).bimap .account fun _ => .unit

/-- A call in progress. -/
abbrev Handler : Type := Thread Call Cmd Cmd.Resp EdgeError Reply

/-- The world and the calls accepted so far. -/
abbrev Server : Type := Conf World Call Cmd Cmd.Resp EdgeError Reply

/-- What the scheduler of the server does next. -/
abbrev Tick : Type := Event Call Choice

/-- The server after a schedule. -/
abbrev Server.run (cp : ControlPlane) (σ : Server) (ticks : List Tick) : Server :=
  Conf.run Cmd.exec cp.body σ ticks

/-- A schedule whose every event meets a condition. -/
abbrev Server.Admissible (cp : ControlPlane) (allowed : Server → Tick → Prop) (σ : Server)
    (ticks : List Tick) : Prop :=
  Conf.Admissible Cmd.exec cp.body allowed σ ticks

/-- Redis and `wg` do not fail. -/
def Reliable : Cmd → Choice → Prop
  | .redis _, ch => ch.fails = false
  | .scan _ _, ch => ch.fails = false
  | .addPeer _ _, ch => ch.fails = false
  | .removePeer _, ch => ch.fails = false
  | _, _ => True

/-! ## A control plane

The configuration of the repository's own tests, with the values that the third party
functions have on the arguments used below. -/

/-- The base64 of 32 equal bytes, for three of them. -/
def sampleKeys : List (String × List UInt8) :=
  [("AAAAAAAAAAAAAAAAAAAAAAAAAAAAAAAAAAAAAAAAAAA=", List.replicate 32 0),
    ("AQEBAQEBAQEBAQEBAQEBAQEBAQEBAQEBAQEBAQEBAQE=", List.replicate 32 1),
    ("AgICAgICAgICAgICAgICAgICAgICAgICAgICAgICAgI=", List.replicate 32 2),
    ("KKwuhbBylIlBdWtTEa0Krl5NoYGTUrKTkZf7VEsXXGA=",
      [40, 172, 46, 133, 176, 114, 148, 137, 65, 117, 107, 83, 17, 173, 10, 174, 94, 77, 161,
        129, 147, 82, 178, 147, 145, 151, 251, 84, 75, 23, 92, 96])]

/-- SHA-256 of the hex tokens of 32 equal bytes, for three of them. -/
def sampleDigests : List (String × List UInt8) :=
  [("0000000000000000000000000000000000000000000000000000000000000000",
      [96, 224, 91, 209, 177, 149, 175, 47, 148, 17, 47, 167, 25, 122, 92, 136, 40, 144, 88,
        132, 12, 231, 198, 223, 150, 147, 117, 107, 198, 37, 15, 85]),
    ("0101010101010101010101010101010101010101010101010101010101010101",
      [88, 186, 221, 155, 69, 81, 69, 180, 135, 173, 36, 199, 242, 89, 204, 67, 124, 196, 255,
        208, 120, 71, 22, 132, 82, 73, 50, 31, 181, 150, 28, 252]),
    ("0202020202020202020202020202020202020202020202020202020202020202",
      [116, 159, 26, 151, 255, 108, 208, 14, 164, 108, 203, 58, 71, 187, 18, 50, 131, 254, 86,
        200, 250, 50, 75, 234, 41, 93, 146, 143, 85, 129, 97, 223])]

/-- The bcrypt hashes of some passwords under the salt of zeros. -/
def samplePasswords : List (String × String) :=
  [("correct horse", "$2b$12$......................c6NUmNtSfCoPDzIaypW6/Wln2nnLdpi"),
    ("battery staple", "$2b$12$.......................1MxR.rmHE0NAhMAnLyykK9HSEZsx8W")]

def sample : ControlPlane where
  subnet := ⟨[0x2a, 0x01, 0x04, 0xf8, 0x0c, 0x17, 0x00, 0x01], 64, rfl, by decide, by decide⟩
  wgSubnet := ⟨[10, 10, 0], 24, rfl, by decide, by decide⟩
  rootDomain := "example.net"
  edgeWgPrivateKey := "KKwuhbBylIlBdWtTEa0Krl5NoYGTUrKTkZf7VEsXXGA="
  words := ["polluted", "move", "cheetah", "apple"]
  b64Decode s := sampleKeys.lookup s
  b64Encode _ := "pHykwiutZie7fHPVs3FibMYr2PeSITyO28EqVgsc+WM="
  x25519 _ :=
    [164, 124, 164, 194, 43, 173, 102, 39, 187, 124, 115, 213, 179, 113, 98, 108, 198, 43, 216,
      247, 146, 33, 60, 142, 219, 193, 42, 86, 11, 28, 249, 99]
  sha256 s := (sampleDigests.lookup s).getD []
  bcryptHash salt password :=
    match samplePasswords.lookup password with
    | some hash => if salt = List.replicate 16 0 then .ok hash else .error "not tabulated"
    | none => .error "not tabulated"
  bcryptVerify password hash := .ok (samplePasswords.lookup password = some hash)
  uuidV4 _ := "00000000-0000-4000-8000-000000000000"
  isMailbox s := '@' ∈ s.toList
  toLowercase s := String.ofList (s.toList.map Char.toLower)

/-- The sample keys. -/
abbrev keyA : String := "AAAAAAAAAAAAAAAAAAAAAAAAAAAAAAAAAAAAAAAAAAA="
abbrev keyB : String := "AQEBAQEBAQEBAQEBAQEBAQEBAQEBAQEBAQEBAQEBAQE="
abbrev keyC : String := "AgICAgICAgICAgICAgICAgICAgICAgICAgICAgICAgI="

/-- The code that the generator's zeros give. -/
abbrev sampleCode : String := "polluted-polluted-polluted-polluted"

/-- A pending account, and its waiting invite. -/
def waitingWorld : World :=
  { World.empty with
    accounts := Function.update (fun _ => none) "owner@example.net"
      (some (.json ⟨"00000000-0000-4000-8000-000000000000", .pending,
        "$2b$12$......................c6NUmNtSfCoPDzIaypW6/Wln2nnLdpi", none⟩))
    invites := Function.update (fun _ => none) sampleCode
      (some (.json ⟨"owner@example.net", .waiting, some keyA⟩)) }

/-! ## Redis commands in conformance proofs -/

section Conformance

variable {L ε ε' α β : Type} [FromRedis ε] {P : Protocol Call Cmd Cmd.Resp L} {l : L}

theorem conforms_redis {fin : L → Outcome ε α → Prop} {op : RedisOp} {f : op.Resp → Edge ε α} :
    P.Conforms fin (redis op >>= f) l ↔
      P.ok l (.redis op) ∧
        (∀ a, P.resp (.redis op) (.ok a) → P.Conforms fin (f a) (P.next l (.redis op) (.ok a))) ∧
        ∀ e, P.resp (.redis op) (.error e) →
          fin (P.next l (.redis op) (.error e)) (.err (FromRedis.ofRedis e)) := by
  constructor
  · rintro ⟨hok, h⟩
    exact ⟨hok, fun a ha => h (.ok a) ha, fun e he => h (.error e) he⟩
  · rintro ⟨hok, h, herr⟩
    refine ⟨hok, fun r hr => ?_⟩
    cases r with
    | ok a => exact h a hr
    | error e => exact herr e hr

theorem conforms_redis_last {op : RedisOp} {fin : L → Outcome ε op.Resp → Prop} :
    P.Conforms fin (redis op) l ↔
      P.ok l (.redis op) ∧
        (∀ a, P.resp (.redis op) (.ok a) → fin (P.next l (.redis op) (.ok a)) (.ok a)) ∧
        ∀ e, P.resp (.redis op) (.error e) →
          fin (P.next l (.redis op) (.error e)) (.err (FromRedis.ofRedis e)) := by
  rw [← Prog.bind_pure (redis op), conforms_redis]
  rfl

omit [FromRedis ε] in
theorem conforms_ofExcept {fin : L → Outcome ε β → Prop} {x : Except ε α} {f : α → Edge ε β} :
    P.Conforms fin (Prog.ofExcept x >>= f) l ↔
      (∀ a, x = .ok a → P.Conforms fin (f a) l) ∧ ∀ e, x = .error e → fin l (.err e) := by
  cases x with
  | ok a => simp
  | error e => simp

omit [FromRedis ε] in
theorem conforms_expect {fin : L → Outcome ε β → Prop} {msg : String} {x : Option α}
    {f : α → Edge ε β} :
    P.Conforms fin (Prog.expect msg x >>= f) l ↔
      (∀ a, x = some a → P.Conforms fin (f a) l) ∧ (x = none → fin l (.panic msg)) := by
  cases x with
  | some a => simp
  | none => simp

end Conformance

end ControlPlane
end Cococoir
