import Cococoir.Box.Wire
import Cococoir.Client.Claims
import Cococoir.Client.Keypair
import Cococoir.Text.FormUrl

/-!
# Enrolling a box

A box that was given an invite link posts its public key to the edge, polls until the owner has
approved, and writes two files, one after the other: the state file, which a boot takes for the
proof of an enrollment, and the device token.  The box can crash between any two of its actions,
and is then started again.

* `enroll`: the program of the box.
* `step`: the box, its disk and its edge, one action at a time.
* `Phase.next`, `prog_next`: where an enrollment is, and that its program goes the same way.
* `step_system`: the phases simulate the program.

## Two descriptions of one program

`enroll` is the source's function, with its commands to the edge and to the disk; it is what a
reader checks.  For a proof it is the wrong shape: between two commands its state is a
continuation, and an invariant would have to say which one.  So there is a second description.  A
`Phase` says where the enrollment is and what it has in hand: the key, the polls that are left,
the payload, the operations still to be done on the disk.  `Phase.next` goes from one phase to the
next, and `Phase.prog` is what is left of the program in a phase.  That the two agree at every
command is `prog_next`, and with it the whole system is simulated by its phases, crashes included.

## The disk

A file is written as the source does it: its directory is made, it is opened, which empties it,
and its bytes go in one after the other.  Every one of these operations can fail, and a file that
was being written holds some beginning of its text.  A crash keeps the disk and drops the program.

## The edge

`EdgeClient` is the edge as a box can ask it, with its state left open: it may be the control
plane behind its HTTP interface, or anything else that answers.  What the environment decides
about one exchange, such as an answer that is lost, is its parameter, too.
-/

namespace Cococoir
namespace Client
namespace Enroll

open Concurrency
open Box (PollOutcome)
open Claims (Codec PersistedTunnel TunnelConfig persistedTunnelState)
open FormUrl (utf8)
open Prog (ofExcept)

/-! ## Configuration -/

/-- What the config file says of an invite. -/
structure InviteConfig : Type where
  /-- The link that the owner shared. -/
  inviteUrl : String
  iface : String
  prefixLen : UInt8
  listenPort : UInt16
  deriving DecidableEq

/-- The tunnel facts that the edge serves. -/
structure EdgeInfo : Type where
  publicKey : String
  endpoint : String
  allowedIps : String
  deriving DecidableEq

/-! ## The disk -/

/-- The files that an enrollment leaves. -/
inductive File : Type where
  | tunnelState | deviceToken
  deriving DecidableEq

structure Disk : Type where
  /-- The private key of the tunnel. -/
  key : Option Keypair.Text
  files : File → Option (List UInt8)

inductive FileOp : Type where
  | createDirAll (file : File) : FileOp
  /-- The file is opened, created and truncated. -/
  | create (file : File) : FileOp
  | write (file : File) (byte : UInt8) : FileOp
  deriving DecidableEq

def FileOp.exec : FileOp → Disk → Disk
  | .createDirAll _, d => d
  | .create file, d => { d with files := Function.update d.files file (some []) }
  | .write file b, d =>
    { d with files := Function.update d.files file ((d.files file).map (· ++ [b])) }

/-- The text of a file, if it is one. -/
def readToString (bytes : List UInt8) : Option String := String.fromUTF8? ⟨⟨bytes⟩⟩

/-- The device token on the disk, if there is one that is not blank. -/
def persistedDeviceToken (file : Option (List UInt8)) : Option String :=
  ((file.bind readToString).map ControlPlane.trim).filter (· ≠ "")

/-! ## The program -/

inductive Cmd : Type where
  | ensureKeypair : Cmd
  | begin (code publicKey : String) : Cmd
  | poll (code : String) : Cmd
  | edgeInfo : Cmd
  | sleep : Cmd
  | disk (op : FileOp) : Cmd
  deriving DecidableEq

@[reducible] def Cmd.Resp : Cmd → Type
  | .ensureKeypair => Except String String
  | .begin _ _ => Except EnrollError PollOutcome
  | .poll _ => Except EnrollError PollOutcome
  | .edgeInfo => Except EnrollError EdgeInfo
  | .sleep => Unit
  | .disk _ => Except String Unit

/-- A program of the box. -/
abbrev Program (α : Type) : Type := Prog Cmd Cmd.Resp EnrollError α

def ensureKeypair : Program String :=
  .cmd .ensureKeypair fun
    | .ok pubkey => pure pubkey
    | .error err => .throw (.api ("keypair: " ++ err))

def begin (code publicKey : String) : Program PollOutcome := .cmd (.begin code publicKey) fun r => ofExcept r

def poll (code : String) : Program PollOutcome := .cmd (.poll code) fun r => ofExcept r

def edgeInfo : Program EdgeInfo := .cmd .edgeInfo fun r => ofExcept r

def sleep : Program Unit := .cmd .sleep fun _ => pure ()

def disk (op : FileOp) : Program Unit :=
  .cmd (.disk op) fun
    | .ok _ => pure ()
    | .error msg => .throw (.io msg)

def writeAll (file : File) : List UInt8 → Program Unit
  | [] => pure ()
  | b :: bytes => do
    disk (.write file b)
    writeAll file bytes

/-- What a poll's status says: approved, not yet, or an error. -/
def approvedYet (status : String) : Except EnrollError Bool :=
  if status = "approved" then .ok true
  else if status = "waiting" then .ok false
  else if status = "denied" then .error .denied
  else .error (.api ("unknown poll status: " ++ status))

/-- Poll until the owner has approved. -/
def pollUntilApproved (code : String) : (maxPolls : ℕ) → Program PollOutcome
  | 0 => do
    let poll ← poll code
    if ← ofExcept (approvedYet poll.status) then return poll
    else .throw (.timedOut 0)
  | maxPolls + 1 => do
    let poll ← poll code
    if ← ofExcept (approvedYet poll.status) then return poll
    else do
      sleep
      pollUntilApproved code maxPolls

/-- A field that the payload of an approval has to have. -/
def payloadField (name : String) : Option String → Except EnrollError String
  | some value => .ok value
  | none => .error (.api ("approved payload missing " ++ name))

variable (codec : Codec)

/-- Write the enrollment state. -/
def persistTunnelState (tunnel : TunnelConfig) (hostname : String) : Program Unit :=
  if hostname = "" then .panic "an approved machine always has a hostname"
  else do
    disk (.createDirAll .tunnelState)
    disk (.create .tunnelState)
    writeAll .tunnelState (codec.toStringPretty ⟨tunnel, hostname⟩)

/-- Persist the device token, the credential of a rotation. -/
def persistDeviceToken (token : String) : Program Unit :=
  if token = "" then .panic "device token must be non-empty"
  else do
    disk (.createDirAll .deviceToken)
    disk (.create .deviceToken)
    writeAll .deviceToken (utf8 token)

variable (cfg : InviteConfig)

/-- The tunnel of a box, from its config, its assigned address and the edge's facts. -/
def tunnelOf (wgIp : String) (info : EdgeInfo) : TunnelConfig :=
  ⟨cfg.iface, wgIp, cfg.prefixLen, info.publicKey, info.endpoint, info.allowedIps, cfg.listenPort⟩

/-- What an enrollment does with the payload of its approval. -/
def settle (approved : PollOutcome) : Program TunnelConfig := do
  let wgIp ← ofExcept (payloadField "wg_ip" approved.wgIp)
  let hostname ← ofExcept (payloadField "hostname" approved.hostname)
  let deviceToken ← ofExcept (payloadField "device token" approved.deviceToken)
  let info ← edgeInfo
  let tunnel := tunnelOf cfg wgIp info
  persistTunnelState codec tunnel hostname
  persistDeviceToken deviceToken
  return tunnel

/-- Enroll the box: begin, poll until approved, persist. -/
def enroll (maxPolls : ℕ) : Program TunnelConfig := do
  let (_, code) ← ofExcept (parseInviteUrl cfg.inviteUrl)
  let pubkey ← ensureKeypair
  let begun ← begin code pubkey
  if begun.status = "denied" then .throw .denied
  else do
    let approved ← pollUntilApproved code maxPolls
    settle codec cfg approved

/-! ## The box and its edge -/

/-- The edge as a box can ask it: its answers, which the environment decides about, and what asking
does to it. -/
structure EdgeClient (E Ch : Type) : Type where
  begin (code publicKey : String) : Ch → E → Except EnrollError PollOutcome × E
  poll (code : String) : Ch → E → Except EnrollError PollOutcome × E
  edgeInfo : Ch → E → Except EnrollError EdgeInfo × E

/-- What the environment decides about one command of the box. -/
structure Choice (Ch : Type) : Type where
  /-- The disk fails. -/
  fails : Bool
  text : String
  /-- The private key, if one is generated. -/
  secret : Keypair.Secret
  edge : Ch

variable {E Ch Op : Type} (crates : Keypair.Crates) (client : EdgeClient E Ch)

/-- Ensure the keypair, whose file may be unreadable. -/
def keypairOf (ch : Choice Ch) (d : Disk) : Except String String × Disk :=
  if ch.fails then (.error ch.text, d)
  else
    let r := Keypair.ensureKeypair crates ch.secret d.key
    (r.1.mapError fun _ => ch.text, { d with key := r.2 })

def Cmd.exec (ch : Choice Ch) : (c : Cmd) → Disk × E → c.Resp × (Disk × E)
  | .ensureKeypair, (d, e) =>
    let r := keypairOf crates ch d
    (r.1, r.2, e)
  | .begin code publicKey, (d, e) =>
    let r := client.begin code publicKey ch.edge e
    (r.1, d, r.2)
  | .poll code, (d, e) =>
    let r := client.poll code ch.edge e
    (r.1, d, r.2)
  | .edgeInfo, (d, e) =>
    let r := client.edgeInfo ch.edge e
    (r.1, d, r.2)
  | .sleep, s => ((), s)
  | .disk op, (d, e) => if ch.fails then (.error ch.text, d, e) else (.ok (), op.exec d, e)

structure System (E : Type) : Type where
  disk : Disk
  edge : E
  /-- The enrollment of the box, or how it ended; `none` if there is none since the last crash. -/
  box : Option (Program TunnelConfig)
  /-- The polls of this enrollment: the edge as each found it, and what it was answered. -/
  polled : List (E × Except EnrollError PollOutcome)

/-- A box that has not been started, beside its edge. -/
def System.init (d : Disk) (e : E) : System E := ⟨d, e, none, []⟩

inductive Event (Ch Op : Type) : Type where
  /-- The box is started with its invite. -/
  | start : Event Ch Op
  /-- The enrollment issues its next command. -/
  | advance (ch : Choice Ch) : Event Ch Op
  | crash : Event Ch Op
  /-- Something happens at the edge. -/
  | outside (op : Op) : Event Ch Op

/-- The answer to a poll. -/
def Cmd.answer : (c : Cmd) → c.Resp → Option (Except EnrollError PollOutcome)
  | .poll _, r => some r
  | _, _ => none

/-- The enrollment has a command to issue. -/
def running : Option (Program TunnelConfig) → Bool
  | some (.cmd _ _) => true
  | _ => false

variable (act : Op → E → E) (maxPolls : ℕ)

/-- A boot prefers persisted state: it enrolls only if there is none. -/
def step (s : System E) : Event Ch Op → Option (System E)
  | .start =>
    if running s.box ∨ (persistedTunnelState codec (s.disk.files .tunnelState)).isSome then none
    else some ⟨s.disk, s.edge, some (enroll codec cfg maxPolls), []⟩
  | .advance ch =>
    match s.box with
    | some (.cmd c k) =>
      let r := c.exec crates client ch (s.disk, s.edge)
      let polled := (c.answer r.1).toList.map fun answer => (s.edge, answer)
      some ⟨r.2.1, r.2.2, some (k r.1), s.polled ++ polled⟩
    | _ => none
  | .crash => some { s with box := none }
  | .outside op => some { s with edge := act op s.edge }

/-! ## Where an enrollment is -/

/-- What writing one file takes. -/
def saveOps (file : File) (bytes : List UInt8) : List FileOp :=
  .createDirAll file :: .create file :: bytes.map (.write file)

/-- What an enrollment writes, once it has it all. -/
structure Payload : Type where
  wgIp : String
  hostname : String
  deviceToken : String
  info : EdgeInfo
  deriving DecidableEq

def Payload.persisted (p : Payload) : PersistedTunnel := ⟨tunnelOf cfg p.wgIp p.info, p.hostname⟩

/-- What a payload leads to on the disk, and how the enrollment then ends. -/
def save (p : Payload) : List FileOp × Outcome EnrollError TunnelConfig :=
  let first := saveOps .tunnelState (codec.toStringPretty (p.persisted cfg))
  if p.hostname = "" then ([], .panic "an approved machine always has a hostname")
  else if p.deviceToken = "" then (first, .panic "device token must be non-empty")
  else (first ++ saveOps .deviceToken (utf8 p.deviceToken), .ok (tunnelOf cfg p.wgIp p.info))

inductive Phase : Type where
  | starting : Phase
  /-- It has the key, and begins. -/
  | keyed (pubkey : String) : Phase
  /-- It polls, with this many polls left after it. -/
  | polling (left : ℕ) : Phase
  | sleeping (left : ℕ) : Phase
  /-- It has its payload, and asks for the tunnel facts. -/
  | fetching (wgIp hostname deviceToken : String) : Phase
  /-- This is left to do on the disk. -/
  | saving (ops : List FileOp) (o : Outcome EnrollError TunnelConfig) : Phase
  deriving DecidableEq

abbrev Phase.ended (o : Outcome EnrollError TunnelConfig) : Phase := .saving [] o

def perform : List FileOp → Outcome EnrollError TunnelConfig → Program TunnelConfig
  | [], o => .done o
  | op :: ops, o => do
    disk op
    perform ops o

variable (code : String)

/-- What is left of the program. -/
def Phase.prog : Phase → Program TunnelConfig
  | .starting => do
    let pubkey ← ensureKeypair
    let begun ← begin code pubkey
    if begun.status = "denied" then .throw .denied
    else do
      let approved ← pollUntilApproved code maxPolls
      settle codec cfg approved
  | .keyed pubkey => do
    let begun ← begin code pubkey
    if begun.status = "denied" then .throw .denied
    else do
      let approved ← pollUntilApproved code maxPolls
      settle codec cfg approved
  | .polling left => do
    let approved ← pollUntilApproved code left
    settle codec cfg approved
  | .sleeping left => do
    sleep
    let approved ← pollUntilApproved code left
    settle codec cfg approved
  | .fetching wgIp hostname deviceToken => do
    let info ← edgeInfo
    let tunnel := tunnelOf cfg wgIp info
    persistTunnelState codec tunnel hostname
    persistDeviceToken deviceToken
    return tunnel
  | .saving ops o => perform ops o

/-- Where an approval's payload leads. -/
def settled (approved : PollOutcome) : Phase :=
  match payloadField "wg_ip" approved.wgIp, payloadField "hostname" approved.hostname,
    payloadField "device token" approved.deviceToken with
  | .ok wgIp, .ok hostname, .ok deviceToken => .fetching wgIp hostname deviceToken
  | .error err, _, _ | _, .error err, _ | _, _, .error err => .ended (.err err)

/-- Where a poll's answer leads. -/
def judged (left : ℕ) (poll : PollOutcome) : Phase :=
  match approvedYet poll.status, left with
  | .error err, _ => .ended (.err err)
  | .ok true, _ => settled poll
  | .ok false, 0 => .ended (.err (.timedOut 0))
  | .ok false, left + 1 => .sleeping left

/-- Where the next command leads, and what it does. -/
def Phase.next (ch : Choice Ch) : Phase → Disk × E → Phase × (Disk × E)
  | .starting, (d, e) =>
    let r := keypairOf crates ch d
    (match r.1 with
      | .ok pubkey => .keyed pubkey
      | .error err => .ended (.err (.api ("keypair: " ++ err))), r.2, e)
  | .keyed pubkey, (d, e) =>
    let r := client.begin code pubkey ch.edge e
    (match r.1 with
      | .ok begun => if begun.status = "denied" then .ended (.err .denied) else .polling maxPolls
      | .error err => .ended (.err err), d, r.2)
  | .polling left, (d, e) =>
    let r := client.poll code ch.edge e
    (match r.1 with
      | .ok poll => judged left poll
      | .error err => .ended (.err err), d, r.2)
  | .sleeping left, s => (.polling left, s)
  | .fetching wgIp hostname deviceToken, (d, e) =>
    let r := client.edgeInfo ch.edge e
    (match r.1 with
      | .ok info =>
        .saving (save codec cfg ⟨wgIp, hostname, deviceToken, info⟩).1
          (save codec cfg ⟨wgIp, hostname, deviceToken, info⟩).2
      | .error err => .ended (.err err), d, r.2)
  | .saving [] o, s => (.ended o, s)
  | .saving (op :: ops) o, (d, e) =>
    if ch.fails then (.ended (.err (.io ch.text)), d, e) else (.saving ops o, op.exec d, e)

/-- What the next command is answered, if it is a poll. -/
def Phase.answer (ch : Choice Ch) (e : E) : Phase → Option (Except EnrollError PollOutcome)
  | .polling _ => some (client.poll code ch.edge e).1
  | _ => none

def Phase.isEnded : Phase → Bool
  | .saving [] _ => true
  | _ => false

variable {codec cfg crates client act maxPolls code} {d : Disk} {e : E} {s s' : System E}

theorem enroll_eq {base : String} (h : parseInviteUrl cfg.inviteUrl = .ok (base, code)) :
    enroll codec cfg maxPolls = Phase.starting.prog codec cfg maxPolls code := by
  rw [enroll, h]
  rfl

theorem writeAll_bind {file : File} {bytes : List UInt8} {ops : List FileOp}
    {o : Outcome EnrollError TunnelConfig} :
    (writeAll file bytes >>= fun _ => perform ops o) = perform (bytes.map (.write file) ++ ops) o := by
  induction bytes with
  | nil => rfl
  | cons b bytes ih =>
    rw [writeAll, Prog.bind_assoc, List.map_cons, List.cons_append, perform, ← ih]

/-- Writing a file is performing its operations. -/
theorem saveOps_bind {file : File} {bytes : List UInt8} {ops : List FileOp}
    {o : Outcome EnrollError TunnelConfig} :
    ((do
      disk (.createDirAll file)
      disk (.create file)
      writeAll file bytes) >>= fun _ => perform ops o) = perform (saveOps file bytes ++ ops) o := by
  rw [Prog.bind_assoc, saveOps, List.cons_append, List.cons_append, perform, perform, ← writeAll_bind]
  refine congrArg (disk (.createDirAll file) >>= ·) (funext fun _ => ?_)
  rw [Prog.bind_assoc]

/-- So it is for both files of a payload. -/
theorem persist_eq {wgIp hostname deviceToken : String} {info : EdgeInfo} :
    (do
      persistTunnelState codec (tunnelOf cfg wgIp info) hostname
      persistDeviceToken deviceToken
      return tunnelOf cfg wgIp info) =
    perform (save codec cfg ⟨wgIp, hostname, deviceToken, info⟩).1
      (save codec cfg ⟨wgIp, hostname, deviceToken, info⟩).2 := by
  unfold persistTunnelState persistDeviceToken save
  by_cases hhost : hostname = ""
  · simp only [if_pos hhost]
    rfl
  · by_cases htoken : deviceToken = ""
    · simp only [if_neg hhost, if_pos htoken]
      rw [← List.append_nil (saveOps _ _), ← saveOps_bind]
      rfl
    · simp only [if_neg hhost, if_neg htoken]
      rw [← saveOps_bind, ← List.append_nil (saveOps .deviceToken _), ← saveOps_bind]
      rfl

theorem settle_eq {approved : PollOutcome} :
    settle codec cfg approved = (settled approved).prog codec cfg maxPolls code := by
  obtain ⟨status, wgIp, hostname, deviceToken⟩ := approved
  cases wgIp with
  | none => rfl
  | some wgIp =>
    cases hostname with
    | none => rfl
    | some hostname => cases deviceToken <;> rfl

/-- What the program does with the answer of its last poll. -/
theorem judged_zero {answer : PollOutcome} :
    (do
      if ← ofExcept (approvedYet answer.status) then return answer
      else Prog.throw (.timedOut 0) : Program PollOutcome) >>= settle codec cfg =
      (judged 0 answer).prog codec cfg maxPolls code := by
  unfold judged
  cases approvedYet answer.status with
  | error err => rfl
  | ok approved =>
    cases approved with
    | true => exact settle_eq
    | false => rfl

/-- And with that of an earlier one. -/
theorem judged_succ {left : ℕ} {answer : PollOutcome} :
    (do
      if ← ofExcept (approvedYet answer.status) then return answer
      else do
        sleep
        pollUntilApproved code left : Program PollOutcome) >>= settle codec cfg =
      (judged (left + 1) answer).prog codec cfg maxPolls code := by
  unfold judged
  cases approvedYet answer.status with
  | error err => rfl
  | ok approved =>
    cases approved with
    | true => exact settle_eq
    | false => rfl

variable (codec cfg crates client maxPolls code) in
/-- **The program of an enrollment goes where its phase goes.** -/
theorem prog_next {phase : Phase} (h : phase.isEnded = false) :
    ∃ c k, phase.prog codec cfg maxPolls code = .cmd c k ∧
      ∀ (ch : Choice Ch) (s : Disk × E), (c.exec crates client ch s).2 =
          (phase.next codec cfg crates client maxPolls code ch s).2 ∧
        c.answer (c.exec crates client ch s).1 = phase.answer client code ch s.2 ∧
        k (c.exec crates client ch s).1 =
          (phase.next codec cfg crates client maxPolls code ch s).1.prog codec cfg maxPolls code := by
  cases phase with
  | starting =>
    refine ⟨_, _, rfl, fun ch ⟨d, e⟩ => ⟨rfl, rfl, ?_⟩⟩
    dsimp only [Cmd.exec, Phase.next]
    cases (keypairOf crates ch d).1 with
    | ok pubkey => rfl
    | error err => rfl
  | keyed pubkey =>
    refine ⟨_, _, rfl, fun ch ⟨d, e⟩ => ⟨rfl, rfl, ?_⟩⟩
    dsimp only [Cmd.exec, Phase.next]
    cases (client.begin code pubkey ch.edge e).1 with
    | ok begun =>
      show (if begun.status = "denied" then _ else _ : Program TunnelConfig) =
        Phase.prog codec cfg maxPolls code (if begun.status = "denied" then _ else _)
      split_ifs <;> rfl
    | error err => rfl
  | polling left =>
    cases left with
    | zero =>
      refine ⟨_, _, rfl, fun ch ⟨d, e⟩ => ⟨rfl, rfl, ?_⟩⟩
      dsimp only [Cmd.exec, Phase.next]
      cases (client.poll code ch.edge e).1 with
      | ok answer => exact judged_zero
      | error err => rfl
    | succ left =>
      refine ⟨_, _, rfl, fun ch ⟨d, e⟩ => ⟨rfl, rfl, ?_⟩⟩
      dsimp only [Cmd.exec, Phase.next]
      cases (client.poll code ch.edge e).1 with
      | ok answer => exact judged_succ
      | error err => rfl
  | sleeping left => exact ⟨_, _, rfl, fun ch s => ⟨rfl, rfl, rfl⟩⟩
  | fetching wgIp hostname deviceToken =>
    refine ⟨_, _, rfl, fun ch ⟨d, e⟩ => ⟨rfl, rfl, ?_⟩⟩
    dsimp only [Cmd.exec, Phase.next]
    cases (client.edgeInfo ch.edge e).1 with
    | ok info => exact persist_eq
    | error err => rfl
  | saving ops o =>
    cases ops with
    | nil => cases h
    | cons op ops =>
      refine ⟨_, _, rfl, fun ch ⟨d, e⟩ => ?_⟩
      dsimp only [Cmd.exec, Phase.next]
      split_ifs <;> exact ⟨rfl, rfl, rfl⟩

/-! ## The same system, by its phases -/

/-- A box whose program is known by its phase. -/
structure Enrollment (E : Type) : Type where
  disk : Disk
  edge : E
  phase : Option Phase
  polled : List (E × Except EnrollError PollOutcome)

variable (codec cfg maxPolls code) in
/-- The system that an enrollment is. -/
def Enrollment.system (t : Enrollment E) : System E :=
  ⟨t.disk, t.edge, t.phase.map (Phase.prog codec cfg maxPolls code), t.polled⟩

/-- The enrollment still has something to do. -/
def Enrollment.running (t : Enrollment E) : Bool := t.phase.any fun phase => !phase.isEnded

variable (codec cfg crates client act maxPolls code) in
def Enrollment.step (t : Enrollment E) : Event Ch Op → Option (Enrollment E)
  | .start =>
    if t.running ∨ (persistedTunnelState codec (t.disk.files .tunnelState)).isSome then none
    else some ⟨t.disk, t.edge, some .starting, []⟩
  | .advance ch =>
    match t.phase with
    | none => none
    | some phase =>
      if phase.isEnded then none
      else
        let r := phase.next codec cfg crates client maxPolls code ch (t.disk, t.edge)
        let polled := (phase.answer client code ch t.edge).toList.map fun answer => (t.edge, answer)
        some ⟨r.2.1, r.2.2, some r.1, t.polled ++ polled⟩
  | .crash => some { t with phase := none }
  | .outside op => some { t with edge := act op t.edge }

variable (codec cfg maxPolls code) in
theorem prog_ended {phase : Phase} (h : phase.isEnded = true) :
    ∃ o, phase = .ended o ∧ phase.prog codec cfg maxPolls code = .done o := by
  match phase, h with
  | .saving [] o, _ => exact ⟨o, rfl, rfl⟩

theorem running_prog {phase : Phase} :
    running (some (phase.prog codec cfg maxPolls code)) = !phase.isEnded := by
  cases phase with
  | polling left => cases left <;> rfl
  | saving ops o => cases ops <;> rfl
  | _ => rfl

variable {t t' : Enrollment E}

theorem running_system : running (t.system codec cfg maxPolls code).box = t.running := by
  cases hphase : t.phase with
  | none => simp [Enrollment.system, Enrollment.running, running, hphase]
  | some phase => simp [Enrollment.system, Enrollment.running, hphase, running_prog]

/-- **The phases simulate the program**, step by step. -/
theorem step_system {base : String} (h : parseInviteUrl cfg.inviteUrl = .ok (base, code))
    {ev : Event Ch Op} : Enroll.step codec cfg crates client act maxPolls (t.system codec cfg maxPolls code) ev =
      (t.step codec cfg crates client act maxPolls code ev).map (Enrollment.system codec cfg maxPolls code) := by
  cases ev with
  | start =>
    have hdisk : (t.system codec cfg maxPolls code).disk = t.disk := rfl
    simp only [Enroll.step, Enrollment.step, running_system, enroll_eq h, hdisk]
    split_ifs <;> rfl
  | advance ch =>
    cases hphase : t.phase with
    | none => simp [Enroll.step, Enrollment.step, Enrollment.system, hphase]
    | some phase =>
      cases hended : phase.isEnded with
      | true =>
        obtain ⟨o, -, hprog⟩ := prog_ended codec cfg maxPolls code hended
        simp [Enroll.step, Enrollment.step, Enrollment.system, hphase, hprog, hended]
      | false =>
        obtain ⟨c, k, hprog, hnext⟩ := prog_next codec cfg crates client maxPolls code hended
        obtain ⟨hstate, hanswer, hk⟩ := hnext ch (t.disk, t.edge)
        simp only [Enroll.step, Enrollment.step, Enrollment.system, hphase, Option.map_some, hprog, hended,
          hstate, hanswer, hk]
        rfl
  | crash => rfl
  | outside op => rfl

end Enroll
end Client
end Cococoir
