import Cococoir.ControlPlane.Records
import Cococoir.Json.Value

/-!
# What a poll looks like on the wire

The edge answers a poll in JSON, written by one of two codecs: the site's, which copies two
fields of the machine into a record of its own, and the API's, which writes the outcome and the
whole machine as they are, with the outcome's keys in camel case.  The box reads what it needs
back out of the JSON value.

* `poll_wire_agrees`: whichever codec wrote it, the box reads the same outcome.
* `toJson_mapPoll_of_boxView`: the site's JSON depends on nothing else of the outcome.

## The argument

Both codecs write the same outcome around different machines: the site's has two fields, the API's
all of them, and the keys of the outcome are the same in both.  So `outcomeJson` writes an outcome
around any machine value, and `pollOutcome_outcomeJson` says what the box reads of it, given what
the box reads of the machine.  A reader takes the first pair with a key and passes the others, so
what matters is only which fields a machine value has under the two keys that the box asks for.
An absent machine is left out by one writer and is `null` for the other, and reads alike.
-/

namespace Cococoir
namespace Box

open ControlPlane (Machine)
open Json (Value)
open Json.Value (field skippable nullable object string)

/-! ## The site -/

/-- What the site tells of a machine. -/
structure MachineInfo where
  wgIp : String
  hostname : String
  deriving DecidableEq

/-- The site's own outcome of a poll. -/
structure SiteOutcome where
  status : String
  machine : Option MachineInfo
  deviceToken : Option String
  deriving DecidableEq

/-- Only two fields of the machine cross the wire. -/
def mapPoll (outcome : ControlPlane.PollOutcome) : SiteOutcome where
  status := outcome.status
  machine := outcome.machine.map fun machine => ⟨machine.wgIp, machine.hostname⟩
  deviceToken := outcome.deviceToken

/-- A machine as the site writes it. -/
def MachineInfo.toJson (info : MachineInfo) : Value :=
  object (field "wg_ip" (string info.wgIp) ++ field "hostname" (string info.hostname))

/-- The site's JSON: absent fields are left out, and the token's key is in camel case. -/
def SiteOutcome.toJson (outcome : SiteOutcome) : Value :=
  object (field "status" (string outcome.status) ++
    (skippable "machine" (outcome.machine.map MachineInfo.toJson) ++
      skippable "deviceToken" (outcome.deviceToken.map string)))

/-! ## The API -/

/-- A machine as the API writes it: all of its fields. -/
def machineJson (machine : Machine) : Value :=
  object (field "name" (string machine.name) ++
    (nullable "owner" (machine.owner.map string) ++
    (field "hostname" (string machine.hostname) ++
    (field "ipv6" (string machine.ipv6) ++
    (field "wg_ip" (string machine.wgIp) ++
    (field "wg_public_key" (string machine.wgPublicKey) ++
      nullable "device_token_hash" (machine.deviceTokenHash.map string)))))))

/-- The API's JSON: the domain's outcome, with its keys in camel case. -/
def apiJson (outcome : ControlPlane.PollOutcome) : Value :=
  object (field "status" (string outcome.status) ++
    (skippable "machine" (outcome.machine.map machineJson) ++
      skippable "deviceToken" (outcome.deviceToken.map string)))

/-! ## The box -/

/-- What the edge's poll returns, as the box sees it. -/
structure PollOutcome where
  status : String
  wgIp : Option String
  hostname : Option String
  deviceToken : Option String
  deriving DecidableEq

/-- Read an outcome; a status that is not there is empty. -/
def pollOutcome (value : Value) : PollOutcome where
  status := ((value.get "status").bind Value.asStr).getD ""
  wgIp := ((value.get "machine").bind (Value.get "wg_ip")).bind Value.asStr
  hostname := ((value.get "machine").bind (Value.get "hostname")).bind Value.asStr
  deviceToken := (value.get "deviceToken").bind Value.asStr

/-- What the box is to learn from an outcome. -/
def boxView (outcome : ControlPlane.PollOutcome) : PollOutcome where
  status := outcome.status
  wgIp := outcome.machine.map (·.wgIp)
  hostname := outcome.machine.map (·.hostname)
  deviceToken := outcome.deviceToken

/-! ## The codecs agree -/

section Read

variable {status : String} {machine : Option Value} {token : Option String}

/-- An outcome as both codecs write it, around their machines. -/
abbrev outcomeJson (status : String) (machine : Option Value) (token : Option String) : Value :=
  object (field "status" (string status) ++
    (skippable "machine" machine ++ skippable "deviceToken" (token.map string)))

theorem get_status : (outcomeJson status machine token).get "status" = some (string status) :=
  Value.get_field_self

theorem get_machine : (outcomeJson status machine token).get "machine" = machine := by
  rw [outcomeJson, Value.get_field_of_ne (by decide)]
  refine Value.get_skippable_self ?_
  cases token <;> simp [skippable]

theorem get_deviceToken :
    (outcomeJson status machine token).get "deviceToken" = token.map string := by
  rw [outcomeJson, Value.get_field_of_ne (by decide), Value.get_skippable_of_ne (by decide),
    ← List.append_nil (skippable "deviceToken" _)]
  exact Value.get_skippable_self (by simp)

/-- What the box reads of an outcome, by what it reads of the machine. -/
theorem pollOutcome_outcomeJson : pollOutcome (outcomeJson status machine token) =
    ⟨status, (machine.bind (Value.get "wg_ip")).bind Value.asStr,
      (machine.bind (Value.get "hostname")).bind Value.asStr, token⟩ := by
  rw [pollOutcome, get_status, get_machine, get_deviceToken]
  cases token <;> rfl

end Read

theorem get_machineInfo {info : MachineInfo} : info.toJson.get "wg_ip" = some (string info.wgIp) ∧
    info.toJson.get "hostname" = some (string info.hostname) := by
  rw [MachineInfo.toJson]
  refine ⟨Value.get_field_self, ?_⟩
  rw [Value.get_field_of_ne (by decide), ← List.append_nil (field "hostname" _)]
  exact Value.get_field_self

theorem get_machineJson {machine : Machine} :
    (machineJson machine).get "wg_ip" = some (string machine.wgIp) ∧
      (machineJson machine).get "hostname" = some (string machine.hostname) := by
  constructor <;> rfl

/-- What the box reads of a machine that is told it in two fields. -/
theorem pollOutcome_of_machine {encode : Machine → Value}
    (hip : ∀ m, (encode m).get "wg_ip" = some (string m.wgIp))
    (hname : ∀ m, (encode m).get "hostname" = some (string m.hostname))
    (outcome : ControlPlane.PollOutcome) :
    pollOutcome (outcomeJson outcome.status (outcome.machine.map encode) outcome.deviceToken) =
      boxView outcome := by
  rw [pollOutcome_outcomeJson, boxView]
  cases hm : outcome.machine with
  | none => rfl
  | some m =>
    simp only [Option.map_some, Option.bind_some, hip, hname]
    rfl

theorem toJson_mapPoll (outcome : ControlPlane.PollOutcome) :
    (mapPoll outcome).toJson = outcomeJson outcome.status
      (outcome.machine.map fun m => MachineInfo.toJson ⟨m.wgIp, m.hostname⟩)
      outcome.deviceToken := by
  rw [SiteOutcome.toJson, mapPoll, Option.map_map]
  rfl

/-- The site tells nothing else of a machine than its tunnel address and its hostname. -/
theorem toJson_mapPoll_of_boxView {outcome outcome' : ControlPlane.PollOutcome}
    (h : boxView outcome = boxView outcome') :
    (mapPoll outcome).toJson = (mapPoll outcome').toJson := by
  obtain ⟨status, machine, token⟩ := outcome
  obtain ⟨status', machine', token'⟩ := outcome'
  simp only [boxView, PollOutcome.mk.injEq] at h
  obtain ⟨rfl, hip, hname, rfl⟩ := h
  rw [toJson_mapPoll, toJson_mapPoll]
  cases machine with
  | none =>
    cases machine' with
    | none => rfl
    | some m => cases hip
  | some m =>
    cases machine' with
    | none => cases hip
    | some m' =>
      have hip : m.wgIp = m'.wgIp := Option.some.inj hip
      have hname : m.hostname = m'.hostname := Option.some.inj hname
      simp only [Option.map_some, hip, hname]

theorem keys_outcomeJson {status : String} {machine : Option Value} {token : Option String} :
    (outcomeJson status machine token).keys ⊆ ["status", "machine", "deviceToken"] := by
  cases machine <;> cases token <;> simp [Value.keys, field, skippable]

/-- **The wire agreement.**  From the site's JSON and from the API's the box reads the outcome's
status, the machine's tunnel address and hostname, and the token, each if it is there; and the
site's JSON has no other field of the machine. -/
theorem poll_wire_agrees (outcome : ControlPlane.PollOutcome) :
    pollOutcome (mapPoll outcome).toJson = boxView outcome ∧
      pollOutcome (apiJson outcome) = boxView outcome ∧
      (mapPoll outcome).toJson.keys ⊆ ["status", "machine", "deviceToken"] ∧
      ∀ v, (mapPoll outcome).toJson.get "machine" = some v → ∃ m, outcome.machine = some m ∧
        v = object [("wg_ip", string m.wgIp), ("hostname", string m.hostname)] := by
  rw [toJson_mapPoll]
  refine ⟨pollOutcome_of_machine (fun _ => get_machineInfo.1) (fun _ => get_machineInfo.2) outcome,
    pollOutcome_of_machine (fun _ => get_machineJson.1) (fun _ => get_machineJson.2) outcome,
    keys_outcomeJson, fun v hv => ?_⟩
  rw [get_machine] at hv
  obtain ⟨m, hm, rfl⟩ := Option.map_eq_some_iff.mp hv
  exact ⟨m, hm, rfl⟩

end Box
end Cococoir
