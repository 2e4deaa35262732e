import Cococoir.Forwarder.Live
import Cococoir.Text.Replace

/-!
# The forwards of a boot

A box that has no tunnel yet and whose forwards need one boots claimable; any other box boots in
full, with its forwards' placeholders replaced by the tunnel's address.

* `bootMode`, `bindableForwards`: the decision, and the forwards of a full boot.
* `Boots`: what a full boot guarantees to the forwarder.
* `assertionTripped`: an address that is a piece of the placeholder's own word can leave a
  placeholder behind.
* `full_boot`: any other address that is not empty and has no brace replaces them all, and
  `forall_boots_iff` says that no address can be spared the condition.

## Replacing the placeholder

The forwards of a box may name the tunnel's address before there is one, by a placeholder in
braces.  A boot replaces it and then asserts that none is left.  The assertion is about the text
afterwards, and replacing can make a placeholder anew, from the address and what stands around it;
`Text.Replace` says when.  Here the brackets are the braces and the word between them is fixed, so
the addresses that can do it are the pieces of this word.  None of them is an IP address, and an
address that is none of them is safe in every field.

The other half of a boot is the decision whether it is one: a box without a tunnel whose forwards
need it has to be claimed first.  `Boots` is what the forwarder may rely on, whichever way the box
came to boot.
-/

namespace Cococoir
namespace Client
namespace Boot

open Forwarder (Forward Proto)
open Replace

/-! ## Model -/

/-- What a boot reads of the tunnel. -/
structure TunnelConfig where
  /-- The customer's tunnel address on the interface. -/
  ip : String

/-- The word between the braces of the placeholder. -/
def placeholderWord : List Char := "tunnel_ip".toList

/-- The placeholder, in braces. -/
def placeholder : List Char := '{' :: (placeholderWord ++ ['}'])

/-- A forward that references the tunnel address, in either field. -/
def forwardNeedsTunnel (f : Forward) : Bool :=
  placeholder <:+: f.destAddr.toList || placeholder <:+: f.listenAddr.toList

/-- Replace the placeholder in one field; the error is a failed assertion. -/
def substituteField (field tunnelIp : String) : Except String String :=
  if placeholder <:+: field.toList then
    if tunnelIp = "" then .error "tunnel ip required for substitution"
    else .ok (String.ofList (replace placeholder tunnelIp.toList field.toList))
  else .ok field

/-- Replace the placeholder in both fields of every forward. -/
def substituteTunnelIp (forwards : List Forward) (tunnel : TunnelConfig) :
    Except String (List Forward) :=
  forwards.mapM fun f => do
    let listenAddr ← substituteField f.listenAddr tunnel.ip
    let destAddr ← substituteField f.destAddr tunnel.ip
    return { f with listenAddr, destAddr }

inductive BootMode : Type where
  | full : BootMode
  | claimable : BootMode
  deriving DecidableEq

/-- Decide the boot mode; the error is a failed assertion. -/
def bootMode (tunnel : Option TunnelConfig) (forwards : List Forward) : Except String BootMode :=
  let needsTunnel := forwards.any forwardNeedsTunnel
  let mode := match tunnel, needsTunnel with
    | none, true => BootMode.claimable
    | _, _ => BootMode.full
  if decide (mode = .claimable) = (tunnel.isNone && needsTunnel) then .ok mode
  else .error "claimable mode is exactly 'no tunnel + forwards that need one'"

/-- The forwards that a full boot will bind, or `none` when a config has none; the error is a failed
assertion. -/
def bindableForwards (tunnel : Option TunnelConfig) (forwards : List Forward) :
    Except String (Option (List Forward)) := do
  if forwards.isEmpty then return none
  let resolved ← match tunnel with
    | some t => substituteTunnelIp forwards t
    | none => pure forwards
  if resolved.all fun f => !forwardNeedsTunnel f then return some resolved
  else throw "claimable mode gates every forward that still needs a tunnel"

inductive ConfigError : Type where
  | emptyForwards : ConfigError
  | invalidForward (index : ℕ) (message : String) : ConfigError
  deriving DecidableEq

/-- The check of each forward, from position `index` on. -/
def checkForwards : (index : ℕ) → List Forward → Except ConfigError Unit
  | _, [] => .ok ()
  | index, fwd :: rest =>
    if fwd.listenAddr = "" then .error (.invalidForward index "empty listen_addr")
    else if fwd.destAddr = "" then .error (.invalidForward index "empty dest_addr")
    else checkForwards (index + 1) rest

/-- A forwarder that may start with no forward. -/
def newLive (forwards : List Forward) : Except ConfigError (List Forward) := do
  checkForwards 0 forwards
  return forwards

/-- The forwarder of a static config. -/
def new (forwards : List Forward) : Except ConfigError (List Forward) :=
  if forwards = [] then .error .emptyForwards else newLive forwards

/-! ## What a boot guarantees -/

/-- The forward with every placeholder replaced, and every other character as it was. -/
structure Resolves (tunnel : Option TunnelConfig) (f f' : Forward) : Prop where
  proto : f'.proto = f.proto
  listenAddr : ∀ t ∈ tunnel,
    Replaced placeholder t.ip.toList f.listenAddr.toList f'.listenAddr.toList
  destAddr : ∀ t ∈ tunnel, Replaced placeholder t.ip.toList f.destAddr.toList f'.destAddr.toList
  unchanged : tunnel = none → f' = f

/-- What a full boot guarantees. -/
structure Boots (tunnel : Option TunnelConfig) (forwards : List Forward) : Prop where
  /-- No assertion fails, and there is nothing to bind exactly if no forward is configured. -/
  bindable : ∃ resolved, bindableForwards tunnel forwards = .ok resolved ∧
    (resolved = none ↔ forwards = [])
  /-- One forward for each, in the same order, with the placeholders replaced. -/
  resolves : ∀ resolved, bindableForwards tunnel forwards = .ok (some resolved) →
    List.Forall₂ (Resolves tunnel) forwards resolved
  /-- The forwarder gets at least one forward, and no placeholder. -/
  ready : ∀ resolved, bindableForwards tunnel forwards = .ok (some resolved) →
    new resolved ≠ .error .emptyForwards ∧ ∀ f ∈ resolved, forwardNeedsTunnel f = false
  /-- A second substitution changes nothing. -/
  idempotent : ∀ t ∈ tunnel, ∃ resolved, substituteTunnelIp forwards t = .ok resolved ∧
    substituteTunnelIp resolved t = .ok resolved

/-- A tunnel address that is not empty and has no brace. -/
def Braceless (tunnel : Option TunnelConfig) : Prop :=
  ∀ t ∈ tunnel, t.ip ≠ "" ∧ '{' ∉ t.ip.toList ∧ '}' ∉ t.ip.toList

/-! ## Substitution -/

variable {tunnel : Option TunnelConfig} {t : TunnelConfig} {f : Forward} {forwards : List Forward}

theorem placeholder_ne_nil : placeholder ≠ [] := List.cons_ne_nil _ _

/-- A field with the placeholder replaced. -/
def resolveField (field tunnelIp : String) : String :=
  String.ofList (replace placeholder tunnelIp.toList field.toList)

/-- A forward with the placeholder replaced. -/
def resolve (t : TunnelConfig) (f : Forward) : Forward :=
  { f with
    listenAddr := resolveField f.listenAddr t.ip
    destAddr := resolveField f.destAddr t.ip }

/-- Where there is no placeholder, replacing it changes nothing. -/
theorem resolveField_of_absent {field tunnelIp : String} (h : ¬placeholder <:+: field.toList) :
    resolveField field tunnelIp = field := by
  rw [resolveField, replace_of_absent h, String.ofList_toList]

theorem substituteField_eq {field tunnelIp : String} (hip : tunnelIp ≠ "") :
    substituteField field tunnelIp = .ok (resolveField field tunnelIp) := by
  unfold substituteField
  split_ifs with h
  · rfl
  · rw [resolveField_of_absent h]

theorem substituteTunnelIp_eq (hip : t.ip ≠ "") :
    substituteTunnelIp forwards t = .ok (forwards.map (resolve t)) := by
  have hone : (fun f : Forward => do
      let listenAddr ← substituteField f.listenAddr t.ip
      let destAddr ← substituteField f.destAddr t.ip
      return { f with listenAddr, destAddr }) = fun f => pure (resolve t f) := by
    funext f
    rw [substituteField_eq hip, substituteField_eq hip]
    rfl
  rw [substituteTunnelIp, hone, List.mapM_pure]
  rfl

theorem replaced_resolveField (field tunnelIp : String) :
    Replaced placeholder tunnelIp.toList field.toList (resolveField field tunnelIp).toList := by
  rw [resolveField, String.toList_ofList]
  exact replaced_replace placeholder_ne_nil _

theorem resolves_resolve : Resolves (some t) f (resolve t f) where
  proto := rfl
  listenAddr := by
    rintro _ ⟨⟩
    exact replaced_resolveField f.listenAddr t.ip
  destAddr := by
    rintro _ ⟨⟩
    exact replaced_resolveField f.destAddr t.ip
  unchanged h := by cases h

theorem forwardNeedsTunnel_eq_false : forwardNeedsTunnel f = false ↔
    ¬placeholder <:+: f.destAddr.toList ∧ ¬placeholder <:+: f.listenAddr.toList := by
  simp [forwardNeedsTunnel]

/-- Without placeholders nothing changes. -/
theorem resolve_of_not_needs (h : forwardNeedsTunnel f = false) : resolve t f = f := by
  obtain ⟨hdest, hlisten⟩ := forwardNeedsTunnel_eq_false.mp h
  rw [resolve, resolveField_of_absent hdest, resolveField_of_absent hlisten]

/-- An address that is no piece of the placeholder's word leaves no placeholder. -/
theorem not_needs_resolve (hopen : '{' ∉ t.ip.toList) (hclose : '}' ∉ t.ip.toList)
    (hpiece : ¬t.ip.toList <:+: placeholderWord) (f : Forward) :
    forwardNeedsTunnel (resolve t f) = false := by
  have hgone : ∀ field : String, ¬placeholder <:+: (resolveField field t.ip).toList := by
    intro field
    rw [resolveField, String.toList_ofList]
    exact not_infix_replace hopen hclose (by decide) hpiece _
  exact forwardNeedsTunnel_eq_false.mpr ⟨hgone _, hgone _⟩

/-! ## Full boots -/

/-- A full boot has a tunnel, or no placeholder. -/
theorem bootMode_eq_full : bootMode tunnel forwards = .ok .full ↔
    tunnel ≠ none ∨ ∀ f ∈ forwards, forwardNeedsTunnel f = false := by
  cases tunnel with
  | some t => simp [bootMode]
  | none =>
    cases hneeds : forwards.any forwardNeedsTunnel with
    | true =>
      obtain ⟨f, hf, hf'⟩ := List.any_eq_true.mp hneeds
      refine iff_of_false (by simp [bootMode, hneeds]) fun h => ?_
      rcases h with h | h
      · exact h rfl
      · rw [h f hf] at hf'
        cases hf'
    | false =>
      refine iff_of_true (by simp [bootMode, hneeds]) (.inr fun f hf => ?_)
      have := List.any_eq_false.mp hneeds f hf
      simpa using this

/-- What is bound when no placeholder is left. -/
theorem bindableForwards_eq {resolved : List Forward} (hne : forwards ≠ [])
    (hresolved : (match tunnel with
      | some t => substituteTunnelIp forwards t
      | none => pure forwards) = .ok resolved)
    (hnone : ∀ f ∈ resolved, forwardNeedsTunnel f = false) :
    bindableForwards tunnel forwards = .ok (some resolved) := by
  have hempty : forwards.isEmpty = false := by simpa using hne
  have hall : (resolved.all fun f => !forwardNeedsTunnel f) = true :=
    List.all_eq_true.mpr fun f hf => by rw [hnone f hf]; rfl
  unfold bindableForwards
  rw [hempty]
  cases tunnel with
  | some t =>
    have hresolved : substituteTunnelIp forwards t = .ok resolved := hresolved
    simp only [hresolved, bind, Except.bind, hall, Bool.false_eq_true, if_false, if_true]
    rfl
  | none =>
    cases hresolved
    simp only [bind, Except.bind, pure, Except.pure, hall, Bool.false_eq_true, if_false, if_true]

/-- A boot that leaves no placeholder gives its guarantees. -/
theorem boots_of_resolved (h : ∀ t ∈ tunnel, t.ip ≠ "" ∧ ∀ f, forwardNeedsTunnel (resolve t f) = false)
    (hfull : bootMode tunnel forwards = .ok .full) : Boots tunnel forwards := by
  have hidem : ∀ t ∈ tunnel, ∃ resolved, substituteTunnelIp forwards t = .ok resolved ∧
      substituteTunnelIp resolved t = .ok resolved := by
    intro t ht
    obtain ⟨hip, hgone⟩ := h t ht
    refine ⟨forwards.map (resolve t), substituteTunnelIp_eq hip, ?_⟩
    rw [substituteTunnelIp_eq hip, List.map_map]
    refine congrArg Except.ok (List.map_congr_left fun f _ => ?_)
    exact resolve_of_not_needs (hgone f)
  by_cases hne : forwards = []
  · subst hne
    have hnone : bindableForwards tunnel [] = .ok none := rfl
    refine ⟨⟨none, hnone, iff_of_true rfl rfl⟩, fun resolved hr => ?_, fun resolved hr => ?_, hidem⟩
    · rw [hnone] at hr
      cases hr
    · rw [hnone] at hr
      cases hr
  -- the list that is bound, with and without a tunnel
  obtain ⟨bound, hbound, hresolves, hready⟩ : ∃ bound,
      bindableForwards tunnel forwards = .ok (some bound) ∧
      List.Forall₂ (Resolves tunnel) forwards bound ∧ ∀ f ∈ bound, forwardNeedsTunnel f = false := by
    cases tunnel with
    | some t =>
      obtain ⟨hip, hgone⟩ := h t rfl
      have hready : ∀ f ∈ forwards.map (resolve t), forwardNeedsTunnel f = false := by
        intro f hf
        obtain ⟨f, -, rfl⟩ := List.mem_map.mp hf
        exact hgone f
      refine ⟨_, bindableForwards_eq hne (substituteTunnelIp_eq hip) hready, ?_, hready⟩
      rw [List.forall₂_map_right_iff]
      exact List.forall₂_same.mpr fun f _ => resolves_resolve
    | none =>
      have hready := (bootMode_eq_full.mp hfull).resolve_left (fun h => h rfl)
      refine ⟨forwards, bindableForwards_eq hne rfl hready, ?_, hready⟩
      exact List.forall₂_same.mpr fun f _ => ⟨rfl, nofun, nofun, fun _ => rfl⟩
  have hsame : ∀ {resolved}, bindableForwards tunnel forwards = .ok (some resolved) →
      resolved = bound := by
    intro resolved hr
    rw [hbound] at hr
    cases hr
    rfl
  refine ⟨⟨some bound, hbound, iff_of_false nofun hne⟩, fun resolved hr => ?_, fun resolved hr => ?_,
    hidem⟩
  · rw [hsame hr]
    exact hresolves
  · rw [hsame hr]
    refine ⟨?_, hready⟩
    have hne' : bound ≠ [] := by
      rintro rfl
      exact hne (List.forall₂_nil_right_iff.mp hresolves)
    rw [new, if_neg hne', newLive]
    have hcheck : ∀ (fs : List Forward) (i : ℕ), checkForwards i fs ≠ .error .emptyForwards := by
      intro fs
      induction fs with
      | nil => nofun
      | cons f fs ih =>
        intro i
        rw [checkForwards]
        split_ifs
        · nofun
        · nofun
        · exact ih (i + 1)
    intro herror
    cases hc : checkForwards 0 bound with
    | ok u =>
      rw [hc] at herror
      cases herror
    | error e =>
      rw [hc] at herror
      cases herror
      exact hcheck bound 0 hc

/-- A forward whose field holds pieces of a placeholder around one. -/
def splitForward : Forward := ⟨"127.0.0.1:8080", .tcp, String.ofList
  ('{' :: ("tunnel_".toList ++ placeholder ++ ['}']))⟩

/-- The address `ip` has no brace, and in this field it makes a placeholder anew. -/
theorem assertionTripped : Braceless (some ⟨"ip"⟩) ∧
    bootMode (some ⟨"ip"⟩) [splitForward] = .ok .full ∧ ¬Boots (some ⟨"ip"⟩) [splitForward] := by
  have herror : bindableForwards (some ⟨"ip"⟩) [splitForward] =
      .error "claimable mode gates every forward that still needs a tunnel" := by decide
  refine ⟨by rintro _ ⟨⟩; decide, by decide, fun h => ?_⟩
  obtain ⟨resolved, hr, -⟩ := h.bindable
  rw [herror] at hr
  cases hr

/-- **When every full boot gives its guarantees**: exactly when the address is no piece of the
placeholder's word. -/
theorem forall_boots_iff (hip : t.ip ≠ "") (hopen : '{' ∉ t.ip.toList) (hclose : '}' ∉ t.ip.toList) :
    (∀ forwards, Boots (some t) forwards) ↔ ¬t.ip.toList <:+: placeholderWord := by
  constructor
  · intro h hpiece
    obtain ⟨s, hs⟩ := @exists_infix_replace Char _ t.ip.toList '{' '}' placeholderWord (by decide)
      (by decide) hpiece
    obtain ⟨resolved, hr, hnone⟩ := (h [⟨"", .tcp, String.ofList s⟩]).bindable
    cases resolved with
    | none => exact absurd (hnone.mp rfl) (List.cons_ne_nil _ _)
    | some resolved =>
      unfold bindableForwards at hr
      simp only [List.isEmpty_cons, Bool.false_eq_true, if_false, bind, Except.bind, pure,
        Except.pure, substituteTunnelIp_eq hip] at hr
      split_ifs at hr with hall
      cases hr
      have hgone := List.all_eq_true.mp hall _ List.mem_cons_self
      have hneeds : forwardNeedsTunnel (resolve t ⟨"", .tcp, String.ofList s⟩) = false := by
        simpa using hgone
      refine (forwardNeedsTunnel_eq_false.mp hneeds).1 ?_
      show placeholder <:+: (resolveField (String.ofList s) t.ip).toList
      rw [resolveField, String.toList_ofList, String.toList_ofList]
      exact hs
  · intro hpiece forwards
    refine boots_of_resolved ?_ (bootMode_eq_full.mpr (.inl nofun))
    rintro _ ⟨⟩
    exact ⟨hip, not_needs_resolve hopen hclose hpiece⟩

/-- **A full boot has its placeholders replaced**, when the tunnel's address is no piece of the
placeholder's word. -/
theorem full_boot (hplain : Braceless tunnel)
    (hpiece : ∀ t ∈ tunnel, ¬t.ip.toList <:+: placeholderWord)
    (hfull : bootMode tunnel forwards = .ok .full) : Boots tunnel forwards :=
  boots_of_resolved (fun t ht => ⟨(hplain t ht).1,
    not_needs_resolve (hplain t ht).2.1 (hplain t ht).2.2 (hpiece t ht)⟩) hfull

/-- A box with an address of its own, and a field with two placeholders. -/
theorem full_boot_sample : Boots (some ⟨"10.10.0.7"⟩)
    [⟨String.ofList (placeholder ++ ":8443".toList), .tcp, String.ofList (placeholder ++ placeholder)⟩] :=
  full_boot (by rintro _ ⟨⟩; decide) (by rintro _ ⟨⟩; decide) (by decide)

end Boot
end Client
end Cococoir
