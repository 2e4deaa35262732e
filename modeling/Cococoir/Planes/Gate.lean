import Mathlib.Data.List.Nodup
import Cococoir.Planes.Render

/-!
# The gate in front of the services

A service that is not public is answered with 403, and one with an access group is behind the
gate, but for its API.  The rows of the planes see to that; the sites of the service hostnames, of
their twins and of the LAN ports proxy without the gate.

* `proxies_cases`: the rows that proxy.
* `openHostname`: a gated service that is routed by its hostname is open there.
* `guards_iff`: exactly when no service is open that should not be.

## Going through the sites

All sites come from four renderers, and a row of theirs that proxies is one of three: the
dashboard's, a row of a service that is routed by its path, or all that a hostname site, a twin or
a port site does.  This is `proxies_cases`.  Only the second kind asks the gate, so a service that
is to be guarded must not be proxied by the other two, and a row of the second kind with its port
must be its own.  `Unexposed` says this of the configuration: no routing by hostname, and a port
that is not the dashboard's nor another public service's, but for an open one at the path of its
API.

The converse exhibits a row.  Whichever part of `Unexposed` fails, one of the renderers has put a
row into some site that proxies to the service's port without a gate.  Sites are counted before
they are merged.
-/

namespace Cococoir
namespace Planes

open Caddy

/-! ## Rows that proxy -/

theorem loopback_injective : Function.Injective loopback := by
  intro p q h
  exact Net.toDigits_injective (by decide) (by decide) (List.cons.inj (List.append_cancel_left h)).2

/-- What a site without handles does with all requests. -/
theorem rows_of_handles_nil {site : Site} (h : site.handles = []) :
    site.rows = [⟨.all, site.route⟩] := by
  rw [Site.rows, h, List.nil_append]

/-- A row that proxies, of the plane sites. -/
def dashboardRow (cfg : Config) : Handle := ⟨.all, [.reverseProxy cfg.dashboardAddr]⟩

/-- A row that proxies all requests to a service. -/
def openRow (s : Service) : Handle := ⟨.all, [.reverseProxy (loopback s.port)]⟩

section Rows

variable {cfg : Config} {s : Service} {up : Text} {row : Handle}

theorem mem_rowBody {gate : List Directive} (hgate : .reverseProxy up ∉ gate) :
    .reverseProxy up ∈ rowBody s gate ↔ up = loopback s.port := by
  unfold rowBody
  split_ifs <;> simp [hgate]

theorem eq_of_proxyHandle (hrow : row ∈ proxyHandle cfg s) (hup : .reverseProxy up ∈ row.route) :
    up = loopback s.port := by
  unfold proxyHandle bareSlashRedirect at hrow
  rcases List.mem_append.mp hrow with hrow | hrow
  · split_ifs at hrow
    · rw [List.mem_singleton.mp hrow] at hup
      simp at hup
    · cases hrow
  · cases hgroup : s.accessGroup with
    | none =>
      rw [hgroup] at hrow
      rw [List.mem_singleton.mp hrow] at hup
      exact (mem_rowBody List.not_mem_nil).mp hup
    | some group =>
      rw [hgroup] at hrow
      rcases List.mem_pair.mp hrow with rfl | rfl
      · exact (mem_rowBody List.not_mem_nil).mp hup
      · exact (mem_rowBody (by simp [gatePreflight])).mp hup

/-- Only a public service that is routed by its path has plane rows that proxy. -/
theorem planeRow_proxies {failover : Service → Text} (hrow : row ∈ planeRow cfg failover s)
    (hup : .reverseProxy up ∈ row.route) :
    s.isPublic ∧ s.routing = .path ∧ row ∈ proxyHandle cfg s := by
  unfold planeRow at hrow
  cases hpublic : s.isPublic with
  | false =>
    rw [hpublic] at hrow
    rw [List.mem_singleton.mp hrow] at hup
    simp at hup
  | true =>
    rw [hpublic] at hrow
    cases hrouting : s.routing with
    | path =>
      rw [hrouting] at hrow
      exact ⟨rfl, rfl, hrow⟩
    | subdomain =>
      rw [hrouting] at hrow
      rcases List.mem_pair.mp hrow with rfl | rfl
      · simp at hup
      · simp at hup

/-- The rows of a plane site. -/
theorem mem_planeExtra {origin : Origin} {failover : Service → Text} {bind : List Text}
    {tls : Option (Text × Text)} {swaps : List HeaderOp} :
    row ∈ (planeExtra cfg origin failover bind tls swaps).rows ↔
      (∃ s ∈ cfg.routable, row ∈ planeRow cfg failover s) ∨ row = dashboardRow cfg ∨
        row = ⟨.all, []⟩ := by
  simp only [Site.rows, planeExtra, planeRows, List.mem_append, List.mem_flatMap,
    List.mem_singleton, dashboardRow, or_assoc]

end Rows

/-! ## Sites -/

section Sites

variable {cfg : Config} {v : Text × Site} {row : Handle} {up : Text}

/-- Some plane has a site. -/
def HasPlane (cfg : Config) : Prop := cfg.baseDomain ≠ none ∨ cfg.lanAddress ≠ none

/-- The sites of the planes. -/
theorem mem_planeVhosts (h : v ∈ planeVhosts cfg) : HasPlane cfg ∧ ∃ origin failover bind tls swaps,
    v.2 = planeExtra cfg origin failover bind tls swaps := by
  unfold planeVhosts update HasPlane at *
  cases hbase : cfg.baseDomain with
  | none =>
    cases hlan : cfg.lanAddress with
    | none =>
      rw [hbase, hlan] at h
      cases h
    | some lan =>
      rw [hbase, hlan] at h
      rw [List.mem_singleton.mp h]
      exact ⟨Or.inr (Option.some_ne_none lan), _, _, _, _, _, rfl⟩
  | some base =>
    refine ⟨Or.inl (Option.some_ne_none base), ?_⟩
    cases hlan : cfg.lanAddress with
    | none =>
      rw [hbase, hlan] at h
      rcases List.mem_pair.mp h with rfl | rfl <;> exact ⟨_, _, _, _, _, rfl⟩
    | some lan =>
      rw [hbase, hlan] at h
      simp only [List.cons_append, List.nil_append, List.mem_cons, List.not_mem_nil, or_false] at h
      rcases h with rfl | rfl | rfl <;> exact ⟨_, _, _, _, _, rfl⟩

theorem mem_virtualHosts : v ∈ virtualHosts cfg ↔ v ∈ planeVhosts cfg ∨ v ∈ hostnameVhosts cfg ∨
    v ∈ portVhosts cfg ∨ v ∈ clearnetRedirectVhosts cfg := by
  unfold virtualHosts update
  simp only [List.mem_append]
  tauto

/-- What the sites without rows proxy: nothing, or a public service that is routed by its
hostname. -/
def ProxiesHost (cfg : Config) (site : Site) : Prop :=
  site.handles = [] ∧ ∀ up, .reverseProxy up ∈ site.route → ∃ s ∈ cfg.routable, s.isPublic ∧
    s.routing = .subdomain ∧ up = loopback s.port ∧ (⟨.all, site.route⟩ : Handle) = openRow s

theorem proxiesHost_serve {s : Service} (hs : s ∈ cfg.routable) (hpublic : s.isPublic)
    (hrouting : s.routing = .subdomain) {site : Site} (hhandles : site.handles = [])
    (hroute : site.route = [.reverseProxy (loopback s.port)]) : ProxiesHost cfg site := by
  refine ⟨hhandles, fun up hup => ⟨s, hs, hpublic, hrouting, ?_, ?_⟩⟩
  · rw [hroute] at hup
    exact Directive.reverseProxy.inj (List.mem_singleton.mp hup)
  · rw [hroute, openRow]

theorem proxiesHost_redir {site : Site} (hhandles : site.handles = []) {d : Directive}
    (hroute : site.route = [d]) (hd : ∀ up, d ≠ .reverseProxy up) : ProxiesHost cfg site := by
  refine ⟨hhandles, fun up hup => ?_⟩
  rw [hroute] at hup
  exact absurd (List.mem_singleton.mp hup).symm (hd up)

theorem mem_hostnameVhosts (h : v ∈ hostnameVhosts cfg) : ProxiesHost cfg v.2 := by
  obtain ⟨s, hs, h⟩ := List.mem_flatMap.mp h
  rcases List.mem_cons.mp h with rfl | h
  · cases hpublic : s.isPublic with
    | false =>
      refine proxiesHost_redir ?_ (d := .respond "Forbidden".toList 403) ?_ nofun <;>
        simp [hostnameVhost, hpublic, serveExtra]
    | true =>
      cases hrouting : s.routing with
      | path =>
        refine proxiesHost_redir ?_ (d := .redir (clearnetOrigin cfg ++ s.path) true 307) ?_ nofun <;>
          simp [hostnameVhost, hpublic, hrouting, stubExtra]
      | subdomain =>
        refine proxiesHost_serve hs hpublic hrouting ?_ ?_ <;>
          simp [hostnameVhost, hpublic, hrouting, serveExtra]
  · cases hbase : cfg.baseDomain with
    | none =>
      rw [hbase] at h
      cases h
    | some base =>
      rw [hbase] at h
      dsimp only at h
      split_ifs at h with hpublic
      · rw [List.mem_singleton.mp h]
        cases hrouting : s.routing with
        | path =>
          refine proxiesHost_redir ?_
              (d := .redir (http (i2pHost (firstLabel base)) ++ s.path) true 307) ?_ nofun <;>
            simp [i2pVhost, hrouting, stubExtra]
        | subdomain =>
          refine proxiesHost_serve hs hpublic hrouting ?_ ?_ <;>
            simp [i2pVhost, hrouting, serveExtra, hpublic]
      · cases h

theorem mem_portVhosts (h : v ∈ portVhosts cfg) : ProxiesHost cfg v.2 := by
  unfold portVhosts at h
  cases hlan : cfg.lanAddress with
  | none =>
    rw [hlan] at h
    cases h
  | some lan =>
    rw [hlan] at h
    obtain ⟨s, hs, rfl⟩ := List.mem_map.mp h
    obtain ⟨hs, hsited⟩ := List.mem_filter.mp hs
    obtain ⟨hpublic, hrouting, -⟩ := of_decide_eq_true hsited
    exact proxiesHost_serve hs hpublic hrouting rfl rfl

theorem mem_clearnetRedirectVhosts (h : v ∈ clearnetRedirectVhosts cfg) : ProxiesHost cfg v.2 := by
  obtain ⟨host, -, rfl⟩ := List.mem_map.mp h
  exact proxiesHost_redir rfl rfl nofun

/-- **The rows that proxy**: the dashboard's, those of a public service's hostname sites, and those
of one that is routed by its path. -/
theorem proxies_cases (hv : v ∈ virtualHosts cfg) (hrow : row ∈ v.2.rows)
    (hup : .reverseProxy up ∈ row.route) :
    (HasPlane cfg ∧ row = dashboardRow cfg ∧ up = cfg.dashboardAddr) ∨
      ∃ s ∈ cfg.routable, s.isPublic ∧ up = loopback s.port ∧
        (s.routing = .subdomain ∧ row = openRow s ∨ s.routing = .path ∧ row ∈ proxyHandle cfg s) := by
  have hhost : ProxiesHost cfg v.2 → ∃ s ∈ cfg.routable, s.isPublic ∧ up = loopback s.port ∧
      (s.routing = .subdomain ∧ row = openRow s ∨ s.routing = .path ∧ row ∈ proxyHandle cfg s) := by
    rintro ⟨hhandles, hproxies⟩
    rw [rows_of_handles_nil hhandles] at hrow
    obtain rfl := List.mem_singleton.mp hrow
    obtain ⟨s, hs, hpublic, hrouting, hport, hopen⟩ := hproxies up hup
    exact ⟨s, hs, hpublic, hport, Or.inl ⟨hrouting, hopen⟩⟩
  rcases mem_virtualHosts.mp hv with hv | hv | hv | hv
  · obtain ⟨hplane, origin, failover, bind, tls, swaps, hsite⟩ := mem_planeVhosts hv
    rw [hsite] at hrow
    rcases mem_planeExtra.mp hrow with ⟨s, hs, hrow⟩ | rfl | rfl
    · obtain ⟨hpublic, hrouting, hrow⟩ := planeRow_proxies hrow hup
      exact Or.inr ⟨s, hs, hpublic, eq_of_proxyHandle hrow hup, Or.inr ⟨hrouting, hrow⟩⟩
    · exact Or.inl ⟨hplane, rfl, Directive.reverseProxy.inj (List.mem_singleton.mp hup)⟩
    · cases hup
  · exact Or.inr (hhost (mem_hostnameVhosts hv))
  · exact Or.inr (hhost (mem_portVhosts hv))
  · exact Or.inr (hhost (mem_clearnetRedirectVhosts hv))

/-- The clearnet plane has the rows of every service. -/
theorem exists_planeRow {base : Text} (hbase : cfg.baseDomain = some base) {s : Service}
    (hs : s ∈ cfg.routable) (hrow : row ∈ planeRow cfg clearnetFailover s) :
    ∃ v ∈ virtualHosts cfg, row ∈ v.2.rows := by
  refine ⟨(base, planeExtra cfg (.fixed (https base)) clearnetFailover cfg.caddyBindAddresses
    cfg.tls []), mem_virtualHosts.mpr (Or.inl ?_), mem_planeExtra.mpr (Or.inl ⟨s, hs, hrow⟩)⟩
  unfold planeVhosts update
  rw [hbase]
  simp

/-- A public service that is routed by its hostname is open there. -/
theorem exists_openRow {s : Service} (hs : s ∈ cfg.routable) (hpublic : s.isPublic)
    (hrouting : s.routing = .subdomain) : ∃ v ∈ virtualHosts cfg, openRow s ∈ v.2.rows := by
  refine ⟨hostnameVhost cfg s, mem_virtualHosts.mpr (Or.inr (Or.inl ?_)), ?_⟩
  · exact List.mem_flatMap.mpr ⟨s, hs, List.mem_cons_self⟩
  · simp [hostnameVhost, hpublic, hrouting, serveExtra, Site.rows, openRow]

/-- Each plane has the dashboard. -/
theorem exists_dashboardRow (h : HasPlane cfg) :
    ∃ v ∈ virtualHosts cfg, dashboardRow cfg ∈ v.2.rows := by
  have hrow : ∀ {origin failover bind tls swaps},
      dashboardRow cfg ∈ (planeExtra cfg origin failover bind tls swaps).rows :=
    mem_planeExtra.mpr (Or.inr (Or.inl rfl))
  unfold HasPlane at h
  cases hbase : cfg.baseDomain with
  | some base =>
    refine ⟨(base, planeExtra cfg (.fixed (https base)) clearnetFailover cfg.caddyBindAddresses
      cfg.tls []), mem_virtualHosts.mpr (Or.inl ?_), hrow⟩
    unfold planeVhosts update
    rw [hbase]
    simp
  | none =>
    cases hlan : cfg.lanAddress with
    | none => exact absurd h (by simp [hbase, hlan])
    | some lan =>
      refine ⟨(":80".toList, planeExtra cfg .requestHost (lanFailover lan) cfg.caddyBindAddresses
        none (planeSwapLines cfg .requestHost)), mem_virtualHosts.mpr (Or.inl ?_), hrow⟩
      unfold planeVhosts update
      rw [hbase, hlan]
      simp

end Sites

/-! ## The gate -/

/-- The route asks the gate before it proxies. -/
def Guarded (auth : Directive) (up : Text) (route : List Directive) : Prop :=
  ∀ before after, route = before ++ .reverseProxy up :: after → auth ∈ before

/-- A service that is not public has no row, and each row of one with an access group asks the
gate for this group, but for the one of its API. -/
def Guards (cfg : Config) : Prop :=
  ∀ s ∈ cfg.routable, ∀ v ∈ virtualHosts cfg, ∀ row ∈ v.2.rows,
    .reverseProxy (loopback s.port) ∈ row.route →
      s.isPublic ∧ ∀ group, s.accessGroup = some group →
        row.matcher.patterns = below (apiPath s) ∨
          Guarded (gatePreflight cfg group) (loopback s.port) row.route

/-- The service is not for everybody. -/
def Restricted (s : Service) : Prop := s.isPublic = false ∨ s.accessGroup ≠ none

/-- When it is public it is routed by its path, no other public service has its port, unless this
one is the service's API, and neither has the dashboard. -/
structure Unexposed (cfg : Config) (s : Service) : Prop where
  routed : s.isPublic → s.routing = .path
  port : ∀ t ∈ cfg.routable, t ≠ s → t.isPublic → t.port = s.port →
    s.isPublic ∧ t.routing = .path ∧ t.accessGroup = none ∧ t.path = apiPath s
  dashboard : HasPlane cfg → cfg.dashboardAddr ≠ loopback s.port

section Gate

variable {cfg : Config} {s t : Service} {row : Handle}

theorem Guarded.mem {auth : Directive} {up : Text} {route : List Directive}
    (h : Guarded auth up route) (hup : .reverseProxy up ∈ route) : auth ∈ route := by
  obtain ⟨before, after, rfl⟩ := List.append_of_mem hup
  exact List.mem_append_left _ (h before after rfl)

theorem not_mem_rowBody {auth : Directive} {upstream uri : Text} (h : auth = .forwardAuth upstream uri) :
    auth ∉ rowBody s [] := by
  subst h
  unfold rowBody
  split_ifs <;> simp

/-- The rows of a service that is routed by its path, which proxy: of its API, and of the rest. -/
theorem proxyHandle_cases (hrow : row ∈ proxyHandle cfg s) {up : Text}
    (hup : .reverseProxy up ∈ row.route) :
    (∃ group, s.accessGroup = some group ∧ (row.matcher.patterns = below (apiPath s) ∨
      row.route = rowBody s [gatePreflight cfg group])) ∨
      s.accessGroup = none ∧ row.matcher.patterns = below s.path := by
  unfold proxyHandle bareSlashRedirect at hrow
  rcases List.mem_append.mp hrow with hrow | hrow
  · split_ifs at hrow
    · rw [List.mem_singleton.mp hrow] at hup
      simp at hup
    · cases hrow
  · cases hgroup : s.accessGroup with
    | none =>
      rw [hgroup] at hrow
      rw [List.mem_singleton.mp hrow]
      exact Or.inr ⟨rfl, rfl⟩
    | some group =>
      rw [hgroup] at hrow
      refine Or.inl ⟨group, rfl, ?_⟩
      rcases List.mem_pair.mp hrow with rfl | rfl
      · exact Or.inl rfl
      · exact Or.inr rfl

/-- The row of a gated service asks the gate. -/
theorem guarded_rowBody {group up : Text} :
    Guarded (gatePreflight cfg group) up (rowBody s [gatePreflight cfg group]) := by
  intro before after h
  cases before with
  | nil => cases h
  | cons d before =>
    rw [rowBody, List.singleton_append, List.cons_append, List.cons.injEq] at h
    rw [← h.1]
    exact List.mem_cons_self

/-- A row that a restricted service must not have. -/
theorem Guards.not_mem (h : Guards cfg) (hs : s ∈ cfg.routable) (hrestricted : Restricted s)
    {v : Text × Site} (hv : v ∈ virtualHosts cfg) (hrow : row ∈ v.2.rows)
    (hup : .reverseProxy (loopback s.port) ∈ row.route)
    (hopen : ∀ group, gatePreflight cfg group ∉ row.route) :
    s.isPublic ∧ row.matcher.patterns = below (apiPath s) := by
  obtain ⟨hpublic, hgate⟩ := h s hs v hv row hrow hup
  refine ⟨hpublic, ?_⟩
  rcases hrestricted with hprivate | hgroup
  · rw [hpublic] at hprivate
    cases hprivate
  · obtain ⟨group, hgroup⟩ := Option.ne_none_iff_exists'.mp hgroup
    exact (hgate group hgroup).resolve_right fun hguarded => hopen group (hguarded.mem hup)

theorem below_inj {path path' : Text} (h : below path = below path') : path = path' :=
  Pattern.exact.inj (List.cons.inj h).1

/-- A site without rows that proxies to a restricted service leaves it open. -/
theorem Guards.not_open (h : Guards cfg) (hs : s ∈ cfg.routable) (hrestricted : Restricted s)
    {v : Text × Site} (hv : v ∈ virtualHosts cfg) {up : Text} (hup : up = loopback s.port)
    (hrow : (⟨.all, [.reverseProxy up]⟩ : Handle) ∈ v.2.rows) : False := by
  subst hup
  obtain ⟨-, hpatterns⟩ := h.not_mem hs hrestricted hv hrow List.mem_cons_self
    (by simp [gatePreflight])
  cases hpatterns

/-- With the gates in place, a restricted service is unexposed. -/
theorem Guards.unexposed (h : Guards cfg) (hpasses : Passes cfg) (hs : s ∈ cfg.routable)
    (hrestricted : Restricted s) : Unexposed cfg s where
  routed := by
    intro hpublic
    cases hrouting : s.routing with
    | path => rfl
    | subdomain =>
      obtain ⟨v, hv, hrow⟩ := exists_openRow hs hpublic hrouting
      exact (h.not_open hs hrestricted hv rfl hrow).elim
  port := by
    intro t ht hne hpublic hport
    cases hrouting : t.routing with
    | subdomain =>
      obtain ⟨v, hv, hrow⟩ := exists_openRow ht hpublic hrouting
      exact (h.not_open hs hrestricted hv (congrArg loopback hport) hrow).elim
    | path =>
      obtain ⟨base, hbase⟩ := Option.ne_none_iff_exists'.mp (hpasses.routed t ht hrouting)
      have hopen : ∀ group, gatePreflight cfg group ∉ rowBody t [] := fun group =>
        not_mem_rowBody rfl
      have hup : .reverseProxy (loopback s.port) ∈ rowBody t [] :=
        (mem_rowBody List.not_mem_nil).mpr (congrArg loopback hport.symm)
      cases hgroup : t.accessGroup with
      | none =>
        have hmain : ⟨.named ("row-" ++ t.name) (below t.path), rowBody t []⟩ ∈
            planeRow cfg clearnetFailover t := by
          simp [planeRow, hpublic, hrouting, proxyHandle, hgroup]
        obtain ⟨v, hv, hrow⟩ := exists_planeRow hbase ht hmain
        obtain ⟨hspublic, hpatterns⟩ := h.not_mem hs hrestricted hv hrow hup hopen
        exact ⟨hspublic, rfl, rfl, below_inj hpatterns⟩
      | some group =>
        have hapi : ⟨.named ("row-" ++ t.name ++ "-api") (below (apiPath t)), rowBody t []⟩ ∈
            planeRow cfg clearnetFailover t := by
          simp [planeRow, hpublic, hrouting, proxyHandle, hgroup]
        obtain ⟨v, hv, hrow⟩ := exists_planeRow hbase ht hapi
        obtain ⟨-, hpatterns⟩ := h.not_mem hs hrestricted hv hrow hup hopen
        have hpath : t.path = s.path := List.append_cancel_right (below_inj hpatterns)
        exact absurd (List.inj_on_of_nodup_map hpasses.distinctPaths ht hs hpath) hne
  dashboard := by
    intro hplane haddr
    obtain ⟨v, hv, hrow⟩ := exists_dashboardRow hplane
    exact h.not_open hs hrestricted hv haddr hrow

/-- The rows of a service that is unexposed, when it is restricted, are in order. -/
theorem Unexposed.guards (h : Restricted s → Unexposed cfg s) (hs : s ∈ cfg.routable)
    {v : Text × Site} (hv : v ∈ virtualHosts cfg) (hrow : row ∈ v.2.rows)
    (hup : .reverseProxy (loopback s.port) ∈ row.route) :
    s.isPublic ∧ ∀ group, s.accessGroup = some group →
      row.matcher.patterns = below (apiPath s) ∨
        Guarded (gatePreflight cfg group) (loopback s.port) row.route := by
  by_cases hrestricted : Restricted s
  · obtain ⟨hrouted, hport, hdashboard⟩ := h hrestricted
    rcases proxies_cases hv hrow hup with ⟨hplane, -, haddr⟩ | ⟨t, ht, hpublic, haddr, hcases⟩
    · exact absurd haddr.symm (hdashboard hplane)
    · have hports : t.port = s.port := loopback_injective haddr.symm
      by_cases hts : t = s
      · subst hts
        refine ⟨hpublic, fun group hgroup => ?_⟩
        rcases hcases with ⟨hrouting, -⟩ | ⟨-, hrow⟩
        · rw [hrouted hpublic] at hrouting
          cases hrouting
        · rcases proxyHandle_cases hrow hup with ⟨group', hgroup', hrow⟩ | ⟨hnone, -⟩
          · cases hgroup.symm.trans hgroup'
            refine hrow.imp_right fun hroute => ?_
            rw [hroute]
            exact guarded_rowBody
          · rw [hgroup] at hnone
            cases hnone
      · obtain ⟨hspublic, hrouting, hgroup, hpath⟩ := hport t ht hts hpublic hports
        refine ⟨hspublic, fun _ _ => Or.inl ?_⟩
        rcases hcases with ⟨hsubdomain, -⟩ | ⟨-, hrow⟩
        · rw [hrouting] at hsubdomain
          cases hsubdomain
        · rcases proxyHandle_cases hrow hup with ⟨group', hgroup', -⟩ | ⟨-, hpatterns⟩
          · rw [hgroup] at hgroup'
            cases hgroup'
          · rw [hpatterns, hpath]
  · rw [Restricted, not_or, not_not, Bool.not_eq_false] at hrestricted
    refine ⟨hrestricted.1, fun group hgroup => ?_⟩
    rw [hrestricted.2] at hgroup
    cases hgroup

end Gate

/-! ## Open services -/

/-- The sample with `git` behind the gate. -/
def gatedConfig (routing : Routing) : Config :=
  { sampleConfig with
    routable := [dexService, { gitService with routing, accessGroup := some "dev".toList }]
    sorted := by cases routing <;> decide }

theorem gatedConfig_passes (routing : Routing) : Passes (gatedConfig routing) where
  bindsWildcard := by cases routing <;> decide
  routed := by cases routing <;> decide
  paths := by cases routing <;> decide
  distinctPaths := by cases routing <;> decide
  domains := by cases routing <;> decide
  caddy := by cases routing <;> decide
  gate := by cases routing <;> decide
  evaluates := nofun

/-- A gated service that is routed by its hostname is open there. -/
theorem openHostname :
    Passes (gatedConfig .subdomain) ∧ ¬Guards (gatedConfig .subdomain) := by
  refine ⟨gatedConfig_passes .subdomain, fun h => ?_⟩
  have hs : { gitService with routing := .subdomain, accessGroup := some "dev".toList } ∈
      (gatedConfig .subdomain).routable := List.mem_cons_of_mem _ List.mem_cons_self
  obtain ⟨v, hv, hrow⟩ := exists_openRow hs rfl rfl
  exact h.not_open hs (Or.inr (Option.some_ne_none _)) hv rfl hrow

/-- **No service is open that should not be** exactly when each one that is not for everybody is
unexposed. -/
theorem guards_iff {cfg : Config} (hpasses : Passes cfg) :
    Guards cfg ↔ ∀ s ∈ cfg.routable, Restricted s → Unexposed cfg s :=
  ⟨fun h _ hs hrestricted => h.unexposed hpasses hs hrestricted,
    fun h s hs _ hv _ hrow hup => Unexposed.guards (h s hs) hs hv hrow hup⟩

/-- At its path the gated service is behind the gate. -/
theorem guards_iff_path : Guards (gatedConfig .path) := by
  refine (guards_iff (gatedConfig_passes .path)).mpr fun s hs hrestricted => ?_
  rcases List.mem_pair.mp hs with rfl | rfl
  · exact absurd hrestricted (by unfold Restricted; decide)
  · exact ⟨fun _ => rfl, by decide, fun _ => by decide⟩

end Planes
end Cococoir
