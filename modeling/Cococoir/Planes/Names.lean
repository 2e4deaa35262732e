import Mathlib.Data.List.Nodup
import Mathlib.Data.List.Perm.Basic
import Cococoir.Planes.Render

/-!
# Names that shadow each other

The tables of sites are merged by name, and the later table wins; on a plane the rows stand in the
order of the services' names, and the first that matches wins.  The assertions see to it that no
two paths are equal, and to nothing else of this.

* `names_perm`: the names of all sites.
* `nodup_names_iff`: when they are distinct.
* `reachable_iff`: when a service is reached below its path.
* `sharedTwin`: two domains with one first label have one twin.
* `unshadowed_iff`: exactly when no site and no row is shadowed.

## Two kinds of shadowing

Sites are merged by name, so two tables with one name in common lose a site.  `names_perm` lists
all names, up to their order; when they are distinct each site is found under its own
(`siteAt_of_nodup`).  Distinctness is then taken apart: a host on the I2P plane ends with a
letter, a host with a port with a digit, so most pairs differ by their last character, and what
remains are the hosts among each other, the first labels and the ports.

Rows are tried in the order of the services' names, without regard to case.  A service is reached
when some path below its own gets past all rows before it, and that is when no path before it is
its own or above it.  Both conditions are on the configuration, and the assertions of the source
ask for neither in full.
-/

namespace Cococoir
namespace Planes

open Caddy

/-! ## The names of the sites -/

/-- The hosts that have a site of their own. -/
def hosts (cfg : Config) : List Text := cfg.baseDomain.toList ++ cfg.routable.map Service.domain

/-- The hosts on the I2P plane: the twins and the plane itself. -/
def i2pHosts (cfg : Config) : List Text :=
  match cfg.baseDomain with
  | some base => (cfg.routable.filter Service.isPublic).map (i2pDomain base) ++
      [i2pHost (firstLabel base)]
  | none => []

/-- The port-sites' hosts, with their ports. -/
def portHosts (cfg : Config) : List Text :=
  match cfg.lanAddress with
  | some lan => (cfg.routable.filter fun s => s.PortSited).map fun s => hostPort lan s.port
  | none => []

/-- The name of the LAN plane's site. -/
def wildcards (cfg : Config) : List Text := cfg.lanAddress.toList.map fun _ => ":80".toList

/-- The names of all sites. -/
def names (cfg : Config) : List Text := (virtualHosts cfg).map Prod.fst

/-- The names in the table of hostnames. -/
theorem hostnames_perm (cfg : Config) : ((hostnameVhosts cfg).map Prod.fst).Perm
    (cfg.routable.map Service.domain ++
      (match cfg.baseDomain with
        | some base => (cfg.routable.filter Service.isPublic).map (i2pDomain base)
        | none => []).map http) := by
  unfold hostnameVhosts
  rw [List.map_flatMap]
  refine (List.map_append_flatMap_perm cfg.routable Service.domain fun s => (match cfg.baseDomain with
    | some base => if s.isPublic then [i2pVhost cfg base s] else []
    | none => []).map Prod.fst).symm.trans (List.Perm.append_left _ (List.Perm.of_eq ?_))
  cases cfg.baseDomain with
  | none => simp
  | some base =>
    induction cfg.routable with
    | nil => rfl
    | cons s l ih =>
      rw [List.flatMap_cons, List.filter_cons]
      dsimp only at ih ⊢
      rw [ih]
      split_ifs <;> rfl

/-- **The names of all sites**: those with a scheme, and those without. -/
theorem names_perm (cfg : Config) : (names cfg).Perm
    ((clearnetHosts cfg ++ (portHosts cfg ++ i2pHosts cfg)).map http ++ (wildcards cfg ++ hosts cfg)) := by
  have hredirects : (clearnetRedirectVhosts cfg).map Prod.fst = (clearnetHosts cfg).map http := by
    rw [clearnetRedirectVhosts, List.map_map]
    rfl
  have hports : (portVhosts cfg).map Prod.fst = (portHosts cfg).map http := by
    unfold portVhosts portHosts
    cases cfg.lanAddress with
    | none => rfl
    | some lan =>
      rw [List.map_map, List.map_map]
      rfl
  have hhostnames := hostnames_perm cfg
  unfold names virtualHosts update
  rw [List.map_append, List.map_append, List.map_append, hredirects, hports]
  refine ((List.Perm.append_right _ hhostnames).append_left _).append_left _ |>.trans ?_
  unfold planeVhosts update i2pHosts wildcards hosts
  refine List.perm_iff_count.mpr fun name => ?_
  cases cfg.baseDomain <;> cases cfg.lanAddress <;>
    simp only [List.count_append, List.map_append, List.map_cons, List.map_nil, List.append_nil,
      Option.toList, List.nil_append] <;> omega

theorem nodup_eraseDups (l : List Text) : l.eraseDups.Nodup :=
  match l with
  | [] => List.nodup_nil
  | a :: l => by
    rw [List.eraseDups_cons, List.nodup_cons, List.mem_eraseDups]
    have : (l.filter fun b => !b == a).length < l.length + 1 :=
      Nat.lt_succ_of_le (List.length_filter_le _ l)
    exact ⟨fun h => by simp at h, nodup_eraseDups _⟩
termination_by l.length

/-! ## Distinct names -/

/-- The hosts are distinct, the twins have distinct first labels and the port-sites distinct ports;
and no host has the name of another site. -/
structure Distinct (cfg : Config) : Prop where
  hosts : (hosts cfg).Nodup
  labels : cfg.baseDomain ≠ none →
    ((cfg.routable.filter Service.isPublic).map fun s => firstLabel s.domain).Nodup
  ports : cfg.lanAddress ≠ none → ((cfg.routable.filter fun s => s.PortSited).map Service.port).Nodup
  apart : ∀ host ∈ Planes.hosts cfg, host ∉ portHosts cfg ∧ host ∉ i2pHosts cfg
  schemes : ∀ host ∈ Planes.hosts cfg,
    ∀ host' ∈ Planes.hosts cfg ++ (portHosts cfg ++ i2pHosts cfg), host ≠ http host'
  wildcard : cfg.lanAddress ≠ none → ":80".toList ∉ Planes.hosts cfg

theorem http_injective : Function.Injective http := fun _ _ h => List.append_cancel_left h

/-- A host on the I2P plane ends with `p`. -/
theorem getLast?_i2pHost (label : Text) : (i2pHost label).getLast? = some 'p' := by
  rw [i2pHost, List.getLast?_append]
  rfl

theorem getLast?_i2pDomain (base : Text) (s : Service) : (i2pDomain base s).getLast? = some 'p' := by
  rw [i2pDomain, List.getLast?_append, List.getLast?_cons, getLast?_i2pHost]
  rfl

/-- A host with a port ends with a digit. -/
theorem getLast?_hostPort (host : Text) (port : ℕ) : (hostPort host port).getLast? ≠ some 'p' := by
  intro h
  rw [hostPort, List.getLast?_append, List.getLast?_cons, Option.some_or, ← List.getLast?_cons] at h
  rcases List.mem_cons.mp (List.mem_of_getLast? h) with h | h
  · cases h
  · exact absurd (Nat.isDigit_of_mem_toDigits (by decide) (by decide) h) (by decide)

theorem i2pDomain_ne (base : Text) (s : Service) : i2pDomain base s ≠ i2pHost (firstLabel base) := by
  intro h
  have hlength := congrArg List.length h
  rw [i2pDomain, List.length_append, List.length_cons] at hlength
  omega

theorem nodup_i2pHosts (cfg : Config) : (i2pHosts cfg).Nodup ↔ (cfg.baseDomain ≠ none →
    ((cfg.routable.filter Service.isPublic).map fun s => firstLabel s.domain).Nodup) := by
  unfold i2pHosts
  cases hbase : cfg.baseDomain with
  | none => simp
  | some base =>
    have hlast : ∀ host ∈ (cfg.routable.filter Service.isPublic).map (i2pDomain base),
        host ≠ i2pHost (firstLabel base) := by
      intro host hhost
      obtain ⟨s, -, rfl⟩ := List.mem_map.mp hhost
      exact i2pDomain_ne base s
    have htwins : i2pDomain base =
        (fun label => label ++ '.' :: i2pHost (firstLabel base)) ∘ fun s => firstLabel s.domain := rfl
    rw [List.nodup_append, htwins, ← List.map_map,
      List.nodup_map_iff fun _ _ h => List.append_cancel_right h]
    constructor
    · exact fun h _ => h.1
    · refine fun h => ⟨h (Option.some_ne_none base), List.nodup_singleton _, fun host hhost host' h' => ?_⟩
      rw [List.mem_singleton.mp h']
      exact hlast host (by rwa [htwins, ← List.map_map])

theorem nodup_portHosts (cfg : Config) : (portHosts cfg).Nodup ↔ (cfg.lanAddress ≠ none →
    ((cfg.routable.filter fun s => s.PortSited).map Service.port).Nodup) := by
  unfold portHosts
  cases hlan : cfg.lanAddress with
  | none => simp
  | some lan =>
    have hinj : Function.Injective (hostPort lan) := fun _ _ h =>
      Net.toDigits_injective (by decide) (by decide) (List.cons.inj (List.append_cancel_left h)).2
    have hport : (fun s : Service => hostPort lan s.port) = hostPort lan ∘ Service.port := rfl
    dsimp only
    rw [hport, ← List.map_map, List.nodup_map_iff hinj]
    exact ⟨fun h _ => h, fun h => h (Option.some_ne_none lan)⟩

theorem nodup_plainHosts (cfg : Config) : (portHosts cfg ++ i2pHosts cfg).Nodup ↔
    (portHosts cfg).Nodup ∧ (i2pHosts cfg).Nodup := by
  rw [List.nodup_append, ← and_assoc]
  refine and_iff_left fun host hhost host' hhost' => ?_
  have hport : host.getLast? ≠ some 'p' := by
    unfold portHosts at hhost
    split at hhost
    · obtain ⟨s, -, rfl⟩ := List.mem_map.mp hhost
      exact getLast?_hostPort _ _
    · cases hhost
  have hi2p : host'.getLast? = some 'p' := by
    unfold i2pHosts at hhost'
    split at hhost'
    · rcases List.mem_append.mp hhost' with h | h
      · obtain ⟨s, -, rfl⟩ := List.mem_map.mp h
        exact getLast?_i2pDomain _ _
      · rw [List.mem_singleton.mp h]
        exact getLast?_i2pHost _
    · cases hhost'
  exact fun h => hport (h ▸ hi2p)

theorem nodup_wildcards (cfg : Config) : (wildcards cfg ++ hosts cfg).Nodup ↔
    (hosts cfg).Nodup ∧ (cfg.lanAddress ≠ none → ":80".toList ∉ hosts cfg) := by
  unfold wildcards
  cases cfg.lanAddress with
  | none => simp
  | some lan =>
    rw [Option.toList_some, List.map_singleton, List.singleton_append, List.nodup_cons]
    exact ⟨fun h => ⟨h.2, fun _ => h.1⟩, fun h => ⟨h.2 (Option.some_ne_none lan), h.1⟩⟩

theorem wildcard_ne_http {name host : Text} {cfg : Config} (h : name ∈ wildcards cfg) :
    name ≠ http host := by
  have hwildcard : ":80".toList = [':', '8', '0'] := rfl
  have hscheme : http host = 'h' :: ("ttp://".toList ++ host) := rfl
  obtain ⟨_, -, rfl⟩ := List.mem_map.mp h
  rw [hwildcard, hscheme]
  exact fun heq => absurd (List.cons.inj heq).1 (by decide)

/-- **The names are distinct** when the hosts, labels and ports are, and then only. -/
theorem nodup_names_iff (cfg : Config) : (names cfg).Nodup ↔ Distinct cfg := by
  rw [(names_perm cfg).nodup_iff, List.nodup_append, List.nodup_map_iff http_injective,
    List.nodup_append, nodup_plainHosts, nodup_portHosts, nodup_i2pHosts, nodup_wildcards]
  have hmem : ∀ host, host ∈ clearnetHosts cfg ↔ host ∈ hosts cfg := fun _ => List.mem_eraseDups
  constructor
  · rintro ⟨⟨-, ⟨hports, hlabels⟩, hapart⟩, ⟨hhosts, hwildcard⟩, hschemes⟩
    refine ⟨hhosts, hlabels, hports, fun host hhost => ⟨fun h => ?_, fun h => ?_⟩,
      fun host hhost host' hhost' h => ?_, hwildcard⟩
    · exact hapart host ((hmem host).mpr hhost) host (List.mem_append_left _ h) rfl
    · exact hapart host ((hmem host).mpr hhost) host (List.mem_append_right _ h) rfl
    · refine hschemes (http host') (List.mem_map_of_mem ?_) host (List.mem_append_right _ hhost) h.symm
      exact (List.mem_append.mp hhost').elim
        (fun h => List.mem_append_left _ ((hmem host').mpr h)) (List.mem_append_right _)
  · intro h
    refine ⟨⟨nodup_eraseDups _, ⟨h.ports, h.labels⟩, fun host hhost host' hhost' heq => ?_⟩,
      ⟨h.hosts, h.wildcard⟩, fun name hname name' hname' heq => ?_⟩
    · obtain ⟨hport, hi2p⟩ := h.apart host ((hmem host).mp hhost)
      subst heq
      exact (List.mem_append.mp hhost').elim hport hi2p
    · obtain ⟨host, hhost, rfl⟩ := List.mem_map.mp hname
      rcases List.mem_append.mp hname' with hname' | hname'
      · exact wildcard_ne_http hname' heq.symm
      · refine h.schemes name' hname' host ?_ heq.symm
        exact (List.mem_append.mp hhost).elim
          (fun h => List.mem_append_left _ ((hmem host).mp h)) (List.mem_append_right _)

/-- With distinct names each site is the one with its name. -/
theorem siteAt_of_nodup {vhosts : Vhosts} (h : (vhosts.map Prod.fst).Nodup) {v : Text × Site}
    (hv : v ∈ vhosts) : siteAt vhosts v.1 = some v.2 := by
  unfold siteAt
  induction vhosts with
  | nil => cases hv
  | cons w vhosts ih =>
    rw [List.map_cons, List.nodup_cons] at h
    rcases List.mem_cons.mp hv with rfl | hmem
    · rw [List.find?_cons_of_pos (by simp), Option.map_some]
    · have hne : w.1 ≠ v.1 := fun heq => h.1 (heq ▸ List.mem_map_of_mem hmem)
      rw [List.find?_cons_of_neg (by simpa using hne)]
      exact ih h.2 hmem

/-! ## Rows -/

/-- A row is for the bare path of its service, for what is below it, or for its API. -/
theorem matcher_of_mem_planeRow {cfg : Config} {failover : Service → Text} {t : Service} {row : Handle}
    (h : row ∈ planeRow cfg failover t) : row.matcher = .path t.path ∨
      (∃ name, row.matcher = .named name (below t.path)) ∨
      ∃ name, row.matcher = .named name (below (apiPath t)) := by
  have hbare : ∀ {row}, row ∈ bareSlashRedirect t → row.matcher = .path t.path := by
    intro row h
    unfold bareSlashRedirect at h
    split_ifs at h
    · rw [List.mem_singleton.mp h]
    · cases h
  unfold planeRow at h
  split_ifs at h
  · rw [List.mem_singleton.mp h]
    exact .inr (.inl ⟨_, rfl⟩)
  · split at h
    · refine (List.mem_append.mp h).elim (fun h => .inl (hbare h)) fun h => .inr ?_
      split at h
      · rcases List.mem_pair.mp h with rfl | rfl
        · exact .inr ⟨_, rfl⟩
        · exact .inl ⟨_, rfl⟩
      · rw [List.mem_singleton.mp h]
        exact .inl ⟨_, rfl⟩
    · rcases List.mem_pair.mp h with rfl | rfl
      · exact .inr (.inl ⟨_, rfl⟩)
      · exact .inl rfl

/-- Every service has a row for its path and what is below it. -/
theorem exists_row_below (cfg : Config) (failover : Service → Text) (t : Service) :
    ∃ row ∈ planeRow cfg failover t, ∃ name, row.matcher = .named name (below t.path) := by
  unfold planeRow
  split_ifs
  · exact ⟨_, List.mem_singleton_self _, _, rfl⟩
  · split
    · unfold proxyHandle
      split
      · exact ⟨_, List.mem_append_right _ (List.mem_cons_of_mem _ (List.mem_singleton_self _)), _, rfl⟩
      · exact ⟨_, List.mem_append_right _ (List.mem_singleton_self _), _, rfl⟩
    · exact ⟨_, List.mem_cons_self, _, rfl⟩

/-- Some path below that of the service gets past all rows that can come before its own: those for
a bare path, and those of the services before it. -/
def Reachable (cfg : Config) (failover : Service → Text) (s : Service) : Prop :=
  ∃ path, (Pattern.under s.path).Matches path ∧ ∀ t ∈ cfg.routable,
    ∀ row ∈ planeRow cfg failover t, ((∃ p, row.matcher = .path p) ∨ t.name < s.name) →
      ¬row.matcher.Matches path

/-- No path of a service is that of a later one or above it. -/
def PathsApart (cfg : Config) : Prop :=
  ∀ s ∈ cfg.routable, ∀ t ∈ cfg.routable, t.name < s.name → ¬SegmentPrefix t.path s.path

theorem matches_below {path : Text} {name : String} {p : Text} :
    (Matcher.named name (below p)).Matches path ↔ path = lower p ∨ lower p ++ ['/'] <+: path := by
  unfold Matcher.Matches Matcher.patterns below
  simp only [reduceCtorEq, List.mem_cons, List.not_mem_nil, or_false, false_or, exists_eq_or_imp,
    exists_eq_left]
  rfl

/-- A service is reached unless a path before it is its own or above it. -/
theorem reachable_iff {cfg : Config} (hpasses : Passes cfg) (failover : Service → Text)
    (s : Service) : Reachable cfg failover s ↔
      ∀ t ∈ cfg.routable, t.name < s.name → ¬SegmentPrefix t.path s.path := by
  constructor
  · rintro ⟨path, hbelow, hpast⟩ t ht hname hpre
    obtain ⟨row, hrow, name, hmatcher⟩ := exists_row_below cfg failover t
    refine hpast t ht row hrow (.inr hname) ?_
    rw [hmatcher, matches_below]
    exact .inr (List.IsPrefix.trans hpre hbelow)
  · intro hapart
    -- the bare path with a slash: no path ends with one
    refine ⟨lower s.path ++ ['/'], List.prefix_refl _, fun t ht row hrow hbefore hmatches => ?_⟩
    have hslash : ∀ p, lower s.path ++ ['/'] = lower p → ['/'] <:+ p := fun p h =>
      slash_suffix_of_lower h.symm
    have hpath := (hpasses.paths t ht).2
    rcases matcher_of_mem_planeRow hrow with hmatcher | ⟨name, hmatcher⟩ | ⟨name, hmatcher⟩
    · rw [hmatcher] at hmatches
      obtain h | ⟨pattern, hpattern, h⟩ := hmatches
      · cases h
      · rw [List.mem_singleton.mp hpattern] at h
        exact hpath (hslash _ h)
    · have hname : t.name < s.name := hbefore.resolve_left fun ⟨p, h⟩ => by
        rw [hmatcher] at h
        cases h
      rw [hmatcher, matches_below] at hmatches
      exact hmatches.elim (fun h => hpath (hslash _ h)) (hapart t ht hname)
    · have hname : t.name < s.name := hbefore.resolve_left fun ⟨p, h⟩ => by
        rw [hmatcher] at h
        cases h
      rw [hmatcher, matches_below] at hmatches
      rcases hmatches with h | h
      · have happend : apiPath t = (t.path ++ "/ap".toList) ++ ['i'] := by
          rw [apiPath, List.append_assoc]
          rfl
        have hlast := hslash _ h
        rw [happend] at hlast
        exact absurd (List.cons.inj (List.append_inj_right' hlast.choose_spec rfl)).1 (by decide)
      · refine hapart t ht hname (List.IsPrefix.trans ?_ h)
        have happend : apiPath t = (t.path ++ ['/']) ++ "api".toList := by
          rw [apiPath, List.append_assoc]
          rfl
        have hlower : lower (apiPath t) = (lower t.path ++ ['/']) ++ lower "api".toList := by
          rw [happend, lower, List.map_append, List.map_append]
          rfl
        rw [hlower, List.append_assoc]
        exact List.prefix_append ..

/-! ## Nothing is shadowed -/

/-- No two sites have one name, each is in the merged table with its own content, and each service
is reached on every plane. -/
structure Unshadowed (cfg : Config) : Prop where
  distinct : (names cfg).Nodup
  present : ∀ v ∈ virtualHosts cfg, siteAt (virtualHosts cfg) v.1 = some v.2
  reachable : ∀ failover, ∀ s ∈ cfg.routable, Reachable cfg failover s

/-- **What the assertions leave open**: nothing is shadowed if and only if the hosts, first labels
and ports are distinct and no path is that of a later service or above it. -/
theorem unshadowed_iff {cfg : Config} (hpasses : Passes cfg) :
    Unshadowed cfg ↔ Distinct cfg ∧ PathsApart cfg := by
  constructor
  · intro h
    exact ⟨(nodup_names_iff cfg).mp h.distinct, fun s hs =>
      (reachable_iff hpasses clearnetFailover s).mp (h.reachable clearnetFailover s hs)⟩
  · rintro ⟨hdistinct, hapart⟩
    have hnames := (nodup_names_iff cfg).mpr hdistinct
    exact ⟨hnames, fun v hv => siteAt_of_nodup hnames hv, fun failover s hs =>
      (reachable_iff hpasses failover s).mpr (hapart s hs)⟩

theorem sampleConfig_passes : Passes sampleConfig where
  bindsWildcard := by decide
  routed := by decide
  paths := by decide
  distinctPaths := by decide
  domains := by decide
  caddy := by decide
  gate := by decide
  evaluates := nofun

/-- In the sample nothing is shadowed. -/
theorem unshadowed_iff_sample : Unshadowed sampleConfig := by
  refine (unshadowed_iff sampleConfig_passes).mpr ⟨?_, by unfold PathsApart; decide⟩
  exact
    { hosts := by decide
      labels := fun _ => by decide
      ports := fun _ => by decide
      apart := by decide
      schemes := by decide
      wildcard := fun _ => by decide }

/-- The sample with `git` at a domain of its own, whose first label is that of `dex`. -/
def twinConfig : Config :=
  { sampleConfig with
    routable := [dexService, { gitService with domain := "auth.bob.example".toList }]
    sorted := by decide }

theorem twinConfig_passes : Passes twinConfig where
  bindsWildcard := by decide
  routed := by decide
  paths := by decide
  distinctPaths := by decide
  domains := by decide
  caddy := by decide
  gate := by decide
  evaluates := nofun

/-- Two domains with the same first label have one twin on the I2P plane. -/
theorem sharedTwin : Passes twinConfig ∧ ¬Unshadowed twinConfig := by
  refine ⟨twinConfig_passes, fun h => ?_⟩
  have hlabels := ((nodup_names_iff twinConfig).mp h.distinct).labels (Option.some_ne_none _)
  exact absurd hlabels (by decide)

end Planes
end Cococoir
