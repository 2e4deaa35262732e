import Cococoir.Net.Address
import Cococoir.Planes.Caddy

/-!
# The rendered sites

One origin per access plane, with every service at its path there, and the hostnames of the
services: the sites are rendered from the services that are enabled, and merged into one table.

* `planeVhosts`, `hostnameVhosts`, `portVhosts`, `clearnetRedirectVhosts`: the tables.
* `virtualHosts`: their merge.
* `Passes`: the assertions, under which a configuration is built at all.

## The dictionary

The functions are those of `planes.nix`, under their own names.  A row is a list of handles;
`planeRow` is the row of one service on a plane, and depends on the plane only through where the
service is to be found otherwise, its failover.  The strings that the source splices into a
Caddyfile are the directives of `Planes.Caddy`, so that a gate in front of a proxy is a directive
before another.

An attribute set of sites is a list of pairs in which the first pair with a name counts.  The
source makes one by `listToAttrs`, where the first of two equal names wins too, and merges several
with `//`, where the later table wins: `update`.

## What is read

Of a service: its name, domain, routing, path, port and group, and whether it is public, locked to
its origin and stripped of its path.  Its name on the I2P plane is an option with a default that
is made from the domain; the model has the default, `i2pDomain`.  Of the box: its base domain, its
LAN address, the addresses it binds, its certificate and its upstreams.
-/

namespace Cococoir
namespace Planes

open Caddy

/-! ## Configuration -/

/-- Where the canonical addresses of a service live. -/
inductive Routing : Type where
  | path : Routing
  | subdomain : Routing
  deriving DecidableEq

/-- An enabled service. -/
structure Service : Type where
  name : String
  domain : Text
  isPublic : Bool
  routing : Routing
  path : Text
  originLocked : Bool
  stripPath : Bool
  port : ℕ
  accessGroup : Option Text
  deriving DecidableEq

/-- What the sites are rendered from; the services are in the order of their names. -/
structure Config : Type where
  baseDomain : Option Text
  lanAddress : Option Text
  caddyBindAddresses : List Text
  tls : Option (Text × Text)
  dashboardAddr : Text
  authUpstream : Text
  caddyEnabled : Bool
  routable : List Service
  sorted : routable.Pairwise fun s t => s.name < t.name

section Render

variable (cfg : Config)

def Config.dex : Option Service := cfg.routable.find? (·.name = "dex")

/-- The first label of a domain. -/
def firstLabel (domain : Text) : Text := domain.takeWhile (· ≠ '.')

def i2pHost (label : Text) : Text := label ++ ".i2p".toList

/-- The name of a service on the I2P plane, as the option has it by default. -/
def i2pDomain (base : Text) (s : Service) : Text :=
  firstLabel s.domain ++ '.' :: i2pHost (firstLabel base)

def http (host : Text) : Text := "http://".toList ++ host

def https (host : Text) : Text := "https://".toList ++ host

def toText (n : ℕ) : Text := Nat.toDigits 10 n

def hostPort (host : Text) (port : ℕ) : Text := host ++ ':' :: toText port

def loopback (port : ℕ) : Text := hostPort "127.0.0.1".toList port

/-! ## Rows -/

/-- Rewrite the loopback issuer onto a plane's own surface. -/
def issuerSwap (origin : Origin) : List HeaderOp :=
  match cfg.dex with
  | some dex => [.location (http (loopback dex.port)) false origin]
  | none => []

/-- The groups that pass a gate: a superuser is a member of each. -/
def gateGroups (groups : List Text) : List Text := (groups ++ ["admins".toList]).eraseDups

def allowedFor (group : Text) : Text := List.intercalate [','] (gateGroups [group])

def gatePreflight (group : Text) : Directive :=
  .forwardAuth cfg.authUpstream ("/oauth2/auth?allowed_groups=".toList ++ allowedFor group)

/-- Redirect the bare path of a service that is served below it to the form with a slash. -/
def bareSlashRedirect (s : Service) : List Handle :=
  if s.stripPath then [⟨.path s.path, [.redir (s.path ++ ['/']) false 307]⟩] else []

def rowBody (s : Service) (gate : List Directive) : List Directive :=
  gate ++ ((if s.stripPath then [.stripPrefix s.path] else []) ++
    [.header (.setCookie s.path), .reverseProxy (loopback s.port)])

/-- A path and what is below it. -/
def below (path : Text) : List Pattern := [.exact path, .under path]

def apiPath (s : Service) : Text := s.path ++ "/api".toList

def proxyHandle (s : Service) : List Handle :=
  bareSlashRedirect s ++
    match s.accessGroup with
    | some group => [⟨.named ("row-" ++ s.name ++ "-api") (below (apiPath s)), rowBody s []⟩,
        ⟨.named ("row-" ++ s.name) (below s.path), rowBody s [gatePreflight cfg group]⟩]
    | none => [⟨.named ("row-" ++ s.name) (below s.path), rowBody s []⟩]

def aliasHandle (name : String) (target path : Text) : List Handle :=
  [⟨.named ("row-" ++ name) (below path), [.stripPrefix path, .redir target true 307]⟩,
    ⟨.path path, [.redir (target ++ ['/']) false 307]⟩]

def forbiddenHandle (name : String) (path : Text) : List Handle :=
  [⟨.named ("row-" ++ name) (below path), [.respond "Forbidden".toList 403]⟩]

/-- The rows of one service on a plane. -/
def planeRow (failover : Service → Text) (s : Service) : List Handle :=
  if !s.isPublic then forbiddenHandle s.name s.path
  else
    match s.routing with
    | .path => proxyHandle cfg s
    | .subdomain => aliasHandle s.name (failover s) s.path

def planeRows (failover : Service → Text) : List Handle := cfg.routable.flatMap (planeRow cfg failover)

def clearnetFailover (s : Service) : Text := https s.domain

def i2pFailover (base : Text) (s : Service) : Text := http (i2pDomain base s)

def lanFailover (lan : Text) (s : Service) : Text :=
  if s.originLocked then https s.domain else http (hostPort lan s.port)

/-- Keep the browser on a plane: redirects to the clearnet origin go to the plane's. -/
def planeSwapLines (origin : Origin) : List HeaderOp :=
  match cfg.baseDomain with
  | some base =>
    if origin ≠ .fixed (https base) then [.location (https base) true origin] else []
  | none => []

/-- On the I2P plane the hostnames of the services go to their twins, too. -/
def i2pSwapLines (base : Text) : List HeaderOp :=
  planeSwapLines cfg (.fixed (http (i2pHost (firstLabel base)))) ++
    (cfg.routable.filter fun s => s.isPublic && s.routing = .subdomain).map fun s =>
      .location (https s.domain) true (.fixed (http (i2pDomain base s)))

/-! ## Sites -/

def planeExtra (origin : Origin) (failover : Service → Text) (bind : List Text)
    (tls : Option (Text × Text)) (swaps : List HeaderOp) : Site where
  tls := tls
  bind := bind
  header := issuerSwap cfg origin ++ swaps
  handles := planeRows cfg failover ++ [⟨.all, [.reverseProxy cfg.dashboardAddr]⟩]
  route := []

def stubExtra (target : Text) (bind : List Text) (tls : Option (Text × Text)) : Site where
  tls := tls
  bind := bind
  header := []
  handles := []
  route := [.redir target true 307]

def serveExtra (planeOrigin : Text) (s : Service) (bind : List Text)
    (tls : Option (Text × Text)) : Site where
  tls := tls
  bind := bind
  header := if s.isPublic then issuerSwap cfg (.fixed planeOrigin) else []
  handles := []
  route :=
    if s.isPublic then [.reverseProxy (loopback s.port)] else [.respond "Forbidden".toList 403]

def portSiteExtra (lan : Text) (s : Service) : Site where
  tls := none
  bind := [lan]
  header := issuerSwap cfg (.fixed (http lan))
  handles := []
  route := [.reverseProxy (loopback s.port)]

/-- Names and their sites; where a name occurs twice, the first one counts. -/
abbrev Vhosts : Type := List (Text × Site)

/-- The site with a name. -/
def siteAt (vhosts : Vhosts) (name : Text) : Option Site :=
  (vhosts.find? (·.1 = name)).map Prod.snd

def clearnetOrigin : Text := https (cfg.baseDomain.getD [])

/-- The hostname of a service. -/
def hostnameVhost (s : Service) : Text × Site :=
  ⟨s.domain,
    if !s.isPublic then serveExtra cfg (clearnetOrigin cfg) s cfg.caddyBindAddresses cfg.tls
    else
      match s.routing with
      | .path => stubExtra (clearnetOrigin cfg ++ s.path) cfg.caddyBindAddresses cfg.tls
      | .subdomain => serveExtra cfg (clearnetOrigin cfg) s cfg.caddyBindAddresses cfg.tls⟩

/-- The twin of a public service's hostname on the I2P plane. -/
def i2pVhost (base : Text) (s : Service) : Text × Site :=
  ⟨http (i2pDomain base s),
    match s.routing with
    | .path => stubExtra (http (i2pHost (firstLabel base)) ++ s.path) ["127.0.0.1".toList] none
    | .subdomain =>
      serveExtra cfg (http (i2pHost (firstLabel base))) s ["127.0.0.1".toList] none⟩

def hostnameVhosts : Vhosts :=
  cfg.routable.flatMap fun s => hostnameVhost cfg s ::
    match cfg.baseDomain with
    | some base => if s.isPublic then [i2pVhost cfg base s] else []
    | none => []

/-- Has the service a site of its own port on the LAN? -/
def Service.PortSited (s : Service) : Prop :=
  s.isPublic ∧ s.routing = .subdomain ∧ s.originLocked = false

instance (s : Service) : Decidable s.PortSited :=
  inferInstanceAs (Decidable (_ = true ∧ _ = Routing.subdomain ∧ _ = false))

def portVhosts : Vhosts :=
  match cfg.lanAddress with
  | some lan => (cfg.routable.filter fun s => s.PortSited).map fun s =>
      (http (hostPort lan s.port), portSiteExtra cfg lan s)
  | none => []

/-- The hostnames that keep HTTPS. -/
def clearnetHosts : List Text :=
  (cfg.baseDomain.toList ++ cfg.routable.map Service.domain).eraseDups

def clearnetRedirectVhosts : Vhosts :=
  (clearnetHosts cfg).map fun host => (http host,
    { tls := none, bind := cfg.caddyBindAddresses, header := [], handles := [],
      route := [.redir (https host) true 308] })

/-- The attributes of both, those of the second where both have one. -/
def update (a b : Vhosts) : Vhosts := b ++ a

def planeVhosts : Vhosts :=
  update (update
    (match cfg.baseDomain with
      | some base => [(base, planeExtra cfg (.fixed (https base)) clearnetFailover
          cfg.caddyBindAddresses cfg.tls [])]
      | none => [])
    (match cfg.lanAddress with
      | some lan => [(":80".toList, planeExtra cfg .requestHost (lanFailover lan)
          cfg.caddyBindAddresses none (planeSwapLines cfg .requestHost))]
      | none => []))
    (match cfg.baseDomain with
      | some base => [(http (i2pHost (firstLabel base)),
          planeExtra cfg (.fixed (http (i2pHost (firstLabel base)))) (i2pFailover base)
            ["127.0.0.1".toList] none (i2pSwapLines cfg base))]
      | none => [])

def virtualHosts : Vhosts :=
  update (update (update (planeVhosts cfg) (hostnameVhosts cfg)) (portVhosts cfg))
    (clearnetRedirectVhosts cfg)

/-! ## Assertions -/

/-- The path starts with a slash and does not end with one. -/
def GoodPath (path : Text) : Prop := ['/'] <+: path ∧ ¬['/'] <:+ path

instance (path : Text) : Decidable (GoodPath path) := inferInstanceAs (Decidable (_ ∧ ¬_))

/-- The assertions hold, so the configuration is built. -/
structure Passes : Prop where
  bindsWildcard : "0.0.0.0".toList ∈ cfg.caddyBindAddresses
  routed : ∀ s ∈ cfg.routable, s.routing = .path → cfg.baseDomain ≠ none
  paths : ∀ s ∈ cfg.routable, GoodPath s.path
  distinctPaths : (cfg.routable.map Service.path).Nodup
  domains : ∀ s ∈ cfg.routable, s.domain ≠ []
  caddy : ∀ s ∈ cfg.routable, s.isPublic → cfg.caddyEnabled
  gate : ∀ s ∈ cfg.routable, s.accessGroup ≠ none → cfg.dex ≠ none
  /-- Without a base domain there is no origin to put into the rewriting of the issuer. -/
  evaluates : cfg.baseDomain = none → cfg.dex ≠ none →
    ∀ s ∈ cfg.routable, s.isPublic → s.routing = .path

end Render

/-! ## A sample -/

def dexService : Service where
  name := "dex"
  domain := "auth.alice.example".toList
  isPublic := true
  routing := .path
  path := "/dex".toList
  originLocked := false
  stripPath := false
  port := 5556
  accessGroup := none

def gitService : Service where
  name := "forgejo"
  domain := "git.alice.example".toList
  isPublic := true
  routing := .path
  path := "/git".toList
  originLocked := false
  stripPath := true
  port := 3001
  accessGroup := none

/-- A box with two services. -/
def sampleConfig : Config where
  baseDomain := some "alice.example".toList
  lanAddress := some "192.168.1.10".toList
  caddyBindAddresses := ["0.0.0.0".toList, "::".toList]
  tls := none
  dashboardAddr := "127.0.0.1:3210".toList
  authUpstream := "http://127.0.0.1:4180".toList
  caddyEnabled := true
  routable := [dexService, gitService]
  sorted := by decide

end Planes
end Cococoir
