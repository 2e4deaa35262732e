import Cococoir.Box.Wire
import Cococoir.ControlPlane.Addresses
import Cococoir.ControlPlane.Index
import Cococoir.ControlPlane.Lifecycle
import Cococoir.ControlPlane.Approval
import Cococoir.ControlPlane.Delivery
import Cococoir.ControlPlane.Signups
import Cococoir.ControlPlane.Capabilities
import Cococoir.ControlPlane.Peers
import Cococoir.ControlPlane.Rehydrate
import Cococoir.ControlPlane.Reconcile
import Cococoir.ControlPlane.Rearm
import Cococoir.Forwarder.Refinement
import Cococoir.ControlPlane.FailedAllocation
import Cococoir.ControlPlane.Rotation
import Cococoir.ControlPlane.Capacity
import Cococoir.Dashboard.Editor
import Cococoir.Dashboard.Walks
import Cococoir.Dashboard.Edits
import Cococoir.Dashboard.Save
import Cococoir.Dashboard.Lookup
import Cococoir.Dashboard.Locality
import Cococoir.Dashboard.Definitions
import Cococoir.Dashboard.Insertion
import Cococoir.Planes.Caddy
import Cococoir.Planes.Render
import Cococoir.Planes.Gate
import Cococoir.Planes.Names
import Cococoir.Concurrency.Steps
import Cococoir.ControlPlane.InviteListing
import Cococoir.Dns.Hetzner
import Cococoir.Forwarder.TcpRelay
import Cococoir.Forwarder.UdpIdle
import Cococoir.Forwarder.Flows
import Cococoir.Forwarder.Drain
import Cococoir.Client.Keypair
import Cococoir.ControlPlane.Panics
import Cococoir.Concurrency.Faults
import Cococoir.ControlPlane.RetriedApproval
import Cococoir.ControlPlane.Clock
import Cococoir.ControlPlane.InviteExpiry
import Cococoir.Net.HostNumbers
import Cococoir.Net.SubnetText
import Cococoir.Text.Split
import Cococoir.Dns.RecordNames
import Cococoir.Dashboard.Keys
import Cococoir.Client.Boot
import Cococoir.Text.Replace
import Cococoir.Client.Boot
import Cococoir.Forwarder.Retry
import Cococoir.Client.InviteUrl
import Cococoir.Text.AsciiCase
import Cococoir.ControlPlane.InviteLinks
import Cococoir.Client.Claims
import Cococoir.Text.FormUrl
import Cococoir.Site.Redirects
import Cococoir.Text.Html
import Cococoir.Site.Pages
import Cococoir.ControlPlane.CodeHolder
import Cococoir.Client.Enroll
import Cococoir.Client.Persistence
import Cococoir.ControlPlane.OneInvite
import Cococoir.ControlPlane.AccountDeletion
import Cococoir.Site.Api
import Cococoir.Client.HttpEdge
import Cococoir.Client.Enrollment
import Cococoir.Client.Restart
import Cococoir.Dashboard.SaveForm
