import IstioVendor.Proofs.Fgrpc.PingSkew
import IstioVendor.Proofs.Fhttp.EchoServer
import IstioVendor.Proofs.Fhttp.Headers
import IstioVendor.Proofs.Fhttp.NewClient
import IstioVendor.Proofs.Fhttp.Overflow
import IstioVendor.Proofs.Fhttp.Retries
import IstioVendor.Proofs.Fhttp.Segmentation
import IstioVendor.Proofs.Fhttp.Truthful
import IstioVendor.Proofs.Fnet.Proxy
import IstioVendor.Proofs.Hpack.Bounds
import IstioVendor.Proofs.Hpack.Connection
import IstioVendor.Proofs.Periodic.Abort
import IstioVendor.Proofs.Periodic.Interrupts
import IstioVendor.Proofs.Periodic.Pacing
import IstioVendor.Proofs.Periodic.Runnables
import IstioVendor.Proofs.Periodic.SafeNames
import IstioVendor.Proofs.Periodic.Sleeps
import IstioVendor.Proofs.ProtocGenDocs.Classes
import IstioVendor.Proofs.ProtocGenDocs.Links
import IstioVendor.Proofs.ProtocGenDocs.Orders
import IstioVendor.Proofs.ProtocGenDocs.Resolution
import IstioVendor.Proofs.ProtocGenDocs.TypeLinks
import IstioVendor.Proofs.Runners
import IstioVendor.Proofs.Stats.Copies
import IstioVendor.Proofs.Stats.PercentileOrder
import IstioVendor.Proofs.Stats.Repeats
import IstioVendor.Proofs.Stats.Variance
import IstioVendor.Proofs.Stats.Wrapping
import IstioVendor.Proofs.Ui.Failures
import IstioVendor.Proofs.Ui.IndexCache
import IstioVendor.Proofs.Ui.RoundTrip
import IstioVendor.Proofs.Ui.Runs
import IstioVendor.Proofs.Ui.Saves
