import BtServer.Proofs.BucketFilter
import BtServer.Proofs.ResultDelivery
import BtServer.Proofs.ControlMemory
import BtServer.Proofs.AnnounceAgreement
import BtServer.Proofs.ConnectionIds
import BtServer.Proofs.TaskHandOff
import BtServer.Proofs.StreamCodec
import BtServer.Proofs.StreamSpace
import BtServer.Proofs.ProxyHandshake
import BtServer.Proofs.LockWakeups
import BtServer.Proofs.ProxyCounts
import BtServer.Proofs.NetworkTable
import BtServer.Proofs.AccessMembers
import BtServer.Proofs.UnicodeRoundTrip
import BtServer.Proofs.NetworkReport
import BtServer.Proofs.TopLines
import BtServer.Proofs.RequestIsolation
import BtServer.Proofs.FrameLengths
import BtServer.Proofs.ClientRelease
import BtServer.Proofs.MalformedCommands
import BtServer.Proofs.Rebucketing
import BtServer.Proofs.RequestBounds
import BtServer.Proofs.ScrapeOverlay
import BtServer.Proofs.ParameterOrder
import BtServer.Proofs.PortValues
import BtServer.Proofs.ReplyFraming
import BtServer.Proofs.LiveSyncPeers
import BtServer.Proofs.BucketSections
import BtServer.Proofs.PeerDiscovery
