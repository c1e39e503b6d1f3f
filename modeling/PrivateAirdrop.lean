import PrivateAirdrop.Library.Format
import PrivateAirdrop.Library.HashTree
import PrivateAirdrop.Library.Machine
import PrivateAirdrop.Encoding
import PrivateAirdrop.Distribution
import PrivateAirdrop.Airdrop
import PrivateAirdrop.ClaimCircuit
import PrivateAirdrop.Delivery
import PrivateAirdrop.ClaimRuns
import PrivateAirdrop.World
import PrivateAirdrop.Soundness
import PrivateAirdrop.Completeness
import PrivateAirdrop.Concurrency
import PrivateAirdrop.LeafValues
import PrivateAirdrop.OfflineCircuit
import PrivateAirdrop.Library.Views
import PrivateAirdrop.Privacy
import PrivateAirdrop.TreeData
import PrivateAirdrop.HostEncoding
import PrivateAirdrop.Library.Text
import PrivateAirdrop.Monitoring
import PrivateAirdrop.CommandLine
import PrivateAirdrop.Library.JavaScript
import PrivateAirdrop.MiniApp
import PrivateAirdrop.Library.Region
import PrivateAirdrop.Packaging
import PrivateAirdrop.Library.Cells
import PrivateAirdrop.Lifecycle
import PrivateAirdrop.Observers
import PrivateAirdrop.Contention
import PrivateAirdrop.Receipts
import PrivateAirdrop.ChainCommands
import PrivateAirdrop.EvidenceScript
import PrivateAirdrop.EvidenceRun
import PrivateAirdrop.EvidenceOutcome
import PrivateAirdrop.Retries
import PrivateAirdrop.Reachable
