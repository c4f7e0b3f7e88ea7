import BdkFloresta.Library.Runs
import BdkFloresta.Library.Progress
import BdkFloresta.Library.Fallible
import BdkFloresta.Library.SparseChain
import BdkFloresta.Library.Connecting
import BdkFloresta.Library.Watch
import BdkFloresta.Library.Cursor
import BdkFloresta.Chain.Types
import BdkFloresta.Chain.BestChain
import BdkFloresta.Chain.KeychainIndex
import BdkFloresta.Chain.TxGraph
import BdkFloresta.Chain.BdkChain
import BdkFloresta.Chain.WalletIndex
import BdkFloresta.Node.Fsm
import BdkFloresta.Node.Exact
import BdkFloresta.Node.Action
import BdkFloresta.Node.ActionSet
import BdkFloresta.Node.Shutdown
import BdkFloresta.Node.Unblocked
import BdkFloresta.Node.Fifo
import BdkFloresta.Node.Swept
import BdkFloresta.Node.Publications
import BdkFloresta.Node.Trace
import BdkFloresta.Node.RunCalls
import BdkFloresta.Node.Tolerance
import BdkFloresta.Node.Progress
import BdkFloresta.Node.Barrier
import BdkFloresta.Node.Builder
import BdkFloresta.Node.Configured
import BdkFloresta.Node.View
import BdkFloresta.Node.Tips
import BdkFloresta.Node.Torn
import BdkFloresta.Client.Error
import BdkFloresta.Client.State
import BdkFloresta.Client.Scan
import BdkFloresta.Client.Steps
import BdkFloresta.Client.Answers
import BdkFloresta.Client.Calls
import BdkFloresta.Client.Honest
import BdkFloresta.Client.Updates
import BdkFloresta.Client.Resume
import BdkFloresta.Client.Delivered
import BdkFloresta.Client.PlainPath
import BdkFloresta.Client.Lookahead
import BdkFloresta.Client.Window
import BdkFloresta.Client.Reorg
import BdkFloresta.Client.Follow
import BdkFloresta.Client.Handover
import BdkFloresta.Client.Coverage
import BdkFloresta.Client.Stepwise
import BdkFloresta.Client.Protocol
import BdkFloresta.Client.Life
import BdkFloresta.Client.Silence
import BdkFloresta.Client.Boundary
import BdkFloresta.Client.Connect
import BdkFloresta.Client.Wallet
import BdkFloresta.Client.PlainWallet
import BdkFloresta.Client.Consumer
import BdkFloresta.Client.Carried
import BdkFloresta.Client.Sessions
import BdkFloresta.Client.EndToEnd
import BdkFloresta.Client.CatchUp
import BdkFloresta.Client.Handle
import BdkFloresta.Client.Wait
import BdkFloresta.Client.Task
import BdkFloresta.Client.Signet
import BdkFloresta.Client.Teardown
import BdkFloresta.Client.Forwarding
