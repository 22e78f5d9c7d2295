import Bws.AcceptBlock
import Bws.AcceptTx
import Bws.BestChain
import Bws.BlockFiles
import Bws.BlockIndex
import Bws.Checks
import Bws.ConnectBlock
import Bws.Core
import Bws.Invariant
import Bws.Lib.Chain
import Bws.Lib.Exec
import Bws.Lib.Ledger
import Bws.Lib.Overlay
import Bws.Frame
import Bws.Inputs
import Bws.Node
import Bws.Params
import Bws.Rollback
import Bws.Switch
import Bws.TxDB
import Bws.TxMemPool
import Bws.Reach
import Bws.Notices
import Bws.Fetch
import Bws.Returns
import Bws.Agree
import Bws.Spend
import Bws.TxIndex
import Bws.Path
import Bws.Spent
import Bws.Batch
import Bws.Script
import Bws.Interpreter
import Bws.SigOps
import Bws.Flags
import Bws.Burn
import Bws.KeyPool
import Bws.Reserve
import Bws.ProcessBlock
import Bws.Orphans
import Bws.Wallet
import Bws.SpentMarks
import Bws.Supply
import Bws.Lib.Codec
import Bws.Lib.Worth
import Bws.SigHash
import Bws.NetMessage
import Bws.Alert
import Bws.KeyStore
import Bws.Birthday
import Bws.LockTime
import Bws.Standard
import Bws.Balance
import Bws.Lib.Slots
import Bws.AddrMan
import Bws.AddrIndex
import Bws.AddrTables
import Bws.AddrOps
import Bws.AddrCheck
import Bws.AddrSerialize
import Bws.AddrRoundTrip
import Bws.AddrFile
import Bws.AddrLoad
import Bws.Lib.Merkle
import Bws.Merkle
import Bws.OrphanTx
import Bws.PoolLinks
import Bws.Locator
import Bws.BlockByHeight
import Bws.ScriptBytes
import Bws.StakeReward
import Bws.Target
import Bws.Recover
import Bws.WorkReward
import Bws.Amounts
import Bws.ScriptRun
import Bws.Sign
import Bws.InputsStandard
import Bws.StakeModifier
import Bws.Kernel
import Bws.Lib.Pick
import Bws.Lib.Linked
import Bws.AddressGroupings
import Bws.RejectedCommit
import Bws.Lib.Choice
import Bws.SelectCoins
import Bws.CreateTransaction
import Bws.Lib.Window
import Bws.ExternalBlocks
import Bws.CreateNewBlock
import Bws.MinerLoop
import Bws.Compact
import Bws.PushInt
import Bws.VarInt
import Bws.DerSignature
import Bws.Base58
import Bws.DataStream
import Bws.TxSerialize
import Bws.Passphrase
import Bws.StackAccess
import Bws.EvalLimits
import Bws.Combine
import Bws.ScriptCompressor
import Bws.OrderPos
import Bws.TxMessage
import Bws.SendData
import Bws.Lib.Median
import Bws.TimeData
import Bws.ExtKey
import Bws.Lib.Decimal
import Bws.WalletSerialize
import Bws.Reaccept
import Bws.Lib.Regroup
import Bws.Base64
import Bws.NetBase
import Bws.NetLookup
import Bws.Money
import Bws.CompactSignature
import Bws.LockedPages
import Bws.LowS
import Bws.Hex
import Bws.SignRaw
import Bws.SignComplete
import Bws.DumpFile
import Bws.FindAndDelete
import Bws.BaseUint
import Bws.ImportWallet
import Bws.PubKey
import Bws.Lib.Sweep
import Bws.ParseParameters
import Bws.DumpWallet
import Bws.Connection
import Bws.InvRelay
import Bws.Address
import Bws.CoinStake
import Bws.AddrGroups
import Bws.Lib.RefCount
import Bws.Peers
import Bws.PeerRefs
