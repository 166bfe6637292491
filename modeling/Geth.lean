import Geth.Rlp.Verify.RoundTrip
import Geth.Mpt.Verify.History
import Geth.State.Verify.Persist
import Geth.State.Verify.Errors
import Geth.Vm.Verify.Isolation
import Geth.Common.Verify.Bitutil
import Geth.Core.Verify.Signing
import Geth.Vm.Verify.MemoryGas
import Geth.Vm.Verify.ModExp
import Geth.Mpt.Verify.Storable
import Geth.Mpt.Verify.Total
import Geth.Core.Verify.SetHead
import Geth.Core.Verify.HeadPointers
import Geth.Vm.Verify.ShiftExp
import Geth.Vm.Verify.Jumpdest
import Geth.Ethash.Verify.Uncles
import Geth.Clique.Verify.Signers
import Geth.Params.Verify.Compat
import Geth.Core.Verify.TxOrder
import Geth.Core.Verify.SortedMap
import Geth.Eth.Verify.Filters
import Geth.Mpt.Verify.Iterator
import Geth.Core.Verify.TxPool
import Geth.Ethash.Verify.VerifyHeaders
import Geth.Mpt.Verify.Flush
import Geth.P2p.Verify.Enr
import Geth.Whisper.Verify.Message
import Geth.Swarm.Verify.Intervals
