import GoWanchain.Backend.Proposal
import GoWanchain.Backend.Votes
import GoWanchain.Compression.Rle
import GoWanchain.Core.ChainIndex
import GoWanchain.Core.DoubleSpend
import GoWanchain.Core.PoolIndex
import GoWanchain.Core.PoolNonces
import GoWanchain.Core.Supply
import GoWanchain.Core.TxLookup
import GoWanchain.Ethapi.RingSignData
import GoWanchain.Ethash.GasLimit
import GoWanchain.Istanbul.Backlog
import GoWanchain.Istanbul.Coherence
import GoWanchain.Istanbul.Locks
import GoWanchain.Istanbul.Progress
import GoWanchain.Istanbul.Schedule
import GoWanchain.Miner.Worker
import GoWanchain.Rlp.Canonical
import GoWanchain.Rlp.Raw
import GoWanchain.State.Copy
import GoWanchain.State.Revert
import GoWanchain.Vm.Arithmetic
import GoWanchain.Vm.Jumps
import GoWanchain.Vm.Transfer
