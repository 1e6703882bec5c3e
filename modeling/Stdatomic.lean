import Stdatomic.Lib.System
import Stdatomic.Lib.Count
import Stdatomic.Lib.Mutex
import Stdatomic.Lib.SpinLock
import Stdatomic.Lib.Critical
import Stdatomic.Lib.Linear
import Stdatomic.Lib.LockTable
import Stdatomic.Lib.Views
import Stdatomic.Lib.LockViews
import Stdatomic.Lib.Drain
import Stdatomic.Lib.Halts
import Stdatomic.Lib.Tally
import Stdatomic.Lib.Spread
import Stdatomic.Lib.XorLinear
import Stdatomic.Lib.Extremes
import Stdatomic.Lib.Moments
import Stdatomic.Lib.Collect
import Stdatomic.Lib.CInt
import Stdatomic.Lib.CFloat
import Stdatomic.Lib.CasLoop
import Stdatomic.Atomics
import Stdatomic.Futex.Lock
import Stdatomic.Futex.Invariant
import Stdatomic.Futex.Wakeup
import Stdatomic.Futex.Progress
import Stdatomic.Futex.Calm
import Stdatomic.Futex.Bench
import Stdatomic.Futex.Globals
import Stdatomic.Futex.Refine
import Stdatomic.Futex.Live
import Stdatomic.Generic.Ops
import Stdatomic.Generic.Views
import Stdatomic.Generic.Sized
import Stdatomic.Generic.Mixed
import Stdatomic.Generic.Library
import Stdatomic.Generic.Progress
import Stdatomic.Generic.Locked
import Stdatomic.Generic.Finish
import Stdatomic.Generic.LockFree
import Stdatomic.Generic.Orders
import Stdatomic.Generic.Recalibrated
import Stdatomic.Generic.Inject
import Stdatomic.Arith.Stub
import Stdatomic.Arith.Backends
import Stdatomic.Arith.GccAtomic
import Stdatomic.Arith.Pointer
import Stdatomic.Sync.Exchange
import Stdatomic.Sync.Memory
import Stdatomic.Sync.Abi
import Stdatomic.Locks.Flag
import Stdatomic.Locks.Spin
import Stdatomic.Hash.Fold
import Stdatomic.Hash.Mix
import Stdatomic.Hash.Jenkins
import Stdatomic.Hash.Stat
import Stdatomic.Calibrate.Elapsed
import Stdatomic.Calibrate.Means
import Stdatomic.Calibrate.Loops
import Stdatomic.Calibrate.Spins
