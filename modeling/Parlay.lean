import Parlay.PoolAllocator.Basic
import Parlay.PoolAllocator.Properties
import Parlay.PoolAllocator.Ownership
import Parlay.PoolAllocator.RoundTrip
import Parlay.PoolAllocator.BestFit
import Parlay.PoolAllocator.Accounting
import Parlay.ContinuousArray.Basic
import Parlay.ContinuousArray.Client
import Parlay.ContinuousArray.Chain
import Parlay.ContinuousArray.Tail
import Parlay.ContinuousArray.TailRun
import Parlay.ContinuousArray.Teardown
import Parlay.ContinuousArray.SoleReader
import Parlay.ContinuousArray.Retiring
import Parlay.ContinuousArray.Reuse
import Parlay.ContinuousArray.Walk
import Parlay.Deque.Protocol
import Parlay.Deque.Invariant
import Parlay.Deque.Conservation
import Parlay.Deque.Blocks
import Parlay.Deque.Counters
import Parlay.Deque.Sequential
import Parlay.Deque.Race
import Parlay.Deque.OneThief
import Parlay.Deque.Teardown
import Parlay.Deque.Linearizable
import Parlay.Deque.WaitFree
import Parlay.Deque.FrozenTail
import Parlay.Deque.LockFree
import Parlay.Deque.TwoThieves
