import HseMultithreading.Lib.Run
import HseMultithreading.Lib.Bag
import HseMultithreading.Hw4.Layout
import HseMultithreading.Hw4.Calls
import HseMultithreading.Hw4.Ring
import HseMultithreading.Hw4.Session
import HseMultithreading.Hw4.Steps
import HseMultithreading.Hw4.Ownership
import HseMultithreading.Hw4.Delivery
import HseMultithreading.Hw4.Order
import HseMultithreading.Hw4.Startup
import HseMultithreading.Hw4.Cleanup
import HseMultithreading.LockFree.Buffered
import HseMultithreading.Lib.Heap
import HseMultithreading.LockFree.Linked
import HseMultithreading.Hw4.Crash
import HseMultithreading.Lib.Token
import HseMultithreading.Sync.CVLock
import HseMultithreading.Futex.Latch
import HseMultithreading.Ipc.Handshake
import HseMultithreading.Sync.Spinlock
import HseMultithreading.Ipc.Mqueue
import HseMultithreading.LockFree.Unreclaimed
import HseMultithreading.Sync.Worker
import HseMultithreading.Lib.Calls
import HseMultithreading.LockFree.Sequential
import HseMultithreading.Hw4.Refusal
import HseMultithreading.Lib.CString
import HseMultithreading.Hw4.Consumer
import HseMultithreading.Hw4.Printing
import HseMultithreading.Lib.Posix
import HseMultithreading.LockFree.Bounds
import HseMultithreading.Sync.Throwing
import HseMultithreading.Hw4.Region
import HseMultithreading.Ipc.Pipe
import HseMultithreading.Ipc.Receiver
import HseMultithreading.Hw4.WeakMemory
import HseMultithreading.Hw4.Draining
import HseMultithreading.Hw4.Serial
import HseMultithreading.Hw4.WeakDelivery
import HseMultithreading.Lib.Amortized
import HseMultithreading.LockFree.Progress
import HseMultithreading.Hw4.Mailboxes
import HseMultithreading.Hw4.Recovery
import HseMultithreading.Hw4.Image
import HseMultithreading.Structured.PoolMain
import HseMultithreading.Lib.LockOrder
import HseMultithreading.Sync.CVProgress
import HseMultithreading.Sync.Deadlock
import HseMultithreading.Sync.Counting
import HseMultithreading.Sync.Decrement
import HseMultithreading.Lib.StackOrder
import HseMultithreading.LockFree.Transfer
