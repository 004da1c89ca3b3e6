import Fiberexec.Pool.Stranded
import Fiberexec.AsyncIo.Files
import Fiberexec.Bulk.Sequential
import Fiberexec.SyncWait.Completion
import Fiberexec.Multishot.AcceptorClose
import Fiberexec.Multishot.RecvBuffers
import Fiberexec.Multishot.RecvCancel
import Fiberexec.Multishot.NextStop
import Fiberexec.Multishot.RecvGroup
import Fiberexec.Multishot.RecvBytes
import Fiberexec.Ring.Bystander
import Fiberexec.Ring.Flood
import Fiberexec.Ring.Chain
import Fiberexec.Ring.Failure
import Fiberexec.Ring.SubmissionEmpty
import Fiberexec.Ring.DrainRoom
import Fiberexec.Resources.FdCapacity
import Fiberexec.Resources.BufferExclusive
import Fiberexec.Tasks.Storage
import Fiberexec.Senders.Replies
import Fiberexec.Senders.OnPool
import Fiberexec.Senders.Await
import Fiberexec.Scheduler.Wakeups
