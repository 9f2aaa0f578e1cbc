import Zephyr.Kernel.PreemptRuns
import Zephyr.Kernel.MutexTimeout
import Zephyr.Kernel.MutexesRuns
import Zephyr.Kernel.MailboxRuns
import Zephyr.Kernel.MemDomain
import Zephyr.Kernel.PipeRuns
import Zephyr.Kernel.MsgQRuns
import Zephyr.Kernel.QueueRuns
import Zephyr.Kernel.QueueWaitRuns
import Zephyr.Kernel.TimeoutOrder
import Zephyr.Kernel.Tickless
import Zephyr.Kernel.SysClockIsr
import Zephyr.Kernel.SemRuns
import Zephyr.Kernel.QueueLock
import Zephyr.Mempool.Bits
import Zephyr.Mempool.Recombine
import Zephyr.Mempool.WaitRuns
import Zephyr.Net.PktWrite
import Zephyr.Fcb.Restart
import Zephyr.Mesh.Nonce
import Zephyr.Mesh.Replay
import Zephyr.Json.Escape
import Zephyr.Settings.Line
import Zephyr.Net.CoapMatch
import Zephyr.Net.PktFail
import Zephyr.Net.Linear
import Zephyr.Ctlr.Drift
