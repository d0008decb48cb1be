import DmClock.Tag
import DmClock.ClientRec
import DmClock.Compare
import DmClock.Vector
import DmClock.Queue
import DmClock.Next
import DmClock.Run
import DmClock.Records
import DmClock.QueueInv
import DmClock.Reposition
import DmClock.Index
import DmClock.Cursor
import DmClock.Clean
import DmClock.Decision
import DmClock.Requests
import DmClock.Fifo
import DmClock.Dispatch
import DmClock.Push
import DmClock.Counters
import DmClock.Wakeup
import DmClock.HeapMode
import DmClock.HeapPush
