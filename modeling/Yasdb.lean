import Yasdb.FailedCommit
import Yasdb.Notifier.Metadata
import Yasdb.Notifier.ReaderTail
import Yasdb.Notifier.Acks
import Yasdb.Server.DeleteCrash
import Yasdb.Server.CountReads
import Yasdb.Server.Closure
import Yasdb.Lifecycle.SoftDelete
import Yasdb.Lifecycle.Dormancy
import Yasdb.Lifecycle.Deadlock
import Yasdb.Lifecycle.Bodies
import Yasdb.Lifecycle.Replies
import Yasdb.Live.Wakeups
import Yasdb.Live.EndOfStream
import Yasdb.Live.LongPoll
import Yasdb.Pwal.CrashOrder
import Yasdb.Pwal.Concurrent
import Yasdb.Pwal.OrderedMap
import Yasdb.Pwal.Overflow
import Yasdb.Server.Deleter
import Yasdb.Server.CreateExpiry
import Yasdb.Server.Sweep
import Yasdb.Server.StateCursor
import Yasdb.Live.Cursor
import Yasdb.Server.MetaCodec
import Yasdb.Live.CacheBounds
import Yasdb.SlateIter
import Yasdb.Sse
