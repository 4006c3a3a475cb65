import EglUtil.LockFreeQueueSequential
import EglUtil.BinaryScalar
import EglUtil.Json.Termination
import EglUtil.TaskFutureChannel
import EglUtil.CliParserSpellings
import EglUtil.CliParserReordering
import EglUtil.FlatMap
import EglUtil.FlatSet
import EglUtil.ObjectPool
import EglUtil.StackAllocator
import EglUtil.CircularBuffer
import EglUtil.StringFormatter
import EglUtil.StringSplitter
import EglUtil.HashSha256
import EglUtil.ThreadPoolFutures
import EglUtil.FileStreamRoundTrip
import EglUtil.LockFreeQueueProgress
import EglUtil.CliParserHelp
import EglUtil.LoggerReading
import EglUtil.StackTrace
import EglUtil.ReaderWriterLockProgress
import EglUtil.TcpSocketStreams
import EglUtil.Json.Data
import EglUtil.LoggerProgress
import EglUtil.LoggerBounds
import EglUtil.SemaphoreProgress
