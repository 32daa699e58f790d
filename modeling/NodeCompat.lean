import NodeCompat.Http.Closing
import NodeCompat.Http.Pipeline
import NodeCompat.Loop.Turn
import NodeCompat.Loop.Snapshots
import NodeCompat.Web.WriteOrder
import NodeCompat.Http.FieldLists
import NodeCompat.Http.HeadLines
import NodeCompat.Http.Announced
import NodeCompat.Http.Throws
import NodeCompat.Net.Resolve
import NodeCompat.Net.OwnLife
import NodeCompat.Loop.Immediates
import NodeCompat.Alloc.PoolSound
import NodeCompat.Http.Buffering
import NodeCompat.Stream.Length
import NodeCompat.Stream.PipeRuns
import NodeCompat.Stream.IterateRuns
import NodeCompat.Stream.PairRuns
import NodeCompat.Stream.FinishedRuns
import NodeCompat.Web.FormRequest
import NodeCompat.Web.Tee
import NodeCompat.Web.UrlCalls
import NodeCompat.Web.UrlBase
import NodeCompat.Fs.FilePath
import NodeCompat.Http.FetchClone
import NodeCompat.Cluster.Attribution
import NodeCompat.Zlib.Agreement
import NodeCompat.Cluster.CommandLine
import NodeCompat.Crypto.Hmac
import NodeCompat.Cluster.Environment
import NodeCompat.Cluster.ListenerService
import NodeCompat.Events.AbortSignal
import NodeCompat.Events.Tracing
import NodeCompat.Net.ReactorSocket
import NodeCompat.Net.Delivery
import NodeCompat.Net.WriteCallbacks
import NodeCompat.Net.BlockRules
import NodeCompat.Events.EventIterator
import NodeCompat.Http.ServerListeners
import NodeCompat.Http.RequestBody
import NodeCompat.Web.ByobReader
import NodeCompat.Stream.FromWeb
import NodeCompat.Buffer.FromString
import NodeCompat.Path.Parse
import NodeCompat.Path.Relative
import NodeCompat.Buffer.Integers
import NodeCompat.Stream.ReadableLength
