import FluentNet.Utils.FastIo
import FluentNet.Utils.PowersOfTwo
import FluentNet.Network.InetAddress
import FluentNet.Network.BufferGrowth
import FluentNet.Network.BufferQueue
import FluentNet.Handler.Stream
import FluentNet.Handler.SendQueue
import FluentNet.Handler.Rejected
import FluentNet.Handler.Shutdown
import FluentNet.Handler.Life
import FluentNet.Handler.Errors
import FluentNet.Handler.Interest
import FluentNet.Handler.Routing
import FluentNet.Network.PoolReclaim
import FluentNet.App.SharedMultiplexer
import FluentNet.App.SharedRouting
import FluentNet.App.DeferredShutdown
import FluentNet.App.Echo
import FluentNet.App.Descriptors
import FluentNet.Future.Blocks
import FluentNet.Future.WhenN
import FluentNet.Future.WhenAll
import FluentNet.Future.Wait
import FluentNet.Future.Looper
import FluentNet.Coroutine.BackOff
import FluentNet.Coroutine.Posix
import FluentNet.Coroutine.Environment
import FluentNet.Coroutine.Machine
import FluentNet.Logger.Served
import FluentNet.Logger.Tags
import FluentNet.Utils.ThreadPool
import FluentNet.Http.Replies
