import RenderMq.Broker.Announce
import RenderMq.Broker.Conservation
import RenderMq.Broker.Loop
import RenderMq.Broker.Serving
import RenderMq.Broker.TaskMonitor
import RenderMq.Broker.ZStream
import RenderMq.Broker.ZombieTimer
import RenderMq.Expiry.Authority
import RenderMq.Expiry.BinaryStar
import RenderMq.Expiry.ExpirePaths
import RenderMq.Expiry.ExpireTiles
import RenderMq.Expiry.FragToTile
import RenderMq.Expiry.Fragment
import RenderMq.Expiry.LtsQueue
import RenderMq.Expiry.Overlay
import RenderMq.Expiry.PutAtomic
import RenderMq.Expiry.Service
import RenderMq.Expiry.Store
import RenderMq.Expiry.Timely
import RenderMq.Handler.Backend
import RenderMq.Handler.ConsistentHash
import RenderMq.Handler.Frontend
import RenderMq.Handler.KeyShuffle
import RenderMq.Handler.MongrelGrammar
import RenderMq.Handler.MongrelRequest
import RenderMq.Handler.NotModified
import RenderMq.Handler.Outcome
import RenderMq.Handler.Overload
import RenderMq.Handler.RingOwners
import RenderMq.Handler.Routing
import RenderMq.Handler.Runner
import RenderMq.Handler.StatusQuery
import RenderMq.Handler.StorageWorker
import RenderMq.Handler.StyleRules
import RenderMq.Http.Finishes
import RenderMq.Http.HttpDate
import RenderMq.Http.InOrder
import RenderMq.Http.MultiRequests
import RenderMq.Http.RefusedHandles
import RenderMq.Http.Terminates
import RenderMq.Lib.Actions
import RenderMq.Lib.Backtrack
import RenderMq.Lib.Calendar
import RenderMq.Lib.Call
import RenderMq.Lib.Countdown
import RenderMq.Lib.Descent
import RenderMq.Lib.Digits
import RenderMq.Lib.Double
import RenderMq.Lib.Endless
import RenderMq.Lib.Intern
import RenderMq.Lib.Masks
import RenderMq.Lib.Morton
import RenderMq.Lib.MultiIndex
import RenderMq.Lib.OrderedIndex
import RenderMq.Lib.PackedBits
import RenderMq.Lib.PathJoin
import RenderMq.Lib.Peg
import RenderMq.Lib.Pieces
import RenderMq.Lib.PropertyTree
import RenderMq.Lib.Protobuf
import RenderMq.Lib.Run
import RenderMq.Lib.Runs
import RenderMq.Lib.SortedMap
import RenderMq.Lib.Stir
import RenderMq.Lib.Sweep
import RenderMq.Lib.Wheel
import RenderMq.Lib.Wire
import RenderMq.Lib.Words
import RenderMq.Lib.Writes
import RenderMq.Metatile.Builder
import RenderMq.Metatile.Layout
import RenderMq.Metatile.Made
import RenderMq.Metatile.PythonReader
import RenderMq.Metatile.Ranges
import RenderMq.Metatile.TileData
import RenderMq.Metatile.WellFormed
import RenderMq.Metatile.Writer
import RenderMq.Node.CacheNames
import RenderMq.Node.InfoClient
import RenderMq.Node.InfoServer
import RenderMq.Node.InfoView
import RenderMq.Node.MercatorTiles
import RenderMq.Node.StaysExpired
import RenderMq.Node.ZLevels
import RenderMq.Queue.Bulk
import RenderMq.Queue.History
import RenderMq.Queue.Resubmit
import RenderMq.Queue.TaskQueue
import RenderMq.Render.CircularClamp
import RenderMq.Render.ClipGeometry
import RenderMq.Render.Coverages
import RenderMq.Render.CutFeatures
import RenderMq.Render.ExtractFeatures
import RenderMq.Render.Features
import RenderMq.Storage.Codec
import RenderMq.Storage.Complete
import RenderMq.Storage.Compositing
import RenderMq.Storage.CompositingGet
import RenderMq.Storage.Disk
import RenderMq.Storage.DiskHistory
import RenderMq.Storage.HostsDown
import RenderMq.Storage.Http
import RenderMq.Storage.HttpGetMeta
import RenderMq.Storage.KeptInTrees
import RenderMq.Storage.Lts
import RenderMq.Storage.MetaPath
import RenderMq.Storage.MetaStorage
import RenderMq.Storage.NestedConfig
import RenderMq.Storage.PutParts
import RenderMq.Storage.ReadYourWrites
import RenderMq.Storage.Requests
import RenderMq.Storage.RoundTrip
import RenderMq.Storage.SaveMetaTile
import RenderMq.Storage.SimpleHttp
import RenderMq.Storage.StorageConfig
import RenderMq.Storage.StorageTree
import RenderMq.Storage.TwoReaders
import RenderMq.Storage.Url
import RenderMq.System.Cluster
import RenderMq.System.Jobs
import RenderMq.System.Nodes
import RenderMq.System.RunLoops
import RenderMq.System.SavedStyles
import RenderMq.System.Serving
import RenderMq.System.Stack
import RenderMq.Tile.Message
import RenderMq.Tile.PathGrammar
import RenderMq.Tile.PathLanguage
import RenderMq.Tile.Protocol
import RenderMq.Worker.BestBroker
import RenderMq.Worker.Communicator
import RenderMq.Worker.Factory
import RenderMq.Worker.Outstanding
import RenderMq.Worker.RunLoop
import RenderMq.Worker.Safety
