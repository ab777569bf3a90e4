import FHT.Hendler.LostUpdate
import FHT.Task.Conservation
import FHT.Task.Batch
import FHT.Task.Throwing
import FHT.Server.Http
import FHT.Server.Routing
import FHT.Task.Shutdown
import FHT.Server.Async
import FHT.Server.Coro
import FHT.Server.Handling
import FHT.Server.Isolation
import FHT.Server.KeepAlive
import FHT.Server.Release
import FHT.Server.WsDelivery
import FHT.Client.Params
import FHT.Client.HttpConnect
import FHT.Client.Fetch
import FHT.Server.Deleter
import FHT.Server.Exceptions
import FHT.Lib.Ownership
import FHT.Server.Ownership
import FHT.Server.LessenAll
import FHT.Hendler.Snapshots
import FHT.Lib.Line
import FHT.Task.Order
import FHT.DBFacade.Postgres
import FHT.Lib.Lending
import FHT.Task.Wakeup
import FHT.DBFacade.Pool
import FHT.DBFacade.Statements
import FHT.Client.Delivery
import FHT.Server.Dispatch
import FHT.Server.KeySpaces
import FHT.Server.Query
import FHT.DBFacade.Facade
import FHT.Logging.Dump
import FHT.Task.Turns
import FHT.Hendler.FhtMain
import FHT.Hendler.Delayed
import FHT.Hendler.Simulation
import FHT.DBFacade.Waiting
import FHT.DBFacade.Results
import FHT.Task.Round
import FHT.Task.Timed
import FHT.Task.RoundRobin
import FHT.Task.Pause
import FHT.Task.Manager
import FHT.Task.StopManager
import FHT.Task.Undisturbed
import FHT.Server.Connections
import FHT.Server.Builds
import FHT.Server.Lookups
import FHT.Client.Outcome
import FHT.Client.Answers
import FHT.Server.Workers
import FHT.Server.WsPublishing
import FHT.Core.Server
import FHT.Core.InitCore
import FHT.DBFacade.Settling
