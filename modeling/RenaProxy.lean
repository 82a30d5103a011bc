import RenaProxy.Tree.LetterCase
import RenaProxy.NeverRules
import RenaProxy.Database.Zones
import RenaProxy.Http.Requests
import RenaProxy.Http.Relay
import RenaProxy.Http.Dispatch
import RenaProxy.Http.DomainRoom
import RenaProxy.Http.Grammar
import RenaProxy.Clients.Runs
import RenaProxy.TaskQueue
import RenaProxy.Hangup
import RenaProxy.FaProxy.Endpoints
import RenaProxy.FaProxy.Cuts
import RenaProxy.Database.RoundTrip
import RenaProxy.Squid.Undo
import RenaProxy.Squid.Comments
import RenaProxy.Squid.HeaderVisitor
import RenaProxy.Squid.Cache
import RenaProxy.Http.Detectors
import RenaProxy.Http.ScanBounds
import RenaProxy.Http.FieldValues
import RenaProxy.Database.Escapes
import RenaProxy.HtmlMarkup
import RenaProxy.Database.RuleLines
import RenaProxy.Squid.SplitUrl
import RenaProxy.Squid.Search
import RenaProxy.Squid.Redirect
import RenaProxy.Squid.HostOnly
import RenaProxy.Squid.Passes
import RenaProxy.Squid.NeverNames
import RenaProxy.DropTasks
import RenaProxy.Clients.Positions
import RenaProxy.Connect
import RenaProxy.FaProxy.PayloadRing
import RenaProxy.FaProxy.AcceptOutput
import RenaProxy.FaProxy.Growth
import RenaProxy.Database.Bookkeeping
import RenaProxy.Squid.EcapLogic
import RenaProxy.Config.Load
import RenaProxy.WorkerPool
import RenaProxy.Squid.FewUrls
import RenaProxy.Http.Delivery
