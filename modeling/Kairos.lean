import Kairos.Go.KeyLists
import Kairos.Template.Braces
import Kairos.Template.Replies
import Kairos.Template.Frame
import Kairos.Template.Bindings
import Kairos.Template.Comparison
import Kairos.Template.Tracking
import Kairos.Template.Forms
import Kairos.Template.Balance
import Kairos.Template.Clauses
import Kairos.Template.Breaks
import Kairos.Runner.Starting
import Kairos.Runner.Requests
import Kairos.Runner.Destroy
import Kairos.Runner.Endpoints
import Kairos.Runner.Queues
import Kairos.Runner.DeliverIDs
import Kairos.Runner.Identifiers
import Kairos.Runner.Listening
import Kairos.Runner.Subjects
import Kairos.Workflow.Flows
import Kairos.Workflow.Payloads
import Kairos.Runner.Restart
import Kairos.Deliverer.Dissolver
import Kairos.Protocol.BufferPool
import Kairos.Protocol.Framing
import Kairos.Deliverer.Unsubscribing
import Kairos.Deliverer.Closing
import Kairos.Deliverer.Connections
import Kairos.Deliverer.Timer
import Kairos.Runner.Pool
import Kairos.Runner.Recover
import Kairos.Runner.Initialisation
import Kairos.Workflow.Names
import Kairos.Daemon.PubSub
import Kairos.Daemon.StoreCounts
import Kairos.Daemon.StoreQueue
import Kairos.Daemon.Workflows
import Kairos.Daemon.Scheduler
import Kairos.Daemon.Actives
import Kairos.Daemon.StoreLocks
import Kairos.Daemon.Disconnects
import Kairos.Daemon.ClientLocks
import Kairos.Pkg.Circbuf
import Kairos.Pkg.Glob
import Kairos.Pkg.Bufcb
import Kairos.Pkg.CBQueue
import Kairos.Protocol.JsonWriter
