import FmiTcpMaster.Barrier
import FmiTcpMaster.Leaving
import FmiTcpMaster.ConnectorValues
import FmiTcpMaster.Failure
import FmiTcpMaster.Timing
import FmiTcpMaster.DerivativeQueue
import FmiTcpMaster.Seeds
import FmiTcpMaster.UnsetGroups
import FmiTcpMaster.StopTime
import FmiTcpMaster.WeakValues
import FmiTcpMaster.Exit
import FmiTcpMaster.Strays
import FmiTcpMaster.ConnectionStrings
import FmiTcpMaster.SlaveOptions
import FmiTcpMaster.Spurious
import FmiTcpMaster.Endpoints
import FmiTcpMaster.DerivativeCounter
import FmiTcpMaster.DerivativeOrder
import FmiTcpMaster.Conformance
import FmiTcpMaster.Equivalence
import FmiTcpMaster.Duration
import FmiTcpMaster.Crashes
import FmiTcpMaster.Containment
import FmiTcpMaster.Readings
import FmiTcpMaster.Transparency
import FmiTcpMaster.Simulation
import FmiTcpMaster.Messages
import FmiTcpMaster.OpenLoop
import FmiTcpMaster.UrlFormat
import FmiTcpMaster.UrlMemory
import FmiTcpMaster.TestMain
import FmiTcpMaster.Lifetimes
import FmiTcpMaster.Inert
