import Rilua.Vm.Gc.WeakTables
import Rilua.Vm.InternCount
import Rilua.Vm.TableBuilt
import Rilua.Vm.Gc.Propagate
import Rilua.Vm.DumpRoundTrip
import Rilua.Vm.CallProtocol
import Rilua.Vm.Immutable
import Rilua.Vm.ErrorReports
import Rilua.Stdlib.PatternAgree
import Rilua.Vm.Metering
import Rilua.Vm.SecretRefine
import Rilua.Vm.SecretRuns
import Rilua.Vm.TaintChain
import Rilua.Vm.UndumpSafe
import Rilua.Vm.HostCalls
import Rilua.Compiler.Depth
import Rilua.Stdlib.Unpack
import Rilua.Vm.ForLoop
import Rilua.Vm.StaticCache
import Rilua.Vm.Metamethods
import Rilua.Vm.LoadReader
import Rilua.Vm.CoStatus
import Rilua.Vm.EnvCache
import Rilua.Vm.EnvTransferRuns
import Rilua.Vm.GlobalSlotRuns
import Rilua.Compiler.LexerStream
import Rilua.Stdlib.FormatPrintf
import Rilua.Compiler.Quoted
import Rilua.Vm.Concat
import Rilua.Stdlib.Find
import Rilua.Stdlib.Gmatch
import Rilua.Stdlib.GsubExact
import Rilua.Compiler.Compiled
import Rilua.Compiler.OperatorTrees
import Rilua.Stdlib.TableSorted
import Rilua.Stdlib.SecureRange
import Rilua.Vm.SecureCalls
import Rilua.Vm.FailedStores
import Rilua.Vm.ApiStores
import Rilua.Vm.TableSizing
import Rilua.Stdlib.TracebackPaths
import Rilua.Stdlib.RequireRuns
import Rilua.Stdlib.DebugInspectSafe
import Rilua.Vm.Gc.ProgramRun
