import FuzzMonitor.CStrings
import FuzzMonitor.Tally
import FuzzMonitor.Adjacency
import FuzzMonitor.Graph
import FuzzMonitor.GraphRep
import FuzzMonitor.Search
import FuzzMonitor.GraphDepth
import FuzzMonitor.DepthSearch
import FuzzMonitor.DepthConn
import FuzzMonitor.BasicBlocks
import FuzzMonitor.Branches
import FuzzMonitor.HashKey
import FuzzMonitor.Coverage
import FuzzMonitor.Resolution
import FuzzMonitor.SectionFilter
import FuzzMonitor.FreeHashtable
import FuzzMonitor.Perf
import FuzzMonitor.WaitLoop
import FuzzMonitor.PerfCalls
import FuzzMonitor.ApiResult
import FuzzMonitor.TracedChild
import FuzzMonitor.Resources
import FuzzMonitor.Crc64
import FuzzMonitor.Inotify
import FuzzMonitor.MonitorLoop
import FuzzMonitor.CorpusEvents
import FuzzMonitor.WaitCreation
import FuzzMonitor.PerfTool
import FuzzMonitor.RustMonitor
import FuzzMonitor.CallGraph
import FuzzMonitor.BranchStore
import FuzzMonitor.GraphMeasures
import FuzzMonitor.ReceivedInput
import FuzzMonitor.InputGraphs
import FuzzMonitor.Preload
import FuzzMonitor.MissedCreation
import FuzzMonitor.ReflectedCrc
import FuzzMonitor.Crc64Bits
import FuzzMonitor.SeenInputs
import FuzzMonitor.BlockStarts
import FuzzMonitor.SectionName
import FuzzMonitor.DepthWork
import FuzzMonitor.PrintMode
import FuzzMonitor.AddFailure
import FuzzMonitor.Elapsed
import FuzzMonitor.InputDescriptor
import FuzzMonitor.TableIteration
import FuzzMonitor.ElfFile
import FuzzMonitor.ElfSafety
import FuzzMonitor.FailedTrace
import FuzzMonitor.CellLog
import FuzzMonitor.CellRelease
import FuzzMonitor.TableRelease
import FuzzMonitor.GetOpt
import FuzzMonitor.Options
import FuzzMonitor.CallRuns
import FuzzMonitor.LoopCalls
import FuzzMonitor.LoopCoverage
import FuzzMonitor.LoopReturn
import FuzzMonitor.MonitorMain
import FuzzMonitor.GraphOutput
import FuzzMonitor.Transport
import FuzzMonitor.InputChannel
import FuzzMonitor.Records
import FuzzMonitor.LoopReport
import FuzzMonitor.QemuTrace
import FuzzMonitor.RustStart
import FuzzMonitor.SectionAddress
import FuzzMonitor.TwoMonitors
import FuzzMonitor.SeenCells
import FuzzMonitor.SeenListing
import FuzzMonitor.ReportRows
import FuzzMonitor.RustMain
import FuzzMonitor.RunCells
import FuzzMonitor.CrcPolynomial
import FuzzMonitor.InputPolynomial
import FuzzMonitor.PerfRuns
