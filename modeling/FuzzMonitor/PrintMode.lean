import FuzzMonitor.PerfCalls
import FuzzMonitor.PerfTool

namespace FuzzMonitor.Perf
open CStrings PerfTool

def shown (aux : List BtsBranch) : List (UInt64 × UInt64) :=
  (aux.filter fun br => !leftOut br).map fun br => (br.from, br.to)

end FuzzMonitor.Perf
