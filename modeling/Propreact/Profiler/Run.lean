import Propreact.Lib.Lts
import Propreact.Profiler.Walk

/-!
# Runs of the profiler

CUPTI may call back with a completed buffer at any time; the application reads. A read whose
`process` leaves a vector has no successor. The label of a read carries what it handed on.
-/

namespace Propreact.CuptiProfiler

inductive Event where
  /-- A buffer is completed outside a read. -/
  | callback (buffer : List Activity)
  /-- A read whose flush delivers `buffers`. -/
  | read (buffers : List (List Activity)) (out : Published)
  deriving Repr, DecidableEq

def step (p : CuptiProfiler) : Event → CuptiProfiler → Prop
  | .callback buffer, p' => p' = p.returnBuffer buffer
  | .read buffers out, p' => p.read buffers = .ok (p', out)

/-- All runs of a profiler constructed at time `start`. -/
def lts (start : ULong) : Lts CuptiProfiler Event where
  init p := p = new start
  step := step

section
variable {start : ULong} {tr : List Event} {p p' : CuptiProfiler} {out : Published}

theorem run_new (start : ULong) : (lts start).Run [] (new start) := .nil rfl

theorem run_callback (h : (lts start).Run tr p) (buffer : List Activity) :
    (lts start).Run (tr ++ [.callback buffer]) (p.returnBuffer buffer) := h.snoc rfl

theorem run_read (h : (lts start).Run tr p) (buffers : List (List Activity))
    (hr : p.read buffers = .ok (p', out)) : (lts start).Run (tr ++ [.read buffers out]) p' :=
  h.snoc hr

end

/-- Reads one after the other, with what they hand on. -/
def reads (p : CuptiProfiler) :
    List (List (List Activity)) → Except Fault (CuptiProfiler × List Published)
  | [] => .ok (p, [])
  | buffers :: rest => do
    let (p, out) ← p.read buffers
    let (p, outs) ← reads p rest
    return (p, out :: outs)

/-- What `produce` was called with, put together. -/
def produced (tr : List Event) : RecordVec :=
  tr.flatMap fun
    | .callback _ => []
    | .read _ out => out.produced

/-- The calls on the window. -/
def windowCalls (tr : List Event) : List WindowCall :=
  tr.flatMap fun
    | .callback _ => []
    | .read _ out => out.window

/-- The records an event hands to `insert`. -/
def Event.records : Event → List Activity
  | .callback buffer => buffer
  | .read buffers _ => buffers.flatten

def Event.isRead : Event → Bool
  | .callback _ => false
  | .read _ _ => true

/-- The records inserted so far. -/
def inserted (tr : List Event) : List Activity := tr.flatMap Event.records

/-- The steps up to the last read. -/
def upToLastRead (tr : List Event) : List Event := tr.rdropWhile (!·.isRead)

/-- The entry of a kernel, with its times relative to `start`. -/
def entry (start : ULong) (k : Kernel) : ExpKeyCuptiTuple :=
  (k.grid, ⟨k.start - start, k.end - start⟩)

/-- The entries a list of records adds to `m_keyval_vec_raw`. -/
def entries (start : ULong) (records : List Activity) : List ExpKeyCuptiTuple :=
  records.filterMap fun
    | .kernel k => some (entry start k)
    | _ => none

/-- The times of a list of kernels, relative to `start`. -/
def times (start : ULong) (kernels : List Kernel) : List CuptiTuple :=
  kernels.map fun k => (entry start k).2

/-- How many entries of `m_tup_vec_raw` the calls of `process` so far have handled: those that
were there at the last call. -/
def handled (start : ULong) (tr : List Event) : Nat :=
  (entries start (inserted (upToLastRead tr))).length

/-- Kernels of one block each with the given starts and ends, in one buffer. -/
def oneBuffer (times : List (ULong × ULong)) : List (List Activity) :=
  [times.map fun (start, «end») => .kernel ⟨start, «end», 1, 1, 1⟩]

end Propreact.CuptiProfiler
