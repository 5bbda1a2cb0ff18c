import Propreact.Client.Process
import Propreact.Client.Xrush

/-!
# What the application sees of its calls

`XrushCalls` is the client as its application sees it, with no threads and no backend: a callback
and a read are one step each, and a call of `XrushLaunch` takes effect once, in one step between its
call and its return. The trace of a process shows these steps (`Process.Event.call`).
-/

namespace Propreact

/-- Where the application is with its call of `XrushLaunch`. -/
inductive Launch where
  | idle
  | called (g : Grid)
  /-- The call has taken effect; `answered` tells whether it can return. -/
  | done (answered : Bool)
  deriving Repr, DecidableEq

structure XrushCalls where
  obj : Xrush
  launch : Launch

namespace XrushCalls

inductive Event where
  | called (g : Grid)
  | took (e : Xrush.Event)
  | returned
  deriving Repr, DecidableEq

/-- A marker is answered at once, a request unless its key is 0. -/
def answered : Xrush.Event → Bool
  | .requested g _ => g.x ≠ 0
  | _ => true

/-- No launch takes effect that overruns the packet. -/
inductive Step : XrushCalls → Event → XrushCalls → Prop
  | callback {obj obj' : Xrush} {l : Launch} {buffer : List Activity} {e : Xrush.Event} :
    obj.next (.callback buffer) = some (e, obj') → Step ⟨obj, l⟩ (.took e) ⟨obj', l⟩
  | profile {obj obj' : Xrush} {l : Launch} {buffers : List (List Activity)} {e : Xrush.Event} :
    obj.next (.profile buffers) = some (e, obj') → Step ⟨obj, l⟩ (.took e) ⟨obj', l⟩
  | call {obj : Xrush} (g : Grid) : Step ⟨obj, .idle⟩ (.called g) ⟨obj, .called g⟩
  | launch {obj obj' : Xrush} {g : Grid} {now : Int} {e : Xrush.Event} :
    obj.next (.launch g now) = some (e, obj') → obj'.overrun = false →
    Step ⟨obj, .called g⟩ (.took e) ⟨obj', .done (answered e)⟩
  | return {obj : Xrush} : Step ⟨obj, .done true⟩ .returned ⟨obj, .idle⟩

def lts (start : ULong) (pkt : Vector ULong pktWords) : Lts XrushCalls Event where
  init y := y = ⟨.create start pkt, .idle⟩
  step := Step

end XrushCalls

namespace Process

/-- What the application sees of a step. -/
def Event.call : Event → Option XrushCalls.Event
  | .callback buffer => some (.took (.callback buffer))
  | .profiled buffers out => some (.took (.profiled buffers out))
  | .requested g _ _ r => some (.took (.requested g r))
  | .moved (.launched g) => some (.called g)
  | .moved (.marked g) => some (.took (.marked g))
  | .moved .returned => some .returned
  | _ => none

end Process

end Propreact
