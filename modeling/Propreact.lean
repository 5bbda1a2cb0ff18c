import Propreact.Lib.Fair
import Propreact.Lib.Interval
import Propreact.Lib.Loop
import Propreact.Lib.Mailbox
import Propreact.Lib.Critical
import Propreact.Lib.Monitor
import Propreact.Lib.QueueTable
import Propreact.Lib.Sequences
import Propreact.Window.Window
import Propreact.Window.GlobalWindow
import Propreact.Window.RecordBuffer
import Propreact.Window.Proof.Lock
import Propreact.Window.Proof.Mailbox
import Propreact.Window.Proof.RecordBuffer
import Propreact.Window.Proof.Tables
import Propreact.Window.Proof.Tops
import Propreact.Window.Proof.Minima
import Propreact.Profiler.CuptiProfiler
import Propreact.Profiler.Walk
import Propreact.Profiler.Batch
import Propreact.Profiler.Proof.Loops
import Propreact.Profiler.Proof.Process
import Propreact.Profiler.Proof.Deliver
import Propreact.Profiler.Proof.Publish
import Propreact.Profiler.Proof.Total
import Propreact.Profiler.Proof.Origin
import Propreact.Profiler.Proof.Counters
import Propreact.Profiler.Proof.Kept
import Propreact.Profiler.Proof.Read
import Propreact.Profiler.Proof.Separated
import Propreact.Profiler.Proof.Boundary
import Propreact.Profiler.Proof.Order
import Propreact.Profiler.Proof.Idle
import Propreact.Profiler.Proof.Cover
import Propreact.Profiler.Proof.Range
import Propreact.Profiler.Proof.Busy
import Propreact.Profiler.Proof.Pairs
import Propreact.Profiler.Proof.Shift
import Propreact.Backend.Decode
import Propreact.Backend.Token
import Propreact.Backend.Locks
import Propreact.Backend.Proof.Refine
import Propreact.Backend.Proof.Locks
import Propreact.Backend.Proof.Safety
import Propreact.Backend.Proof.Start
import Propreact.Backend.Proof.Decode
import Propreact.Backend.Proof.Parser
import Propreact.Backend.Proof.Fifo
import Propreact.Backend.Proof.Progress
import Propreact.Backend.Proof.Live
import Propreact.Backend.Proof.Starve
import Propreact.Backend.Proof.Bypass
import Propreact.Backend.Proof.Passes
import Propreact.Client.Predictor
import Propreact.Client.System
import Propreact.Client.Launch
import Propreact.Client.Xrush
import Propreact.Client.Threads
import Propreact.Client.Process
import Propreact.Client.Locks
import Propreact.Client.Startup
import Propreact.Client.Calls
import Propreact.Client.Proof.Encode
import Propreact.Client.Proof.RoundTrip
import Propreact.Client.Proof.Ledger
import Propreact.Client.Proof.Follow
import Propreact.Client.Proof.Gating
import Propreact.Client.Proof.Markers
import Propreact.Client.Proof.Packet
import Propreact.Client.Proof.Empty
import Propreact.Client.Proof.Threads
import Propreact.Client.Proof.Locks
import Propreact.Client.Proof.Process
import Propreact.Client.Proof.Pipeline
import Propreact.Client.Proof.Predict
import Propreact.Client.Proof.Origin
import Propreact.Client.Proof.Stages
import Propreact.Client.Proof.Progress
import Propreact.Client.Proof.Calls
import Propreact.Client.Proof.Starve
import Propreact.Client.Proof.Startup
