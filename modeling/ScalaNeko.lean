import ScalaNeko.Protocol.Lemmas.LamportClock
import ScalaNeko.Protocol.Lemmas.VectorClock
import ScalaNeko.Protocol.Lemmas.FIFOChannel
import ScalaNeko.Protocol.Lemmas.SafraDetection
import ScalaNeko.Protocol.Lemmas.Stack
import ScalaNeko.Protocol.Impl.SynchronousRounds
import ScalaNeko.Protocol.Lemmas.SynchronousRounds
import ScalaNeko.Protocol.Lemmas.CrashStop
import ScalaNeko.Protocol.Lemmas.SignalSequence
import ScalaNeko.Protocol.Lemmas.ArrivalOrder
import ScalaNeko.Protocol.Lemmas.Snapshot
import ScalaNeko.StashedReceive.Lemmas
import ScalaNeko.Kernel.Lemmas.Scheduler
import ScalaNeko.Network.DelaySim.Constant
import ScalaNeko.Topology.Lemmas
import ScalaNeko.Kernel.Lemmas.HandOver
import ScalaNeko.Kernel.Lemmas.TimedWait
import ScalaNeko.Kernel.Lemmas.Cancel
import ScalaNeko.Kernel.Lemmas.Periodic
import ScalaNeko.Kernel.Lemmas.Drain
import ScalaNeko.Kernel.Lemmas.ManagedActivity
import ScalaNeko.Kernel.Lemmas.AbortFinal
import ScalaNeko.Protocol.Lemmas.ArbitraryTopology
import ScalaNeko.Protocol.Lemmas.FIFOChannels
import ScalaNeko.Protocol.Lemmas.FastAnonymousRounds
import ScalaNeko.Protocol.Lemmas.CrashBatches
import ScalaNeko.Protocol.Lemmas.AnonymousRounds
import ScalaNeko.Protocol.Lemmas.Anonymity
import ScalaNeko.Kernel.Lemmas.Dispatcher
import ScalaNeko.Topology.Lemmas.Cycle
import ScalaNeko.Topology.Lemmas.Descriptor
import ScalaNeko.Topology.Lemmas.Ladder
import ScalaNeko.Topology.Lemmas.Grid
import ScalaNeko.Topology.Lemmas.Torus
import ScalaNeko.Topology.Lemmas.RangeGrid
import ScalaNeko.Trace.Lemmas.SingleFileTracer
import ScalaNeko.Trace.Lemmas.FileEventTracer
import ScalaNeko.Stream.Lemmas
import ScalaNeko.Protocol.Lemmas.RoundPace
import ScalaNeko.Protocol.Lemmas.SafraDeadline
import ScalaNeko.Protocol.Lemmas.SnapshotTime
import ScalaNeko.Protocol.Lemmas.TopologyLayer
import ScalaNeko.Protocol.Lemmas.CausalOrder
import ScalaNeko.Topology.Lemmas.Random
