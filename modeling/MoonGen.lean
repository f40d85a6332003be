import MoonGen.Double
import MoonGen.Mbuf
import MoonGen.Lib.Loop
import MoonGen.Lib.Batch
import MoonGen.Lib.Ring
import MoonGen.Lib.Sieve
import MoonGen.Lib.Draws
import MoonGen.Lib.Shaping
import MoonGen.Lib.Moments
import MoonGen.Lib.Tickets
import MoonGen.Lib.Bisection
import MoonGen.Lib.Lockstep
import MoonGen.Lib.Traversal
import MoonGen.RateControl.Crc
import MoonGen.RateControl.Delivery
import MoonGen.RateControl.LaunchTimestamp
import MoonGen.RateControl.ByteClock
import MoonGen.RateControl.SoftwareLimiter
import MoonGen.Moonem.Common
import MoonGen.Moonem.Receiver
import MoonGen.Moonem.Ownership
import MoonGen.Moonem.Transmitter
import MoonGen.Moonem.LossModel
import MoonGen.Moonem.NetemDraws
import MoonGen.Moonem.LossEquivalence
import MoonGen.Moonem.TokenBucket
import MoonGen.Moonem.TokenEquivalence
import MoonGen.Moonem.LeakyBucket
import MoonGen.Moonsniff.Mscap
import MoonGen.Moonsniff.ArrMatch
import MoonGen.Moonsniff.Consumption
import MoonGen.Moonsniff.Live
import MoonGen.Moonsniff.LiveStatistics
import MoonGen.Interface.FlowTag
import MoonGen.Interface.Counter
import MoonGen.Interface.Queues
import MoonGen.Interface.QueueAllocation
import MoonGen.Interface.Packet
import MoonGen.Interface.Inheritance
import MoonGen.Rfc2544.BinarySearch
import MoonGen.Rfc2544.Throughput
import MoonGen.Rfc2544.BackToBack
import MoonGen.Rfc2544.Agreement
import MoonGen.RateControl.FillerAccounting
import MoonGen.RateControl.GapDecomposition
import MoonGen.RateControl.PostponedDelay
import MoonGen.RateControl.Placement
import MoonGen.Moonem.LossScripts
import MoonGen.Lib.MappedFile
import MoonGen.Moonsniff.Capture
import MoonGen.Moonsniff.MscapFile
import MoonGen.Moonsniff.Pcap
import MoonGen.Interface.FlowRegistry
import MoonGen.Interface.OptionResolution
import MoonGen.Interface.RegistrySoundness
import MoonGen.Interface.Uid
import MoonGen.Moonem.BurstCuts
import MoonGen.Moonem.NetemBounds
import MoonGen.Moonsniff.RecordFidelity
import MoonGen.Lib.Words
import MoonGen.Moonsniff.Latency
import MoonGen.Moonsniff.PcapMapping
import MoonGen.Moonsniff.Join
import MoonGen.Lib.SortedMap
import MoonGen.Lib.Rounding
import MoonGen.Moonsniff.Histogram
import MoonGen.Lib.Spacing
import MoonGen.RateControl.Pacing
import MoonGen.RateControl.PacketTime
import MoonGen.RateControl.RequestedRate
import MoonGen.RateControl.WireSchedule
import MoonGen.RateControl.CustomLimiter
import MoonGen.RateControl.Replay
import MoonGen.Interface.Recycling
import MoonGen.Rfc2544.AdversarialSearch
import MoonGen.Lib.Closure
import MoonGen.Interface.Range
import MoonGen.Rfc2544.LatencyBins
import MoonGen.Lib.Pattern
import MoonGen.Interface.LuaText
import MoonGen.Interface.FlowParse
import MoonGen.Interface.Units
import MoonGen.Interface.LimitOptions
import MoonGen.Interface.OptionErrors
import MoonGen.Interface.LoadThread
import MoonGen.Interface.UpdateMode
import MoonGen.Interface.CountThread
import MoonGen.Lib.Compaction
import MoonGen.Interface.DeviceStats
import MoonGen.Lib.Scope
import MoonGen.Interface.ConfigFiles
import MoonGen.Interface.Restore
import MoonGen.Interface.Activity
import MoonGen.Interface.DeviceClosing
import MoonGen.Lib.Channel
import MoonGen.Lib.Barrier
import MoonGen.Rfc2544.Slaves
import MoonGen.Rfc2544.SlaveBarrier
import MoonGen.Rfc2544.FrameLoss
import MoonGen.Moonsniff.Experiment
import MoonGen.Moonem.HwPath
import MoonGen.Moonem.EmulatedDelay
import MoonGen.Lib.Interleave
import MoonGen.Interface.FlowStats
import MoonGen.Moonem.Deployment
import MoonGen.Moonem.SharedRate
import MoonGen.Moonem.SoftwareDelay
