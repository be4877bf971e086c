import Saturnis.ArbiterTimeline
import Saturnis.ArbiterMemory
import Saturnis.ArbiterProgram
import Saturnis.ArbiterHorizon
import Saturnis.ArbiterQueue
import Saturnis.ArbiterResidue
import Saturnis.ArbiterSingle
import Saturnis.ArbiterTurns
import Saturnis.BusarbRun
import Saturnis.BusarbTimeline
import Saturnis.BusarbParity
import Saturnis.ScriptedAgree
import Saturnis.ScriptedInvariant
import Saturnis.ScriptedReads
import Saturnis.TraceLoaders
import Saturnis.ReplayTotals
import Saturnis.BiosProgress
import Saturnis.Sh2Budget
import Saturnis.Sh2Transparent
import Saturnis.Sh2Nested
import Saturnis.DeviceLanes
import Saturnis.ScuHistory
import Saturnis.Sh2Paths
import Saturnis.BusarbWait
import Saturnis.ArbiterFront
import Saturnis.Sh2Divide
import Saturnis.Sh2Limbs
import Saturnis.Sh2Stack
import Saturnis.StoreForward
import Saturnis.ScriptedFaults
import Saturnis.DeviceMemory
import Saturnis.ArbiterWatermark
import Saturnis.Sh2Trapa
import Saturnis.ReplayTiming
import Saturnis.AnnotatedOutput
import Saturnis.BiosMetrics
import Saturnis.ScriptedFairness
import Saturnis.ScriptedConsistency
import Saturnis.ScriptedWaits
import Saturnis.ArbiterWaits
import Saturnis.Sh2Families
import Saturnis.BiosReplay
import Saturnis.BiosProgram
import Saturnis.ArbiterPaths
import Saturnis.ReplayDrift
import Saturnis.Vdp1History
import Saturnis.TraceEquality
