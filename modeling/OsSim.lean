import OsSim.SchedBudget
import OsSim.TimerProgress
import OsSim.Lifecycle
import OsSim.Ownership
import OsSim.NoneLost
import OsSim.WindDown
import OsSim.Machine
import OsSim.Shutdown
import OsSim.Possession
import OsSim.Paging
import OsSim.FrameIsolation
import OsSim.ReadYourWrites
import OsSim.FramePartition
import OsSim.VmMap
import OsSim.FifoResidency
import OsSim.MemoryLaw
import OsSim.FreeMemph
import OsSim.PteHistory
import OsSim.Linked
import OsSim.LiveRegions
import OsSim.AllocContract
import OsSim.SymtblSafety
import OsSim.AccessContract
import OsSim.Confinement
import OsSim.LoadRoundTrip
import OsSim.LoadCut
import OsSim.RegionConservation
import OsSim.RegionReuse
import OsSim.AreaGrowth
import OsSim.TimeSlices
import OsSim.InitMm
import OsSim.PageCopy
import OsSim.SeqDevice
import OsSim.MapShortage
import OsSim.VictimOrder
import OsSim.Admission
import OsSim.Chart
import OsSim.RunChart
import OsSim.SlotSteps
import OsSim.WorkConserving
import OsSim.ResponseBound
import OsSim.Ending
import OsSim.EndingTime
import OsSim.SliceCount
import OsSim.InTurn
import OsSim.WaitingBound
import OsSim.ProgramFate
import OsSim.System
import OsSim.ReadConfig
import OsSim.Boot
import OsSim.AttachEvent
import OsSim.SwapNeverRead
import OsSim.Locks
import OsSim.FrameThreads
import OsSim.SharedFrames
