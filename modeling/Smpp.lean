import Smpp.Base.Comparator
import Smpp.Base.Heap
import Smpp.Base.StdAlgorithms
import Smpp.Base.Width
import Smpp.Base.Loop
import Smpp.Base.Text
import Smpp.Base.Rounding
import Smpp.Model.Task
import Smpp.Model.PriorityQueue
import Smpp.Model.TaskProcessor
import Smpp.Model.Simulate
import Smpp.Model.Mmsim
import Smpp.Model.Main
import Smpp.Model.Output
import Smpp.Model.Rounded
import Smpp.Scheduling.Load
import Smpp.Scheduling.Graham
import Smpp.Scheduling.Lpt
import Smpp.Scheduling.Dominance
import Smpp.Scheduling.FlowTime
import Smpp.Scheduling.Clock
import Smpp.Scheduling.Balance
import Smpp.Scheduling.Rounds
import Smpp.Scheduling.MoreJobs
import Smpp.Scheduling.Perturbed
import Smpp.Correctness.PriorityQueue
import Smpp.Correctness.Lockstep
import Smpp.Correctness.EventLoop
import Smpp.Correctness.Schedule
import Smpp.Correctness.Refinement
import Smpp.Correctness.Timeline
import Smpp.Correctness.EqualProcessors
import Smpp.Correctness.Simulate
import Smpp.Correctness.Priority
import Smpp.Correctness.Determinism
import Smpp.Correctness.TimeUnit
import Smpp.Tiling.Strips
import Smpp.Tiling.Growth
import Smpp.Correctness.Tiling
import Smpp.Correctness.TaskWidth
import Smpp.Correctness.Volume
import Smpp.Correctness.Players
import Smpp.Correctness.Throughput
import Smpp.Correctness.Competition
import Smpp.Correctness.LargestFirst
import Smpp.Correctness.Rows
import Smpp.Correctness.Options
import Smpp.Correctness.FlowTime
import Smpp.Correctness.Causality
import Smpp.Correctness.Precedence
import Smpp.Correctness.Clock
import Smpp.Correctness.RunRows
import Smpp.Correctness.Definedness
import Smpp.Correctness.Program
import Smpp.Correctness.ProgramWidth
import Smpp.Correctness.Report
import Smpp.Correctness.Output
import Smpp.Correctness.ReadBack
import Smpp.Correctness.FileName
import Smpp.Correctness.Balance
import Smpp.Correctness.Rounds
import Smpp.Correctness.SinglePlayer
import Smpp.Correctness.Delay
import Smpp.Correctness.ProblemSize
import Smpp.Correctness.RoundedRun
import Smpp.Correctness.Rounding
