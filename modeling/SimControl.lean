import SimControl.Text.Blank
import SimControl.Text.Case
import SimControl.Text.Lines
import SimControl.Text.Numeral
import SimControl.Text.Quoted
import SimControl.Address
import SimControl.Switches
import SimControl.Config
import SimControl.Command.Token
import SimControl.Break.Kind
import SimControl.Fault
import SimControl.Command.Target
import SimControl.Command.Basic
import SimControl.Command.Parse
import SimControl.Bench.Program
import SimControl.Action
import SimControl.Queue.Keyed
import SimControl.Queue.Fifo
import SimControl.Stop
import SimControl.Event.Scheduler
import SimControl.Event.Script
import SimControl.Break.Table
import SimControl.Expect
import SimControl.Send
import SimControl.Context
import SimControl.Bench.Machine
import SimControl.Host
import SimControl.Volume
import SimControl.Session
import SimControl.Main
import SimControl.Proofs.ExpectWindow
import SimControl.Proofs.ExpectBounds
import SimControl.Proofs.QuotedRoundTrip
import SimControl.Proofs.QuotedToken
import SimControl.Proofs.SendStream
import SimControl.Proofs.KeyedQueue
import SimControl.Proofs.SchedulerCalls
import SimControl.Proofs.SchedulerTimeline
import SimControl.Proofs.SchedulerClock
import SimControl.Proofs.BreakTableShape
import SimControl.Proofs.BreakDebounce
import SimControl.Proofs.BreakSummary
import SimControl.Proofs.RefusedCommand
import SimControl.Proofs.BreakRerun
import SimControl.Proofs.SendPacing
import SimControl.Proofs.KeyedQueueMap
import SimControl.Proofs.PlantedTypes
import SimControl.Proofs.PlantedRecords
import SimControl.Proofs.PlantedSweep
import SimControl.Proofs.GoUntilShadow
import SimControl.Proofs.ExpectDefine
import SimControl.Proofs.ExpectFiring
import SimControl.Proofs.BreakCount
import SimControl.Proofs.InstructionEffect
import SimControl.Proofs.TargetRanges
import SimControl.Proofs.StepCount
import SimControl.Proofs.StepOver
import SimControl.Proofs.QueueReport
import SimControl.Proofs.RuleCommand
import SimControl.Proofs.ConsolePacing
import SimControl.Proofs.ActionSplit
import SimControl.Proofs.MicrosecondDelay
import SimControl.Proofs.AddressText
import SimControl.Proofs.BreakClear
import SimControl.Proofs.LexemeTiling
import SimControl.Proofs.LineText
import SimControl.Queue.Reverse
import SimControl.Proofs.ReverseQueue
import SimControl.Proofs.MachineRun
import SimControl.Proofs.LongestMatch
