import MapReduce.Bytes
import MapReduce.Combine
import MapReduce.CommandLine.Coordinator
import MapReduce.CommandLine.Options
import MapReduce.CommandLine.Worker
import MapReduce.Copy
import MapReduce.Duration
import MapReduce.Fault
import MapReduce.FileReader
import MapReduce.FileTree
import MapReduce.IoError
import MapReduce.Job
import MapReduce.Job.Config
import MapReduce.Job.Error
import MapReduce.Job.Layout
import MapReduce.Job.Progress
import MapReduce.Job.Report
import MapReduce.LineDecoder
import MapReduce.LineReader
import MapReduce.Main
import MapReduce.Outcome
import MapReduce.OutputFiles
import MapReduce.Partition
import MapReduce.Path
import MapReduce.Pool
import MapReduce.Pool.Scripted
import MapReduce.Proofs.Aggregation
import MapReduce.Proofs.Arrival
import MapReduce.Proofs.Awaiting
import MapReduce.Proofs.Chunking
import MapReduce.Proofs.Command
import MapReduce.Proofs.CompleteGroups
import MapReduce.Proofs.Concatenation
import MapReduce.Proofs.Confined
import MapReduce.Proofs.Copy
import MapReduce.Proofs.CountSum
import MapReduce.Proofs.ExactlyOnce
import MapReduce.Proofs.FileTree
import MapReduce.Proofs.Frames
import MapReduce.Proofs.Grammar
import MapReduce.Proofs.Grouping
import MapReduce.Proofs.Handover
import MapReduce.Proofs.Indifference
import MapReduce.Proofs.Job.Accounts
import MapReduce.Proofs.Job.Calls
import MapReduce.Proofs.Job.Course
import MapReduce.Proofs.Job.Determined
import MapReduce.Proofs.Job.Failure
import MapReduce.Proofs.Job.InputKept
import MapReduce.Proofs.Job.Kept
import MapReduce.Proofs.Job.Leftovers
import MapReduce.Proofs.Job.Legible
import MapReduce.Proofs.Job.Refusals
import MapReduce.Proofs.Job.Setup
import MapReduce.Proofs.KeyGroups
import MapReduce.Proofs.Layout
import MapReduce.Proofs.Legible
import MapReduce.Proofs.LineDecoder
import MapReduce.Proofs.LineReader
import MapReduce.Proofs.Link
import MapReduce.Proofs.LiveWorker
import MapReduce.Proofs.MapTask
import MapReduce.Proofs.Number
import MapReduce.Proofs.OpenGroup
import MapReduce.Proofs.OutputFiles
import MapReduce.Proofs.Overflow
import MapReduce.Proofs.Pool.Closing
import MapReduce.Proofs.Pool.Crew
import MapReduce.Proofs.Pool.Errands
import MapReduce.Proofs.Pool.FailedStart
import MapReduce.Proofs.Pool.Idle
import MapReduce.Proofs.Pool.Live
import MapReduce.Proofs.Pool.Lockstep
import MapReduce.Proofs.Pool.Watched
import MapReduce.Proofs.Pool.Workshop
import MapReduce.Proofs.Record
import MapReduce.Proofs.RecordStream
import MapReduce.Proofs.ReduceLog
import MapReduce.Proofs.ReduceTask
import MapReduce.Proofs.Rewriting
import MapReduce.Proofs.RoundRobin
import MapReduce.Proofs.Routing
import MapReduce.Proofs.Sendable
import MapReduce.Proofs.Serving
import MapReduce.Proofs.Session
import MapReduce.Proofs.Shard
import MapReduce.Proofs.Shares
import MapReduce.Proofs.Shuffle
import MapReduce.Proofs.Sink
import MapReduce.Proofs.Sorter
import MapReduce.Proofs.Split
import MapReduce.Proofs.StatusLine
import MapReduce.Proofs.Tally
import MapReduce.Proofs.Tap
import MapReduce.Proofs.TaskOrder
import MapReduce.Proofs.TaskSequence
import MapReduce.Proofs.Tokens
import MapReduce.Proofs.Transport
import MapReduce.Proofs.Utf8
import MapReduce.Proofs.Variant
import MapReduce.Proofs.VertexDegree
import MapReduce.Proofs.VertexDegreeJob
import MapReduce.Proofs.WholeRecords
import MapReduce.Proofs.Wire
import MapReduce.Proofs.WordCount
import MapReduce.Proofs.WordCountJob
import MapReduce.Proofs.Words
import MapReduce.Record
import MapReduce.Session
import MapReduce.Shard
import MapReduce.Shuffle
import MapReduce.Sink
import MapReduce.Sorter
import MapReduce.Split
import MapReduce.Status
import MapReduce.Task
import MapReduce.TaskRun
import MapReduce.TaskRun.Error
import MapReduce.TaskRun.Map
import MapReduce.TaskRun.Reduce
import MapReduce.Text.Blank
import MapReduce.Text.Hidden
import MapReduce.Text.Number
import MapReduce.Text.Quoted
import MapReduce.Text.Utf8
import MapReduce.Worker
import MapReduce.Worker.ChildScript
import MapReduce.Worker.Error
import MapReduce.Worker.ExitStatus
import MapReduce.Worker.Launch
import MapReduce.Worker.LiveChild
import MapReduce.Worker.Process
import MapReduce.Workload
import MapReduce.Workload.Catalog
import MapReduce.Workload.Echo
import MapReduce.Workload.VertexDegree
import MapReduce.Workload.WordCount
