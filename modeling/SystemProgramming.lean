import SystemProgramming.Library.LinkedList
import SystemProgramming.MallocLab.Allocator
import SystemProgramming.MallocLab.Blocks
import SystemProgramming.MallocLab.HeapInvariant
import SystemProgramming.MallocLab.Coalesce
import SystemProgramming.MallocLab.Placement
import SystemProgramming.MallocLab.Requests
import SystemProgramming.Library.Transition
import SystemProgramming.MallocLab.Walks
import SystemProgramming.MallocLab.ClientRuns
import SystemProgramming.ProxyLab.Cache
import SystemProgramming.ProxyLab.CacheInvariant
import SystemProgramming.ProxyLab.CacheRuns
import SystemProgramming.ProxyLab.Response
import SystemProgramming.ProxyLab.Threads
import SystemProgramming.LinkLab.MemList
import SystemProgramming.LinkLab.MemTrace
import SystemProgramming.ShellLab.JobIds
import SystemProgramming.ShellLab.Shell
import SystemProgramming.ShellLab.Children
import SystemProgramming.ShellLab.Resume
import SystemProgramming.Library.Recency
import SystemProgramming.ProxyLab.Lru
import SystemProgramming.ProxyLab.Serving
import SystemProgramming.LinkLab.Report
import SystemProgramming.MallocLab.AllFreed
import SystemProgramming.MallocLab.Layout
import SystemProgramming.MallocLab.TwoRuns
import SystemProgramming.ProxyLab.ParseRequest
import SystemProgramming.ShellLab.Foreground
import SystemProgramming.ShellLab.Keyboard
import SystemProgramming.ShellLab.Reports
import SystemProgramming.LinkLab.InvalidFree
import SystemProgramming.LinkLab.Failures
import SystemProgramming.MallocLab.BlockLists
import SystemProgramming.MallocLab.Reallocation
import SystemProgramming.MallocLab.LargeSizes
import SystemProgramming.MallocLab.Wrapping
import SystemProgramming.MallocLab.BreakOverflow
import SystemProgramming.ProxyLab.Isolation
import SystemProgramming.ProxyLab.Resources
import SystemProgramming.MallocLab.Exhaustion
import SystemProgramming.Library.Segments
import SystemProgramming.ProxyLab.HeaderLines
import SystemProgramming.ProxyLab.LongResponses
import SystemProgramming.ProxyLab.RequestLine
import SystemProgramming.ProxyLab.ForwardedHeaders
import SystemProgramming.ShellLab.Parseline
import SystemProgramming.MallocLab.Checker
import SystemProgramming.LinkLab.ListRuns
import SystemProgramming.Library.Decimal
import SystemProgramming.ShellLab.CommandLine
import SystemProgramming.Library.Branches
import SystemProgramming.KernelLab.Ptree
import SystemProgramming.KernelLab.Paddr
import SystemProgramming.Library.Folds
import SystemProgramming.MallocLab.Driver
import SystemProgramming.MallocLab.DriverRuns
import SystemProgramming.MallocLab.Utilisation
import SystemProgramming.Library.Schedules
import SystemProgramming.ProxyLab.Rio
import SystemProgramming.ProxyLab.Relaying
import SystemProgramming.Homework.Counters
import SystemProgramming.Homework.LostUpdates
import SystemProgramming.Library.Scanning
import SystemProgramming.MallocLab.TraceFile
import SystemProgramming.ProxyLab.Tiny
import SystemProgramming.Library.Selection
import SystemProgramming.MallocLab.Sampling
import SystemProgramming.ProxyLab.Sockets
import SystemProgramming.ShellLab.ReadEval
import SystemProgramming.ShellLab.Sessions
import SystemProgramming.ProxyLab.EndToEnd
import SystemProgramming.MallocLab.Accounting
import SystemProgramming.Library.Printf
import SystemProgramming.LinkLab.LogText
import SystemProgramming.LinkLab.Transcript
