import UnixCShell.Execute.Answers
import UnixCShell.Execute.Basic
import UnixCShell.Execute.Bounds
import UnixCShell.Execute.Decomposition
import UnixCShell.Execute.Inputs
import UnixCShell.Execute.Isolation
import UnixCShell.Execute.Outputs
import UnixCShell.Execute.Ranges
import UnixCShell.Execute.Restore
import UnixCShell.Execute.Sequence
import UnixCShell.Execute.Stores
import UnixCShell.Execute.Stripping
import UnixCShell.Hop.Frecency
import UnixCShell.Hop.History
import UnixCShell.Hop.Lookup
import UnixCShell.Hop.Run
import UnixCShell.Hop.Sequence
import UnixCShell.Jobs.Basic
import UnixCShell.Jobs.Delivery
import UnixCShell.Jobs.Ping
import UnixCShell.Jobs.Queue
import UnixCShell.Jobs.Resume
import UnixCShell.Lexer.Basic
import UnixCShell.Lexer.Buffer
import UnixCShell.Lexer.Grammar
import UnixCShell.Lexer.Indices
import UnixCShell.Lexer.Laws
import UnixCShell.Lexer.Verified
import UnixCShell.Lib.Access
import UnixCShell.Lib.Decimal
import UnixCShell.Lib.Doubles
import UnixCShell.Lib.ExchangeSort
import UnixCShell.Lib.Fifo
import UnixCShell.Lib.Files
import UnixCShell.Lib.FirstMax
import UnixCShell.Lib.Firsts
import UnixCShell.Lib.Forest
import UnixCShell.Lib.Lines
import UnixCShell.Lib.Locks
import UnixCShell.Lib.Monitor
import UnixCShell.Lib.Paths
import UnixCShell.Lib.Replay
import UnixCShell.Lib.Ring
import UnixCShell.Lib.Runs
import UnixCShell.Lib.Scan
import UnixCShell.Lib.ShiftQueue
import UnixCShell.Lib.Sleepers
import UnixCShell.Lib.Slots
import UnixCShell.Lib.Stdio
import UnixCShell.Lib.Stores
import UnixCShell.Lib.Totals
import UnixCShell.Parser.Basic
import UnixCShell.Parser.Syntax
import UnixCShell.Peek.Basic
import UnixCShell.Peek.Blocks
import UnixCShell.Peek.Numbering
import UnixCShell.Peek.Run
import UnixCShell.Peek.Verified
import UnixCShell.Pipeline.Basic
import UnixCShell.Pipeline.Groups
import UnixCShell.Pipeline.Handover
import UnixCShell.Pipeline.Wiring
import UnixCShell.Redirection.Basic
import UnixCShell.Redirection.FanOut
import UnixCShell.Redirection.Verified
import UnixCShell.Reveal.Basic
import UnixCShell.Reveal.Command
import UnixCShell.Reveal.Runs
import UnixCShell.Reveal.Traversal
import UnixCShell.Session.Activities
import UnixCShell.Session.Basic
import UnixCShell.Session.Books
import UnixCShell.Session.Capacity
import UnixCShell.Session.Foreground
import UnixCShell.Session.Invariant
import UnixCShell.Session.Ledger
import UnixCShell.Session.Live
import UnixCShell.Session.MainLoop
import UnixCShell.Session.Messages
import UnixCShell.Session.Notifications
import UnixCShell.Session.PidReuse
import UnixCShell.Session.Relocation
import UnixCShell.Session.Resumed
import UnixCShell.Session.Stdout
import UnixCShell.Shell.Descriptors
import UnixCShell.Shell.Process
import UnixCShell.Shell.Prompt
import UnixCShell.Shell.World
import UnixCShell.Snoop.Basic
import UnixCShell.Snoop.Summary
import UnixCShell.Spy.Basic
import UnixCShell.Spy.Rows
import UnixCShell.Xv6.Accounting
import UnixCShell.Xv6.Boost
import UnixCShell.Xv6.Harts
import UnixCShell.Xv6.Interleaved
import UnixCShell.Xv6.Killed
import UnixCShell.Xv6.Log.Basic
import UnixCShell.Xv6.Log.Crash
import UnixCShell.Xv6.Log.Disk
import UnixCShell.Xv6.Log.Space
import UnixCShell.Xv6.Mlfq
import UnixCShell.Xv6.Passes
import UnixCShell.Xv6.Pipe
import UnixCShell.Xv6.Proc
import UnixCShell.Xv6.Sleep
import UnixCShell.Xv6.Sleeplock
import UnixCShell.Xv6.Stamps
import UnixCShell.Xv6.Timer
