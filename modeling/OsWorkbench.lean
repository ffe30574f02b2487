import OsWorkbench.Library.ByteStore
import OsWorkbench.Library.Regions
import OsWorkbench.Library.WriteTrace
import OsWorkbench.Kvdb.Source
import OsWorkbench.Kvdb.Blocks
import OsWorkbench.Kvdb.Alloc
import OsWorkbench.Kvdb.AllocRun
import OsWorkbench.Kvdb.AllocStr
import OsWorkbench.Kvdb.Layout
import OsWorkbench.Kvdb.Reader
import OsWorkbench.Kvdb.Backup
import OsWorkbench.Kvdb.Frames
import OsWorkbench.Kvdb.Commit
import OsWorkbench.Kvdb.Visible
import OsWorkbench.Kvdb.Put
import OsWorkbench.Kvdb.Runs
import OsWorkbench.Kvdb.Contents
import OsWorkbench.Kvdb.Atomic
import OsWorkbench.Kvdb.Wrap
import OsWorkbench.Library.Runs
import OsWorkbench.Kvdb.Locks
import OsWorkbench.Kvdb.Isolation
import OsWorkbench.Kvdb.Cut
import OsWorkbench.Kvdb.Torn
import OsWorkbench.Kvdb.Recovery
import OsWorkbench.Kvdb.Crash
import OsWorkbench.Kvdb.Restart
import OsWorkbench.Kvdb.Fuel
import OsWorkbench.Kvdb.Repair
import OsWorkbench.Kvdb.Open
import OsWorkbench.Kvdb.Opening
import OsWorkbench.Library.Ring
import OsWorkbench.Kernel.Semaphore
import OsWorkbench.Kernel.Pipe
import OsWorkbench.Kernel.PipeFifo
import OsWorkbench.Library.Exclusion
import OsWorkbench.Kernel.Pool
import OsWorkbench.Kernel.Tasks
import OsWorkbench.Kernel.TaskLife
import OsWorkbench.Kernel.TaskSteps
import OsWorkbench.Kernel.Scheduler
import OsWorkbench.Kernel.Reclaim
import OsWorkbench.Kernel.Spinlock
import OsWorkbench.Kernel.SpinPlaces
import OsWorkbench.Kernel.SpinSteps
import OsWorkbench.Kernel.SpinSafe
import OsWorkbench.Shell.Parse
import OsWorkbench.Shell.Print
import OsWorkbench.Shell.RoundTrip
import OsWorkbench.Shell.Grammar
import OsWorkbench.Shell.Classes
import OsWorkbench.Shell.Undo
import OsWorkbench.Library.References
import OsWorkbench.Kernel.Descriptors
import OsWorkbench.Kernel.RefCounts
import OsWorkbench.Kernel.Pipeline
import OsWorkbench.Kernel.PipeEnds
import OsWorkbench.Kernel.EndOfFile
import OsWorkbench.Kernel.Tty
import OsWorkbench.Kernel.LineDiscipline
import OsWorkbench.Kvdb.Parking
import OsWorkbench.Libco.Waiting
import OsWorkbench.Kvdb.Space
import OsWorkbench.Kvdb.Restartable
import OsWorkbench.Library.LinkedList
import OsWorkbench.Kernel.Heap
import OsWorkbench.Kernel.HeapBlocks
import OsWorkbench.Kernel.HeapSteps
import OsWorkbench.Kernel.HeapAlloc
import OsWorkbench.Kernel.HeapFree
import OsWorkbench.Kernel.HeapSafe
import OsWorkbench.Kernel.HeapLimits
import OsWorkbench.Kernel.Coalescing
import OsWorkbench.Blkfs.Blocks
import OsWorkbench.Blkfs.Chain
import OsWorkbench.Blkfs.Writing
import OsWorkbench.Blkfs.RoundTrip
import OsWorkbench.Blkfs.RunningOut
import OsWorkbench.Blkfs.Files
import OsWorkbench.Kernel.Screen
import OsWorkbench.Kernel.ScreenRefines
import OsWorkbench.Kernel.LineLengths
import OsWorkbench.Shell.Slices
import OsWorkbench.Shell.Accepted
import OsWorkbench.Kernel.Dir
import OsWorkbench.Kernel.DirNormal
import OsWorkbench.Kernel.WorkingDirectory
import OsWorkbench.Shell.Run
import OsWorkbench.Shell.Simple
import OsWorkbench.Shell.Redirected
import OsWorkbench.Shell.WordCount
import OsWorkbench.Blkfs.Directories
import OsWorkbench.Blkfs.CreateFind
import OsWorkbench.Blkfs.BlankDisk
import OsWorkbench.Blkfs.Owners
import OsWorkbench.Blkfs.Tables
import OsWorkbench.Blkfs.Creating
import OsWorkbench.Blkfs.Preserving
import OsWorkbench.Blkfs.InodeTable
import OsWorkbench.Blkfs.Names
import OsWorkbench.Blkfs.Entries
import OsWorkbench.Blkfs.FileRuns
import OsWorkbench.Blkfs.Linking
import OsWorkbench.Blkfs.Listing
import OsWorkbench.Blkfs.DirectorySizes
import OsWorkbench.Library.Walks
import OsWorkbench.Blkfs.Paths
import OsWorkbench.Blkfs.Removing
import OsWorkbench.Klib.Memory
import OsWorkbench.Kernel.Ramdisk
import OsWorkbench.Kernel.Pids
import OsWorkbench.Kernel.BoundedQueue
import OsWorkbench.Library.SortedInsert
import OsWorkbench.Kernel.TrapOrder
import OsWorkbench.Pstree.Siblings
import OsWorkbench.Klib.Printf
import OsWorkbench.Klib.FormatText
import OsWorkbench.Klib.Numerals
import OsWorkbench.Klib.Truncation
import OsWorkbench.Kernel.ProcRead
import OsWorkbench.Kernel.ProcFind
import OsWorkbench.Klib.Compare
import OsWorkbench.Sperf.Sort
import OsWorkbench.Amgame.Puzzle
import OsWorkbench.Amgame.Hints
import OsWorkbench.Frecov.LongNames
import OsWorkbench.Library.Backups
import OsWorkbench.Kernel.Mounts
import OsWorkbench.Library.Climbing
import OsWorkbench.Kernel.InodeFind
import OsWorkbench.Kernel.PathSteps
import OsWorkbench.Kernel.Hierarchy
import OsWorkbench.Blkfs.Initrd
import OsWorkbench.Blkfs.Ownership
import OsWorkbench.Blkfs.OwnershipRuns
import OsWorkbench.Kernel.ChangeDirectory
import OsWorkbench.Kernel.Keyboard
import OsWorkbench.Kernel.InputQueue
import OsWorkbench.Kernel.Console
import OsWorkbench.Kernel.Framebuffer
import OsWorkbench.Kernel.Rendering
import OsWorkbench.Pstree.Drawing
import OsWorkbench.Am.PageTables
import OsWorkbench.Am.AddressSpaces
import OsWorkbench.Am.Isolation
import OsWorkbench.Library.Stacks
import OsWorkbench.Am.Traps
import OsWorkbench.Am.Startup
import OsWorkbench.Am.StartOrder
import OsWorkbench.Am.StartProgress
import OsWorkbench.Kernel.Processors
import OsWorkbench.Kernel.ProcessorRuns
