import MachFormal.InodePager.InodeCache
import MachFormal.InodePager.DeadReferences
import MachFormal.InodePager.PagerSpace
import MachFormal.InodePager.DefaultPager
import MachFormal.InodePager.PageMap
import MachFormal.InodePager.Pageout
import MachFormal.InodePager.Placement
import MachFormal.InodePager.Initialize
import MachFormal.InodePager.Balance
import MachFormal.Threads.Condition
import MachFormal.Threads.Coroutine
import MachFormal.Threads.Workers
import MachFormal.Threads.Lifetime
import MachFormal.Threads.ForkChild
import MachFormal.Threads.MallocSafety
import MachFormal.Threads.MallocAtomic
import MachFormal.Threads.Stack
import MachFormal.EnvMgr.Isolation
import MachFormal.EnvMgr.References
import MachFormal.EnvMgr.Names
import MachFormal.NetMemory.PortDeath
import MachFormal.NetMemory.Scheduler
import MachFormal.NetMemory.CrashDetection
import MachFormal.NetMemory.Validation
import MachFormal.Service.Checkin
import MachFormal.Sup.InStep
import MachFormal.Sup.NewFiles
import MachFormal.Rconsole.Session
import MachFormal.Nanny.Once
import MachFormal.Make.Updates
import MachFormal.Sup.Agreement
import MachFormal.Sup.SafeDeletion
import MachFormal.Sup.Answers
import MachFormal.Sup.StandsFor
import MachFormal.Sup.KeySchedule
import MachFormal.Library.Balanced
import MachFormal.Sup.NameTree
import MachFormal.Sup.Peek
import MachFormal.Sup.Buffers
import MachFormal.Sup.Lookup
import MachFormal.Sup.Readlist
import MachFormal.Sup.Commands
import MachFormal.Sup.Copyfile
import MachFormal.Sup.Anyglob
import MachFormal.Libcs.Path
import MachFormal.Sup.Establish
import MachFormal.Libcs.Abspath
import MachFormal.Sup.HostAccess
import MachFormal.Sup.Independence
import MachFormal.Libcs.Timemk
import MachFormal.Libcs.Daynumbers
import MachFormal.Nanny.Packing
import MachFormal.Nanny.Reload
import MachFormal.Library.Rings
import MachFormal.Sdm.Interning
import MachFormal.Library.Compare
import MachFormal.Md.Depend
import MachFormal.Sdm.Tables
import MachFormal.Sdm.Saved
import MachFormal.Library.Patterns
import MachFormal.Make.Unify
import MachFormal.Library.Words
import MachFormal.Make.Modifiers
import MachFormal.Make.Dirs
import MachFormal.Library.Lexical
import MachFormal.Make.Canon
import MachFormal.Make.Moved
import MachFormal.Rconsole.Relay
import MachFormal.Rconsole.Escape
import MachFormal.Make.InPlace
import MachFormal.NetMemory.Siblings
import MachFormal.Libcs.Expand
import MachFormal.Libcs.Wildcards
import MachFormal.Libcs.Globbing
import MachFormal.Library.ReadersWriters
import MachFormal.NetMemory.OneSize.Access
import MachFormal.NetMemory.OneSize.Fifo
import MachFormal.NetMemory.Coherence
