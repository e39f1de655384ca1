import OsSim.Mem.Areas
import OsSim.Mem.Format
import OsSim.Mem.Life
import OsSim.Mem.NodeRuns
import OsSim.Mem.Page
import OsSim.Mem.PageCopy
import OsSim.Mem.PageList
import OsSim.Mem.Release
import OsSim.Mem.Replacement
import OsSim.Mem.Sequential
import OsSim.Mem.Sharing
import OsSim.Mem.Stale
import OsSim.Mem.Stores
import OsSim.Mem.UserCall
import OsSim.Os.Arrays
import OsSim.Os.Deadlock
import OsSim.Os.Ending
import OsSim.Os.Filter
import OsSim.Os.Finish
import OsSim.Os.Name
import OsSim.Os.Paged
import OsSim.Os.ReadConfig
import OsSim.Os.Released
import OsSim.Os.Response
import OsSim.Os.RunningList
import OsSim.Os.Wakeup
import OsSim.Sched.Quota
import OsSim.Sched.Sections
import OsSim.Sched.Stable
import OsSim.Sched.Usage
import OsSim.Sched.Waiting
