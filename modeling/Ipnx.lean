import Ipnx.Proc.Zombies
import Ipnx.Proc.Alarms
import Ipnx.Proc.Rendezvous
import Ipnx.Proc.Sema
import Ipnx.Fd.LastClose
import Ipnx.Machine.Handover
import Ipnx.Name.Refs
import Ipnx.Name.Batch
import Ipnx.Name.Confine
import Ipnx.Auth.Identity
import Ipnx.Mnt.Agreed
import Ipnx.Host.Volume
import Ipnx.Pipe.Runs
import Ipnx.Machine.Stacks
import Ipnx.Host.Commands
import Ipnx.Host.Harvest
import Ipnx.Fd.Offsets
import Ipnx.Host.Emca.Reading
import Ipnx.Host.Trapped
import Ipnx.Machine.Exclusive
import Ipnx.Mnt.Dirread
import Ipnx.Dev.Cons
import Ipnx.Dev.Srv
import Ipnx.Dev.Virtio9p
import Ipnx.Dev.Kbd
import Ipnx.Fd.Reread
import Ipnx.Host.Access
import Ipnx.Host.Sized
import Ipnx.Proc.Pending
import Ipnx.Fd.Atomic
import Ipnx.Wasi.Names
import Ipnx.Host.Quoting
import Ipnx.Name.Cleaned
import Ipnx.Machine.Argument
import Ipnx.Machine.Pointers
import Ipnx.Host.Module
import Ipnx.Host.Emca.Filtered
import Ipnx.Host.Emca.Planned
import Ipnx.Host.Emca.Waits
import Ipnx.Host.Emca.Pieces
import Ipnx.Dev.Numbers
import Ipnx.Proc.Interrupt
import Ipnx.Name.Shown
import Ipnx.Proc.Choice
import Ipnx.Mnt.Framing
import Ipnx.Name.Copied
import Ipnx.Host.Mounted
import Ipnx.Dev.Variables
