import Uki.List.Program
import Uki.List.Cut
import Uki.Jiffies.Clock
import Uki.Timer.OnTime
import Uki.Timer.Terminate
import Uki.Timer.Modify
import Uki.Timer.Fifo
import Uki.Timer.Lock
import Uki.Hlist.Program
import Uki.Hlist.Traverse
import Uki.Hlist.Fake
import Uki.Math.Div64
import Uki.Math.LongDiv
import Uki.Math.FieldOrder
import Uki.Math.PowerOfTwo
import Uki.Math.Rotate
import Uki.Jiffies.Mktime
import Uki.Jiffies.Nsec
import Uki.Jiffies.AddSafe
import Uki.Jiffies.AddNs
import Uki.Jiffies.Usecs
import Uki.Timer.Round
import Uki.Timer.Objects
import Uki.Timer.Loops
import Uki.Timer.Periodic
import Uki.Timer.Preempt
import Uki.Math.MaskBits
import Uki.List.Stack
import Uki.Kernel
import Uki.Jiffies.Compare
import Uki.Jiffies.Msecs
import Uki.Jiffies.Narrow
import Uki.Math.SignedDiv
import Uki.Math.BitField
import Uki.Timer.Batch
