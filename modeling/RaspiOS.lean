import RaspiOS.Authority
import RaspiOS.Blocks
import RaspiOS.Calls
import RaspiOS.Coherence
import RaspiOS.Collateral
import RaspiOS.Dispatch
import RaspiOS.EnvList
import RaspiOS.Fairness
import RaspiOS.Family
import RaspiOS.Finish
import RaspiOS.Forgery
import RaspiOS.ForkCost
import RaspiOS.ForkTest
import RaspiOS.FrameReuse
import RaspiOS.Halts
import RaspiOS.HelpFunct
import RaspiOS.Ipc
import RaspiOS.Isolation
import RaspiOS.KernelHalf
import RaspiOS.Lifetime
import RaspiOS.Overrun
import RaspiOS.PageApi
import RaspiOS.Panics
import RaspiOS.PointUpdate
import RaspiOS.Queue
import RaspiOS.Receiving
import RaspiOS.Running
import RaspiOS.SchedList
import RaspiOS.Segment
import RaspiOS.Sharing
import RaspiOS.Signed
import RaspiOS.Start
import RaspiOS.Stray
import RaspiOS.Transfer
import RaspiOS.Trap
import RaspiOS.Turns
import RaspiOS.Undo
import RaspiOS.Unsigned
