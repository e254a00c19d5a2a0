import ChibiOS.Kernel.TimedWaits
import ChibiOS.Kernel.MailboxDeque
import ChibiOS.Kernel.IoQueueWakeups
import ChibiOS.Kernel.CondVars
import ChibiOS.Kernel.EventFlags
import ChibiOS.Kernel.WakeupEquivalence
import ChibiOS.Kernel.Priorities
import ChibiOS.Kernel.BulkUnlock
import ChibiOS.Usb.Fifo
import ChibiOS.Usb.ControlIn
import ChibiOS.Mac.Receive
import ChibiOS.Kernel.RegistryWalk
import ChibiOS.Kernel.Overtaking
import ChibiOS.Kernel.Messages
import ChibiOS.Kernel.ReadyRing
import ChibiOS.Kernel.Sleeps
import ChibiOS.Various.EvTimer
import ChibiOS.Kernel.HeapRequests
import ChibiOS.Mac.Waits
import ChibiOS.Usb.LinearReceive
import ChibiOS.Mmc.Crc
import ChibiOS.Mmc.Capacity
import ChibiOS.Sdc.Driver
import ChibiOS.Usb.Restart
import ChibiOS.Usb.BulkIn
import ChibiOS.Mmc.Bus
import ChibiOS.Rdline.TwoLists
import ChibiOS.Tinyjs.Rdline
import ChibiOS.Shell.Thread
import ChibiOS.Posix.ChStream
import ChibiOS.Posix.FailedOpen
import ChibiOS.Posix.Mounts
import ChibiOS.Posix.Resolve
import ChibiOS.Various.ChprintfFields
import ChibiOS.Various.Shell
import ChibiOS.Kernel.ThreadQueues
import ChibiOS.Various.ChprintfFormat
