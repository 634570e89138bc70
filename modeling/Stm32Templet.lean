import Stm32Templet.Lib.Atomic
import Stm32Templet.Lib.Runs
import Stm32Templet.Usart.Accounting
import Stm32Templet.Usart.Preempted
import Stm32Templet.Usart.Receive
import Stm32Templet.Tasks.Tick
import Stm32Templet.At.Bounds
import Stm32Templet.Lib.Memory
import Stm32Templet.Lib.Places
import Stm32Templet.Os.Mem
import Stm32Templet.Os.Queue
import Stm32Templet.Sys.Capacity
import Stm32Templet.Sys.Echo
import Stm32Templet.At.Results
import Stm32Templet.At.Debug
import Stm32Templet.Usart.WakeUp
import Stm32Templet.Usart.Rings
import Stm32Templet.Usart.Overrun
import Stm32Templet.Tool.BubbleSort
import Stm32Templet.Input.Keys
import Stm32Templet.Delay.DelayUs
import Stm32Templet.Tool.Hex
import Stm32Templet.Lib.Printf
import Stm32Templet.Os.Query
import Stm32Templet.Sys.Blocks
import Stm32Templet.Sys.MsgTest
import Stm32Templet.Core.Progress
import Stm32Templet.Core.Delivery
