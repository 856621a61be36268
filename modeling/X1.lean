import X1.Condvar.Contract
import X1.Cpu.Contract
import X1.Create.Contract
import X1.Fmt.Contract
import X1.I8259.Dispatch
import X1.Kernel.Contract
import X1.Lib.CbufQueue
import X1.Mem.Asserts
import X1.Mem.FirstFit
import X1.Mem.Layout
import X1.Mutex.Contract
import X1.Mutex.Init
import X1.Sched.Join
import X1.Shell.Contract
import X1.Stopwatch.Exact
import X1.String.Compare
import X1.Timer.Contract
import X1.Timer.Process
import X1.Uart.Contract
