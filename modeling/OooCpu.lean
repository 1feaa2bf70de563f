import OooCpu.Arbitration
import OooCpu.Arithmetic
import OooCpu.Assembler
import OooCpu.AssemblerRuns
import OooCpu.Booking
import OooCpu.CommandLineRoundTrip
import OooCpu.Dataflow
import OooCpu.Disassembly
import OooCpu.Driver
import OooCpu.ElfLoading
import OooCpu.Fates
import OooCpu.Formats
import OooCpu.HexLoading
import OooCpu.InFlight
import OooCpu.JsonRoundTrip
import OooCpu.LoadImmediate
import OooCpu.MemoryRuns
import OooCpu.Moves
import OooCpu.Occupancy
import OooCpu.Patching
import OooCpu.PathHistory
import OooCpu.Ports
import OooCpu.Progress
import OooCpu.Recovery
import OooCpu.Refinement
import OooCpu.RegisterBounds
import OooCpu.ReturnStack
import OooCpu.RingQueues
import OooCpu.RobRuns
import OooCpu.SlotAccounting
import OooCpu.StoreForwarding
import OooCpu.TargetBuffer
import OooCpu.Throughput
import OooCpu.Timeline
import OooCpu.TraceRecords
import OooCpu.Tracing
import OooCpu.TraceDisassembly
import OooCpu.Training
