import ZephyrRiscv.Transition
import ZephyrRiscv.RadixForest
import ZephyrRiscv.MmuTables
import ZephyrRiscv.MmuShape
import ZephyrRiscv.MmuCalls
import ZephyrRiscv.MmuSafety
import ZephyrRiscv.MmuRefinement
import ZephyrRiscv.TrapHandlers
import ZephyrRiscv.TrapVectors
import ZephyrRiscv.EcallReflection
import ZephyrRiscv.Interrupts
import ZephyrRiscv.Timer
import ZephyrRiscv.Ipi
import ZephyrRiscv.Mailbox
import ZephyrRiscv.Boot
import ZephyrRiscv.Interleaving
import ZephyrRiscv.P4Harts
import ZephyrRiscv.Spinlock
import ZephyrRiscv.PingPong
import ZephyrRiscv.P4Phases
import ZephyrRiscv.FaultRepair
import ZephyrRiscv.FixAndRetry
import ZephyrRiscv.KernelViews
import ZephyrRiscv.MapperSimulation
import ZephyrRiscv.FaultResolver
import ZephyrRiscv.TableBudget
import ZephyrRiscv.InterruptedPrograms
import ZephyrRiscv.BootMap
import ZephyrRiscv.CompareAndSwap
import ZephyrRiscv.Decimal
import ZephyrRiscv.PoolSafety
import ZephyrRiscv.RawLookup
import ZephyrRiscv.StaleCache
import ZephyrRiscv.SuiteMapper
import ZephyrRiscv.Tlb
import ZephyrRiscv.TrapCounters
import ZephyrRiscv.UartDecimal
import ZephyrRiscv.WalkerAgreement
import ZephyrRiscv.HtifDelivery
import ZephyrRiscv.P4Verdict
import ZephyrRiscv.LiveTranslations
import ZephyrRiscv.P2Progress
