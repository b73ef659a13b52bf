import DexLift.Main
import DexLift.Proofs.Convert.Accounting
import DexLift.Proofs.Dalvik.Safety
import DexLift.Proofs.Dex.DebugInfo
import DexLift.Proofs.Dex.EncodedValues
import DexLift.Proofs.Emit.Increments
import DexLift.Proofs.Emit.Receiver
import DexLift.Proofs.Files.Dumps
import DexLift.Proofs.Graph.Identifiers
import DexLift.Proofs.Ir.Blocks
import DexLift.Proofs.Ir.Edits
import DexLift.Proofs.Jvm.Counts
import DexLift.Proofs.Jvm.DescriptorSlots
import DexLift.Proofs.Jvm.ReadingSafety
import DexLift.Proofs.Jvm.Switching
import DexLift.Proofs.Lower.Assignment
import DexLift.Proofs.Lower.Pairing
import DexLift.Proofs.Lower.Targets
import DexLift.Proofs.Resolve.Circles
import DexLift.Proofs.Resolve.JoinTypes
import DexLift.Proofs.Resolve.Semilattice
import DexLift.Proofs.Resolve.Traps
import DexLift.Proofs.Simplify.Construction
import DexLift.Proofs.Simplify.Idempotence
import DexLift.Proofs.Simplify.NullSafety
import DexLift.Proofs.Simplify.Refilling
