import Comptime.Wire
import Comptime.Convention
import Comptime.Ty.Name
import Comptime.Bytecode.Stream
import Comptime.Bytecode.Listing
import Comptime.Machine.Exec
import Comptime.Source
import Comptime.Text.Quoted
import Comptime.Lowering.Build
import Comptime.Schedule.Scheduler
import Comptime.Yaml.Node
import Comptime.Yaml.Print
import Comptime.Plan.Read
import Comptime.Plan.Run
import Comptime.Compile.Phases
import Comptime.Main
import Comptime.Proofs.Plan.Outcome
import Comptime.Proofs.Plan.Verdict
import Comptime.Proofs.Plan.Acyclic
import Comptime.Proofs.Runs
import Comptime.Proofs.Bytecode.Freezing
import Comptime.Proofs.Lowering.Registers
import Comptime.Proofs.Lowering.Procedure
import Comptime.Proofs.Lowering.Hoisting
import Comptime.Proofs.Lowering.WellFormed
import Comptime.Proofs.Compile.Compilations
import Comptime.Proofs.Schedule.Invocations
import Comptime.Proofs.Safety.Procedures
import Comptime.Proofs.Simulation.Dispatch
import Comptime.Proofs.Machine.Arithmetic
import Comptime.Proofs.Machine.Traps
import Comptime.Proofs.Machine.Accesses
import Comptime.Proofs.Bytecode.Positions
import Comptime.Proofs.Schedule.Addressing
import Comptime.Proofs.Bytecode.Listing
import Comptime.Proofs.Lowering.Allocation
