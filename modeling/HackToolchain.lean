import HackToolchain.Files.FileSystem
import HackToolchain.Machine.Cpu
import HackToolchain.Main
import HackToolchain.Proofs.Codegen.CallingConvention
import HackToolchain.Proofs.Codegen.Simulation
import HackToolchain.Proofs.Codegen.Labels
import HackToolchain.Proofs.Codegen.Uniqueness
import HackToolchain.Proofs.Assembly.Capacity
import HackToolchain.Proofs.Codegen.Acceptance
import HackToolchain.Proofs.Codegen.Scoping
import HackToolchain.Proofs.Codegen.Namespaces
import HackToolchain.Proofs.Assembly.Expressions
import HackToolchain.Proofs.Assembly.RoundTrip
import HackToolchain.Proofs.Codegen.StaticCells
import HackToolchain.Proofs.Codegen.Transcript
import HackToolchain.Proofs.Vm.Grammar
import HackToolchain.Proofs.Codegen.Joining
import HackToolchain.Proofs.Codegen.Annotations
import HackToolchain.Proofs.Vm.Printing
import HackToolchain.Proofs.Codegen.StackBase
import HackToolchain.Proofs.Files.Places
import HackToolchain.Proofs.Files.Extensions
import HackToolchain.Proofs.Build.Planning
import HackToolchain.Proofs.Build.Naming
import HackToolchain.Proofs.Build.Sessions
import HackToolchain.Proofs.Build.Outcome
import HackToolchain.Proofs.CommandLine.Assembling
import HackToolchain.Proofs.Codegen.Comparisons
import HackToolchain.Proofs.Assembly.Joining
import HackToolchain.Proofs.Assembly.Spelling
import HackToolchain.Proofs.Assembly.Grammar
import HackToolchain.Proofs.Assembly.Boundaries
import HackToolchain.Proofs.Assembly.Bounds
import HackToolchain.Proofs.Assembly.Variables
import HackToolchain.Proofs.Vm.Recovery
import HackToolchain.Proofs.Vm.RoundTrip
import HackToolchain.Proofs.Codegen.FirstFailure
import HackToolchain.Proofs.Build.Ordering
import HackToolchain.Proofs.Codegen.Refusals
import HackToolchain.Proofs.Vm.Separators
import HackToolchain.Proofs.Vm.LexicalErrors
