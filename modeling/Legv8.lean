import Legv8.Clock.Script
import Legv8.Files
import Legv8.Isa.Encoding
import Legv8.Main
import Legv8.Proofs.Datapath
import Legv8.Proofs.Sequential.Step
import Legv8.Proofs.Sequential.Run
import Legv8.Proofs.Pipeline.View
import Legv8.Proofs.Pipeline.Reservations
import Legv8.Proofs.Pipeline.Pulse
import Legv8.Proofs.Pipeline.Histories
import Legv8.Proofs.Refinement.Tracking
import Legv8.Proofs.Refinement.Simulation
import Legv8.Proofs.Refinement.Occupants
import Legv8.Proofs.Refinement.Boundaries
import Legv8.Proofs.Refinement.Rejection
import Legv8.Proofs.Pipeline.Progress
import Legv8.Proofs.Pipeline.Stations
import Legv8.Proofs.Alu.Adder
import Legv8.Proofs.Pipeline.Alignment
import Legv8.Proofs.Refinement.Endings
import Legv8.Proofs.Refinement.DataFault
import Legv8.Proofs.Refinement.Halting
import Legv8.Proofs.Refinement.FetchFault
import Legv8.Proofs.Pipeline.Accounting
import Legv8.Proofs.Timing.Schedule
import Legv8.Proofs.Timing.ExecutedPath
import Legv8.Proofs.Timing.Cycles
import Legv8.Proofs.Memory.Programs
import Legv8.Proofs.Timing.Throughput
import Legv8.Proofs.Simulator.Loading
import Legv8.Proofs.Architecture.Conformance
import Legv8.Proofs.Alu.Subtraction
import Legv8.Proofs.Memory.Accesses
import Legv8.Proofs.Clock.Slicing
import Legv8.Proofs.Pipeline.BackPressure
import Legv8.Proofs.Clock.Contract
import Legv8.Proofs.Isa.Encoding
import Legv8.Proofs.Text.Numerals
import Legv8.Proofs.Isa.Assembly
import Legv8.Proofs.Memory.InstructionRead
import Legv8.Proofs.Program.Layout
import Legv8.Proofs.Program.Listing
import Legv8.Proofs.Config.Documents
