import I8086.Command.FileSystem
import I8086.Main
import I8086.Proofs.Memory
import I8086.Proofs.Register
import I8086.Proofs.Register.Report
import I8086.Proofs.Encoding.Fields
import I8086.Proofs.Encoding.Code
import I8086.Proofs.Encoding.Table
import I8086.Proofs.Encoding.Decode
import I8086.Proofs.Encoding.Fetch
import I8086.Proofs.Program.Walk
import I8086.Proofs.Program.Listing
import I8086.Proofs.Text.Line
import I8086.Proofs.Text.Sink
import I8086.Proofs.Text.Instruction
import I8086.Proofs.Text.Change
import I8086.Proofs.Machine.Execute
import I8086.Proofs.Machine.Frame
import I8086.Proofs.Machine.Status
import I8086.Proofs.Machine.Confined
import I8086.Proofs.Machine.Refusal
import I8086.Proofs.Machine.WellFormed
import I8086.Proofs.Machine.Cell
import I8086.Proofs.Simulator.Step
import I8086.Proofs.Simulator.Trace
import I8086.Proofs.Simulator.Run
import I8086.Proofs.Simulator.Records
import I8086.Proofs.Simulator.Jump
import I8086.Proofs.Simulator.Loop
import I8086.Proofs.Simulator.Listing
import I8086.Proofs.Simulator.Trail
import I8086.Proofs.Simulator.Transfer
