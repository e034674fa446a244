import Wheelwork.ArgQueue
import Wheelwork.Arithmetic
import Wheelwork.CommandLine
import Wheelwork.Decimal.Nearest
import Wheelwork.Decimal.Numeral
import Wheelwork.Decimal.Shortest
import Wheelwork.Diagnostic
import Wheelwork.Fault
import Wheelwork.Frames
import Wheelwork.FunctionTable
import Wheelwork.Json.Basic
import Wheelwork.Json.Printer
import Wheelwork.Json.Reader
import Wheelwork.Load
import Wheelwork.Machine.Basic
import Wheelwork.Machine.Host
import Wheelwork.Machine.Session
import Wheelwork.Machine.Turn
import Wheelwork.Main
import Wheelwork.Opcode
import Wheelwork.Playground
import Wheelwork.Problem
import Wheelwork.Program.Assembly
import Wheelwork.Program.Basic
import Wheelwork.Program.Decode
import Wheelwork.Proofs.Atomicity
import Wheelwork.Proofs.Bracketing
import Wheelwork.Proofs.Budget
import Wheelwork.Proofs.Conservation
import Wheelwork.Proofs.Hosts
import Wheelwork.Proofs.Joining
import Wheelwork.Proofs.Lines
import Wheelwork.Proofs.Listing
import Wheelwork.Proofs.Queue
import Wheelwork.Proofs.Reading
import Wheelwork.Proofs.Scanning
import Wheelwork.Proofs.Steps
import Wheelwork.Proofs.WellFormed
import Wheelwork.Report
import Wheelwork.Ring.Basic
import Wheelwork.Ring.Drawing
import Wheelwork.Sha256
import Wheelwork.Source
import Wheelwork.Text.Blank
import Wheelwork.Text.Integer
import Wheelwork.Token.Basic
import Wheelwork.Token.Lexer
import Wheelwork.Value
import Wheelwork.Wheel
import Wheelwork.Proofs.Unread
import Wheelwork.Proofs.Spelling
import Wheelwork.Proofs.Cuts
import Wheelwork.Proofs.Partition
import Wheelwork.Proofs.Rounding
import Wheelwork.Proofs.FloatBits
import Wheelwork.Proofs.Numerals
import Wheelwork.Proofs.Scaling
import Wheelwork.Proofs.JsonText
import Wheelwork.Proofs.ProgramJson
import Wheelwork.Proofs.Relisting
import Wheelwork.Proofs.PrintedForms
import Wheelwork.Proofs.JsonVariants
import Wheelwork.Proofs.Provenance
import Wheelwork.Proofs.Transparency
import Wheelwork.Proofs.Reports
import Wheelwork.Proofs.Refusals
import Wheelwork.Proofs.Recovery
import Wheelwork.Proofs.Precedence
import Wheelwork.Proofs.Exactness
import Wheelwork.Proofs.Definitions
import Wheelwork.Proofs.Truncation
import Wheelwork.Proofs.Layout
import Wheelwork.Proofs.Staging
import Wheelwork.Proofs.Forward
import Wheelwork.Proofs.Merging
import Wheelwork.Proofs.TokenText
import Wheelwork.Proofs.Literals
import Wheelwork.Proofs.IntegerText
import Wheelwork.Proofs.Addressing
import Wheelwork.Proofs.Quoting
