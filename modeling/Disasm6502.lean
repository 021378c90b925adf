import Disasm6502.CommandLine.Directory
import Disasm6502.CommandLine.Run
import Disasm6502.Proofs.Interchange
import Disasm6502.Json.Reader
import Disasm6502.LoadFile.Reader
import Disasm6502.Main
import Disasm6502.Proofs.Assembly
import Disasm6502.Proofs.Disassembly.Coverage
import Disasm6502.Proofs.LoadFile.Limit
import Disasm6502.Sweep.Cursor
import Disasm6502.Proofs.LoadFile.Reader.InPlace
import Disasm6502.Proofs.LoadFile.Reader.Runs
import Disasm6502.Proofs.LoadFile.Reader.Headers
import Disasm6502.Proofs.Disassembly.Image
import Disasm6502.Proofs.Disassembly.Patching
import Disasm6502.Proofs.LoadFile.Appending
import Disasm6502.Proofs.Hex.Bytes
import Disasm6502.Proofs.Fault
import Disasm6502.Proofs.Disassembly.Decoding
import Disasm6502.Proofs.Listing.Human
import Disasm6502.Proofs.Json.RoundTrip
import Disasm6502.Proofs.Listing.Document
import Disasm6502.Proofs.Listing.Retelling
import Disasm6502.Proofs.Numeral.Addresses
import Disasm6502.Proofs.CommandLine.Draft
import Disasm6502.Proofs.CommandLine.Words
import Disasm6502.Proofs.CommandLine.Files
import Disasm6502.Proofs.Sweep.Cursor
import Disasm6502.Proofs.CommandLine.Indifference
import Disasm6502.Proofs.Sweep.Displacement
import Disasm6502.Proofs.Assembly.Literals
import Disasm6502.Proofs.LoadFile.Opening
import Disasm6502.Proofs.Log
