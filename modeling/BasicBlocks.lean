import BasicBlocks.CommandLine.Program
import BasicBlocks.CommandLine.Timestamp
import BasicBlocks.Main
import BasicBlocks.Proofs.Backing
import BasicBlocks.Proofs.Concatenation
import BasicBlocks.Proofs.Containers
import BasicBlocks.Proofs.Continuations
import BasicBlocks.Proofs.Deadlines
import BasicBlocks.Proofs.Deliveries
import BasicBlocks.Proofs.Deposits
import BasicBlocks.Proofs.ElfImages
import BasicBlocks.Proofs.FactFiles
import BasicBlocks.Proofs.Footprint
import BasicBlocks.Proofs.Forms
import BasicBlocks.Proofs.Inputs
import BasicBlocks.Proofs.Integers
import BasicBlocks.Proofs.Interleavings
import BasicBlocks.Proofs.Layers
import BasicBlocks.Proofs.LineNumbers
import BasicBlocks.Proofs.LineTolerance
import BasicBlocks.Proofs.Locality
import BasicBlocks.Proofs.Lookups
import BasicBlocks.Proofs.MachOImages
import BasicBlocks.Proofs.Notations
import BasicBlocks.Proofs.PeImages
import BasicBlocks.Proofs.Relocation
import BasicBlocks.Proofs.RowOrder
import BasicBlocks.Proofs.SectionOrder
import BasicBlocks.Proofs.Stages
import BasicBlocks.Proofs.Tails
import BasicBlocks.Shell.ScriptHost
