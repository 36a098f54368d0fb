import Gatework.Activity.Estimated
import Gatework.Builder.Cursor
import Gatework.Cut.Cone
import Gatework.Main
import Gatework.Proofs.Activity
import Gatework.Proofs.Allocation
import Gatework.Proofs.Builder.Addition
import Gatework.Proofs.Builder.Balance
import Gatework.Proofs.Builder.Carrying
import Gatework.Proofs.Builder.Chronicle
import Gatework.Proofs.Builder.Continuation
import Gatework.Proofs.Builder.Finish
import Gatework.Proofs.Builder.Gates
import Gatework.Proofs.Builder.Hosting
import Gatework.Proofs.Builder.NormalForm
import Gatework.Proofs.Builder.Plain
import Gatework.Proofs.Builder.Prediction
import Gatework.Proofs.Builder.Request
import Gatework.Proofs.Builder.Substitution
import Gatework.Proofs.Builder.Walk
import Gatework.Proofs.Builder.Width
import Gatework.Proofs.Bytes
import Gatework.Proofs.Composites
import Gatework.Proofs.Cost
import Gatework.Proofs.Cover
import Gatework.Proofs.Cover.Irredundant
import Gatework.Proofs.Cover.Parity
import Gatework.Proofs.Cut.Completeness
import Gatework.Proofs.Cut.Cone
import Gatework.Proofs.Cut.Domination
import Gatework.Proofs.Cut.Enumeration
import Gatework.Proofs.Cut.Extraction
import Gatework.Proofs.Cut.Leaves
import Gatework.Proofs.Cut.Reconvergence
import Gatework.Proofs.Cut.Separation
import Gatework.Proofs.Drawing
import Gatework.Proofs.Image
import Gatework.Proofs.Imprint
import Gatework.Proofs.Library.Loading
import Gatework.Proofs.Library.Match
import Gatework.Proofs.Library.Matching
import Gatework.Proofs.Library.Retry
import Gatework.Proofs.Mapping.Arrival
import Gatework.Proofs.Mapping.Candidates
import Gatework.Proofs.Mapping.Completeness
import Gatework.Proofs.Mapping.Construction
import Gatework.Proofs.Mapping.Cover
import Gatework.Proofs.Mapping.Evolution
import Gatework.Proofs.Mapping.FirstPorts
import Gatework.Proofs.Mapping.Genes
import Gatework.Proofs.Mapping.Network
import Gatework.Proofs.Mapping.PowerMap
import Gatework.Proofs.Mapping.Preservation
import Gatework.Proofs.Mapping.Recovery
import Gatework.Proofs.Mapping.Text
import Gatework.Proofs.Network
import Gatework.Proofs.Npn.Action
import Gatework.Proofs.Npn.Archive
import Gatework.Proofs.Npn.Built
import Gatework.Proofs.Npn.Canonical
import Gatework.Proofs.Npn.Catalogue
import Gatework.Proofs.Npn.Cheapest
import Gatework.Proofs.Npn.Classes
import Gatework.Proofs.Npn.Contract
import Gatework.Proofs.Npn.Mirror
import Gatework.Proofs.Npn.Permutation
import Gatework.Proofs.Npn.Stepping
import Gatework.Proofs.Reader.Exact
import Gatework.Proofs.Reader.Faithful
import Gatework.Proofs.Reader.Printed
import Gatework.Proofs.Reader.Tokens
import Gatework.Proofs.Rewrite.Cone
import Gatework.Proofs.Rewrite.FirstPorts
import Gatework.Proofs.Rewrite.Function
import Gatework.Proofs.Rewrite.Improvement
import Gatework.Proofs.Rounding
import Gatework.Proofs.Session.Decoding
import Gatework.Proofs.Session.Run
import Gatework.Proofs.Session.Sources
import Gatework.Proofs.Simulation
import Gatework.Proofs.Switching
import Gatework.Proofs.Synthesis.Arithmetic
import Gatework.Proofs.Synthesis.Totality
import Gatework.Proofs.Synthesis.Width
import Gatework.Proofs.TruthTable.Agreement
import Gatework.Proofs.TruthTable.Digits
import Gatework.Proofs.TruthTable.Numerals
import Gatework.Proofs.Types
import Gatework.Synthesis.Arithmetic
import Gatework.TruthTable.Digits
