import PolyExpression.Bank
import PolyExpression.Engine.Run
import PolyExpression.Main
import PolyExpression.Parameter.Display
import PolyExpression.Proofs.Coherence
import PolyExpression.Proofs.Queue
import PolyExpression.Proofs.Emission
import PolyExpression.Proofs.Output
import PolyExpression.Proofs.Acts
import PolyExpression.Proofs.Operations
import PolyExpression.Proofs.Conservation
import PolyExpression.Proofs.Pairing
import PolyExpression.Proofs.LastSent
import PolyExpression.Proofs.SplitSync
import PolyExpression.Proofs.Handover
import PolyExpression.Proofs.Isolation
import PolyExpression.Proofs.Restart
import PolyExpression.Proofs.Strokes
import PolyExpression.Proofs.Mode
import PolyExpression.Proofs.Turns
import PolyExpression.Proofs.Delivery
import PolyExpression.Proofs.PedalSafety
import PolyExpression.Proofs.Likeness
import PolyExpression.Proofs.Forgetting
import PolyExpression.Proofs.Receiver
import PolyExpression.Proofs.Superseding
import PolyExpression.Proofs.Repetition
import PolyExpression.Proofs.Rounding
import PolyExpression.Proofs.Arithmetic
import PolyExpression.Proofs.Fractions
import PolyExpression.Proofs.Numerals
import PolyExpression.Proofs.Decimals
import PolyExpression.Proofs.Grammar
import PolyExpression.Proofs.LineCursor
import PolyExpression.Proofs.Lines
import PolyExpression.Proofs.Sections
import PolyExpression.Proofs.NameLookup
import PolyExpression.Proofs.SettingsText
import PolyExpression.Proofs.Publication
import PolyExpression.Proofs.Edits
import PolyExpression.Proofs.Importing
import PolyExpression.Proofs.RoundTrip
import PolyExpression.Proofs.Upgrading
import PolyExpression.Proofs.Settling
import PolyExpression.Proofs.Transmission
import PolyExpression.Proofs.Programs
import PolyExpression.Proofs.Banks
import PolyExpression.Proofs.Regions
import PolyExpression.Proofs.Deferral
import PolyExpression.Proofs.Validity
import PolyExpression.Proofs.Checked
import PolyExpression.Proofs.Cursor
import PolyExpression.Proofs.Links
import PolyExpression.Proofs.Recency
import PolyExpression.Proofs.Machine
import PolyExpression.Proofs.Storage
import PolyExpression.Proofs.Fifo
import PolyExpression.Proofs.NameHash
import PolyExpression.Proofs.Safety
import PolyExpression.Proofs.Seniority
import PolyExpression.Proofs.Admission
import PolyExpression.Proofs.Setup
import PolyExpression.Proofs.Routing
import PolyExpression.Proofs.StartingOver
import PolyExpression.Proofs.Shaping
import PolyExpression.Proofs.Views
import PolyExpression.Proofs.Encoding
import PolyExpression.Proofs.FileSize
import PolyExpression.Proofs.StoredPrograms
import PolyExpression.Proofs.Rendering
