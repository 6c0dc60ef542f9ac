import JMinusMinus.Main
import JMinusMinus.Proofs.Dispatch
import JMinusMinus.Proofs.Progress.Unit
import JMinusMinus.Proofs.Ranges.Unit
import JMinusMinus.Proofs.Height.Unit
import JMinusMinus.Proofs.Budget
import JMinusMinus.Proofs.Cascade
import JMinusMinus.Proofs.Constructors
import JMinusMinus.Proofs.Descriptors
import JMinusMinus.Proofs.Headers.Repair
import JMinusMinus.Proofs.Hierarchy.Methods
import JMinusMinus.Proofs.Arrays
import JMinusMinus.Proofs.Slots.Unit
import JMinusMinus.Proofs.Parse.Joined
import JMinusMinus.Proofs.Parse.Lookahead
import JMinusMinus.Proofs.Parse.Places
import JMinusMinus.Proofs.Settled.Static
import JMinusMinus.Proofs.Recovery.Depth
import JMinusMinus.Proofs.Spelling.Reading
