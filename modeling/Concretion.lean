import Concretion.Abstract.Visit
import Concretion.Concrete.Invariant
import Concretion.Concrete.Parts
import Concretion.Proofs.Arity
import Concretion.Proofs.Arrows
import Concretion.Proofs.Clauses
import Concretion.Proofs.Colours
import Concretion.Proofs.Constructors
import Concretion.Proofs.Containment
import Concretion.Proofs.Declarators
import Concretion.Proofs.Deferral
import Concretion.Proofs.Descendants
import Concretion.Proofs.Discipline
import Concretion.Proofs.Exactness
import Concretion.Proofs.Exports
import Concretion.Proofs.Fallbacks
import Concretion.Proofs.Fidelity
import Concretion.Proofs.Grouped
import Concretion.Proofs.Imports
import Concretion.Proofs.Invisible
import Concretion.Proofs.Items
import Concretion.Proofs.LoopHeaders
import Concretion.Proofs.Lossless
import Concretion.Proofs.MemberOrder
import Concretion.Proofs.Operands
import Concretion.Proofs.Parens
import Concretion.Proofs.Printed
import Concretion.Proofs.Safety
import Concretion.Proofs.Segments
import Concretion.Proofs.Skipping.Tree
import Concretion.Proofs.Strictness
import Concretion.Proofs.StringLiterals
import Concretion.Proofs.Surgery
import Concretion.Proofs.Terminated
import Concretion.Proofs.Translation
import Concretion.Proofs.Trivia
import Concretion.Proofs.Walks
import Concretion.Proofs.WellLaid
import Concretion.Recovery.Program
