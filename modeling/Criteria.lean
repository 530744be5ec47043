import Criteria.Forest.Inspect
import Criteria.Simplify
import Criteria.Validity
import Criteria.Rewording
import Criteria.Proofs.Ascending
import Criteria.Proofs.NodeFields
import Criteria.Proofs.Coding
import Criteria.Proofs.Extension
import Criteria.Proofs.Consolidation
import Criteria.Proofs.Entailment
import Criteria.Proofs.Pruning
import Criteria.Proofs.Distribution
import Criteria.Proofs.Factoring
import Criteria.Proofs.Spelling
import Criteria.Proofs.Forest
import Criteria.Proofs.Sweep
import Criteria.Proofs.Shape
import Criteria.Proofs.NodeShape
import Criteria.Proofs.Merge
import Criteria.Proofs.Simplification
import Criteria.Proofs.Deciding
import Criteria.Proofs.Representation
import Criteria.Proofs.Soundness
import Criteria.Proofs.Transparency
import Criteria.Proofs.Form
import Criteria.Proofs.NormalForm
import Criteria.Proofs.Numbering
import Criteria.Proofs.Recovery
import Criteria.Proofs.Reachability
import Criteria.Proofs.History
import Criteria.Proofs.RoundTrip
import Criteria.Proofs.Words
import Criteria.Proofs.Planting
import Criteria.Proofs.Replanting
import Criteria.Proofs.Recall
import Criteria.Proofs.Demands
import Criteria.Proofs.Load
import Criteria.Proofs.Faults
import Criteria.Proofs.Construction
import Criteria.Proofs.Isomorphism
import Criteria.Proofs.Batch
import Criteria.Proofs.Occurrences
import Criteria.Proofs.Repetition
import Criteria.Proofs.Repetition.Pruning
import Criteria.Proofs.Repetition.Distribution
import Criteria.Proofs.Repetition.Factoring
import Criteria.Proofs.Replay
import Criteria.Proofs.Stillness
import Criteria.Proofs.Irreducible
import Criteria.Proofs.Irreducible.Pruning
import Criteria.Proofs.Irredundance
import Criteria.Proofs.Transplanting
import Criteria.Proofs.Housekeeping
import Criteria.Proofs.Advice
import Criteria.Proofs.Mirroring
import Criteria.Proofs.Termination
import Criteria.Proofs.Termination.Pruning
import Criteria.Proofs.Termination.Factoring
import Criteria.Proofs.Complement
import Criteria.Proofs.Preorder
import Criteria.Proofs.Overlaps
import Criteria.Proofs.Separation
import Criteria.Proofs.Decoding
import Criteria.Proofs.Canonicity
import Criteria.Proofs.Shortcut
import Criteria.Proofs.Provenance
import Criteria.Proofs.Inheritance
import Criteria.Proofs.Traversal
import Criteria.Proofs.Dangling
import Criteria.Proofs.Strays
