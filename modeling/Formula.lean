import Formula.Text
import Formula.Token
import Formula.Lexeme.Table
import Formula.Lexeme.Trie
import Formula.Lexeme.HashTable
import Formula.Lexeme.Store
import Formula.Lexeme.Builtin
import Formula.Diagnostics
import Formula.Lexer
import Formula.Bracket
import Formula.Structure
import Formula.Extent
import Formula.Cursor
import Formula.Rule
import Formula.Simplify
import Formula.Rpn
import Formula.Tree
import Formula.Item
import Formula.Tier
import Formula.Chain
import Formula.Nesting
import Formula.Analysis
import Formula.Journal
import Formula.Proofs.Backends
import Formula.Proofs.Partition
import Formula.Proofs.Balance
import Formula.Proofs.Grammar
import Formula.Proofs.Acceptance
import Formula.Proofs.Phrase
import Formula.Proofs.Reading
import Formula.Proofs.Postorder
import Formula.Proofs.Context
import Formula.Proofs.Measure
import Formula.Proofs.Rewriting
import Formula.Proofs.Reduction
import Formula.Proofs.Value
import Formula.Proofs.NormalForm
import Formula.Proofs.Divisors
import Formula.Proofs.Firing
import Formula.Proofs.Regrouping
import Formula.Proofs.Nested
import Formula.Proofs.Matching
import Formula.Proofs.Tokenizing
import Formula.Proofs.Bracketing
import Formula.Proofs.Evaluation
import Formula.Proofs.Settling
import Formula.Proofs.Spreading
import Formula.Proofs.Arranging
import Formula.Proofs.Outcome
import Formula.Proofs.Relexing
import Formula.Proofs.Persistence
import Formula.Proofs.Stability
import Formula.Proofs.Traversal
import Formula.Proofs.Printing
import Formula.Proofs.Relabelling
import Formula.Proofs.Separation
import Formula.Proofs.Rendering
import Formula.Proofs.Enclosing
import Formula.Proofs.Indifference
import Formula.Proofs.ZeroDivision
import Formula.Proofs.Decoding
import Formula.Proofs.Termination
import Formula.Proofs.WellFormed
import Formula.Proofs.Leftover
import Formula.Proofs.Reordering
import Formula.Proofs.Conservation
import Formula.Proofs.Locality
import Formula.Proofs.Imbalance
import Formula.Proofs.Pairing
import Formula.Proofs.Spans
import Formula.Proofs.Passes
import Formula.Proofs.Settlements
import Formula.Proofs.Provenance
