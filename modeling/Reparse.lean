import Reparse.Grammar.Building
import Reparse.Morpho.Table
import Reparse.Parse.Parser
import Reparse.Tree.Outline
import Reparse.Tree.Sharing
import Reparse.Tree.Splice
import Reparse.Text.Utf8
import Reparse.Proofs.Grammar.Soundness
import Reparse.Proofs.Grammar.Layout
import Reparse.Proofs.Grammar.Header
import Reparse.Proofs.Grammar.Sections
import Reparse.Proofs.Grammar.RoundTrip
import Reparse.Proofs.Lex.Token
import Reparse.Proofs.Syntax.Summary
import Reparse.Proofs.Syntax.Occurrence
import Reparse.Proofs.Syntax.Edit
import Reparse.Proofs.Syntax.Soundness
import Reparse.Proofs.Parse.Epoch
import Reparse.Proofs.Parse.Reading
import Reparse.Proofs.Parse.Lexed
import Reparse.Proofs.Parse.Stack
import Reparse.Proofs.Parse.Cuts
import Reparse.Proofs.Parse.Reuse
import Reparse.Proofs.Parse.Session
import Reparse.Proofs.Parse.Recovery
import Reparse.Proofs.Parse.Run
import Reparse.Proofs.Tree.History
import Reparse.Proofs.Tree.Coverage
import Reparse.Proofs.Tree.Chain
import Reparse.Proofs.Tree.Ranges
import Reparse.Proofs.Tree.Changes
import Reparse.Proofs.Parse.Termination
import Reparse.Proofs.Morpho.Table
import Reparse.Proofs.Morpho.Grammar
import Reparse.Proofs.Morpho.Completeness
import Reparse.Proofs.Morpho.Subtrees
import Reparse.Proofs.Morpho.Stack
import Reparse.Proofs.Morpho.Derivation
import Reparse.Proofs.Morpho.Acceptance
import Reparse.Proofs.Lex.Window
import Reparse.Proofs.Lex.Locality
import Reparse.Proofs.Syntax.Plain
import Reparse.Proofs.Parse.Path
import Reparse.Proofs.Parse.Plain
import Reparse.Proofs.Parse.Lockstep
import Reparse.Proofs.Tree.Spliced
import Reparse.Proofs.Tree.Unmarked
import Reparse.Proofs.Tree.Exact
import Reparse.Proofs.Parse.Roots
import Reparse.Proofs.Parse.Reductions
import Reparse.Proofs.Tree.InPlace
import Reparse.Proofs.Tree.Shown
import Reparse.Proofs.Tree.Ways
import Reparse.Proofs.Tree.Navigation
import Reparse.Proofs.Tree.Named
import Reparse.Proofs.Tree.Plain
import Reparse.Proofs.Morpho.Scratch
import Reparse.Proofs.Morpho.Replay
import Reparse.Proofs.Morpho.Rounds
import Reparse.Proofs.Parse.Search
import Reparse.Proofs.Tree.Preorder
import Reparse.Proofs.Tree.Nesting
import Reparse.Proofs.Tree.Enclosing
import Reparse.Proofs.Tree.Seeking
import Reparse.Proofs.Tree.Parents
import Reparse.Proofs.Tree.Relatives
import Reparse.Proofs.Parse.Simulation
import Reparse.Proofs.Parse.Acceptance
import Reparse.Proofs.Lex.Longest
import Reparse.Proofs.Parse.Skipping
import Reparse.Proofs.Tree.Fields
import Reparse.Proofs.Tree.Construction
import Reparse.Proofs.Tree.Printed
import Reparse.Proofs.Syntax.Growth
import Reparse.Proofs.Parse.Growing
import Reparse.Proofs.Tree.Summarized
import Reparse.Proofs.Morpho.Tokens
import Reparse.Proofs.Morpho.Operands
import Reparse.Proofs.Morpho.Precedence
import Reparse.Proofs.Parse.Smooth
import Reparse.Proofs.Parse.Steady
import Reparse.Proofs.Parse.Replay
import Reparse.Proofs.Parse.Replayable
import Reparse.Proofs.Tree.Agreement
