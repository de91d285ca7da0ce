import CanonicalLR.Main
import CanonicalLR.Proofs.Automaton.Numbering
import CanonicalLR.Proofs.Collection.Hashed
import CanonicalLR.Proofs.Grammar.Beginnings
import CanonicalLR.Proofs.Grammar.Convergence
import CanonicalLR.Proofs.Grammar.Neighbours
import CanonicalLR.Proofs.Grammar.Registry
import CanonicalLR.Proofs.Grammar.Verdict
import CanonicalLR.Proofs.Item.Closure
import CanonicalLR.Proofs.Item.Groups
import CanonicalLR.Proofs.Parser.Kinds
import CanonicalLR.Proofs.Parser.Postorder
import CanonicalLR.Proofs.Parser.Relevance
import CanonicalLR.Proofs.Parser.Renaming
import CanonicalLR.Proofs.Parser.Stopping
import CanonicalLR.Proofs.Parser.UnitProductions
import CanonicalLR.Proofs.Table.Clashes
import CanonicalLR.Proofs.Table.History
import CanonicalLR.Proofs.Table.Lookaheads
import CanonicalLR.Proofs.Table.Markdown
import CanonicalLR.Proofs.Text.Lexemes
import CanonicalLR.Proofs.Text.Words
import CanonicalLR.Proofs.Tree.Reading
