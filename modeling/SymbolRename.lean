import SymbolRename.Main
import SymbolRename.Proofs.Batch.Completion
import SymbolRename.Proofs.Batch.Substitution
import SymbolRename.Proofs.Batch.Prefix
import SymbolRename.Proofs.Batch.Merging
import SymbolRename.Proofs.Batch.Leftovers
import SymbolRename.Proofs.Lexer.Lookahead
import SymbolRename.Proofs.Lexer.Renaming
import SymbolRename.Proofs.Lexer.Soundness
import SymbolRename.Proofs.Rename.Reported
import SymbolRename.Proofs.Snapshot.Manifest
import SymbolRename.Proofs.Disk.Operations
import SymbolRename.Proofs.Lock.Contest
import SymbolRename.Proofs.Batch.Undo
import SymbolRename.Proofs.Lexer.Quotes
import SymbolRename.Proofs.Lexer.Comments
import SymbolRename.Proofs.Lexer.Prefixes
import SymbolRename.Proofs.Dialect.RoundTrip
import SymbolRename.Proofs.Batch.Upkeep
import SymbolRename.Proofs.Clock
import SymbolRename.Proofs.Operation.Guard
import SymbolRename.Proofs.Operation.History
import SymbolRename.Proofs.Plan.Arrangement
import SymbolRename.Proofs.Rename.Commuting
import SymbolRename.Proofs.Batch.NetEffect
import SymbolRename.Proofs.Rename.Specificity
import SymbolRename.Proofs.Rewrite.Patch
import SymbolRename.Proofs.Rename.Independence
import SymbolRename.Proofs.Rename.Finding
import SymbolRename.Proofs.Lexer.Nesting
import SymbolRename.Proofs.Batch.Freshness
import SymbolRename.Proofs.Batch.Accounting
import SymbolRename.Proofs.Snapshot.Law
import SymbolRename.Proofs.Search.RootOrder
import SymbolRename.Proofs.Mapping.Formats
import SymbolRename.Proofs.Mapping.Pairs
import SymbolRename.Proofs.Dialect.Limit
import SymbolRename.Proofs.Preview.Colours
import SymbolRename.Proofs.Config
