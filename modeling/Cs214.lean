import Cs214.Library.Store
import Cs214.Library.Run
import Cs214.Library.Separated
import Cs214.Library.Path
import Cs214.SortedList.Model
import Cs214.SortedList.References
import Cs214.SortedList.Cascade
import Cs214.SortedList.Valid
import Cs214.SortedList.Insert
import Cs214.SortedList.Remove
import Cs214.SortedList.Effect
import Cs214.SortedList.Iterate
import Cs214.SortedList.OrderedSet
import Cs214.SortedList.Ownership
import Cs214.SortedList.Traversal
import Cs214.SortedList.NextItem
import Cs214.Library.Memory
import Cs214.Library.Chunks
import Cs214.Library.FirstFit
import Cs214.Library.Abstraction
import Cs214.EnhancedMalloc.Model
import Cs214.EnhancedMalloc.Layout
import Cs214.EnhancedMalloc.Malloc
import Cs214.EnhancedMalloc.Free
import Cs214.EnhancedMalloc.Effect
import Cs214.EnhancedMalloc.Blocks
import Cs214.EnhancedMalloc.Restore
import Cs214.EnhancedMalloc.Reuse
import Cs214.EnhancedMalloc.Reports
import Cs214.EnhancedMalloc.FirstFit
import Cs214.Tokenizer.Lexemes
import Cs214.Tokenizer.Comments
import Cs214.Tokenizer.Punctuation
import Cs214.Tokenizer.Progress
import Cs214.Tokenizer.Tokens
import Cs214.Tokenizer.Number
import Cs214.Tokenizer.Literals
import Cs214.Tokenizer.Retokenize
import Cs214.Library.Simulation
import Cs214.Tokenizer.Pointer
import Cs214.Tokenizer.Bounds
import Cs214.MultithreadedBanking.Request
import Cs214.MultithreadedBanking.ClientLoop
import Cs214.Library.Overwrite
import Cs214.Library.Interleaving
import Cs214.Library.Refinement
import Cs214.MultithreadedBanking.Steps
import Cs214.MultithreadedBanking.Ledger
import Cs214.MultithreadedBanking.Sessions
import Cs214.MultithreadedBanking.Names
import Cs214.MultithreadedBanking.Accounts
import Cs214.MultithreadedBanking.PrintAccount
import Cs214.MultithreadedBanking.Report
import Cs214.MultithreadedBanking.Bank
import Cs214.MultithreadedBanking.Atomic
import Cs214.MultithreadedBanking.Dialogue
import Cs214.MultithreadedBanking.Locks
import Cs214.MultithreadedBanking.Wire
import Cs214.MultithreadedBanking.Bytes
import Cs214.MultithreadedBanking.Delivery
import Cs214.MultithreadedBanking.Responses
import Cs214.MultithreadedBanking.Messages
import Cs214.Indexer.HashMap
import Cs214.Indexer.Buckets
import Cs214.Indexer.Removal
import Cs214.Indexer.FiniteMap
import Cs214.Indexer.Model
import Cs214.Indexer.Order
import Cs214.Indexer.Table
import Cs214.Indexer.WordCount
import Cs214.Indexer.TokenizeFile
import Cs214.Indexer.Index
import Cs214.Indexer.AnyOrder
import Cs214.Indexer.Injective
import Cs214.SortedList.Listing
import Cs214.Indexer.Traverse
import Cs214.Library.Release
import Cs214.Indexer.Destroy
import Cs214.Indexer.Main
import Cs214.Library.Chaining
import Cs214.Tokenizer.HashTable
import Cs214.Tokenizer.Copies
import Cs214.Tokenizer.Main
