import JaroFilter.Batch.Attempts
import JaroFilter.Batch.MoveCodes
import JaroFilter.Batch.Pool
import JaroFilter.Batch.Records
import JaroFilter.Batch.Runs
import JaroFilter.Batch.Selection
import JaroFilter.Batch.Stream
import JaroFilter.Contact.Append
import JaroFilter.Contact.Book
import JaroFilter.Contact.Source
import JaroFilter.Digest
import JaroFilter.Generation.Collect
import JaroFilter.Generation.Commit
import JaroFilter.Generation.Compile
import JaroFilter.Generation.Crash
import JaroFilter.Generation.Disk
import JaroFilter.Generation.Faults
import JaroFilter.Generation.Install
import JaroFilter.Generation.Journal
import JaroFilter.Generation.Killed
import JaroFilter.Generation.Processes
import JaroFilter.Generation.Publication
import JaroFilter.Generation.Recovery
import JaroFilter.Generation.Repair
import JaroFilter.Generation.Reuse
import JaroFilter.Generation.Roots
import JaroFilter.Generation.Sections
import JaroFilter.Generation.Site
import JaroFilter.Generation.Transaction
import JaroFilter.Header.Address
import JaroFilter.Header.Grammar
import JaroFilter.Header.Limits
import JaroFilter.Header.Mailboxes
import JaroFilter.Header.Reader
import JaroFilter.Header.Rfc822
import JaroFilter.Header.Unfold
import JaroFilter.Import.Books
import JaroFilter.Import.Merge
import JaroFilter.Import.Quote
import JaroFilter.Import.Script
import JaroFilter.Lib.Access
import JaroFilter.Lib.Buffer
import JaroFilter.Lib.Bytes
import JaroFilter.Lib.Ere
import JaroFilter.Lib.Framing
import JaroFilter.Lib.Program
import JaroFilter.Lib.Result
import JaroFilter.Lib.Rough
import JaroFilter.Lib.SecureHash
import JaroFilter.Lib.Shell
import JaroFilter.Lib.Sorting
import JaroFilter.Lib.Threads
import JaroFilter.Lib.Trace
import JaroFilter.Move.Clients
import JaroFilter.Move.Copy
import JaroFilter.Move.Names
import JaroFilter.Move.Storage
import JaroFilter.Policy.Classify
import JaroFilter.Policy.Grammar
import JaroFilter.Policy.Identity
import JaroFilter.Policy.Mailbox
import JaroFilter.Policy.Normalize
import JaroFilter.Policy.Parse
import JaroFilter.Policy.Resolution
import JaroFilter.Policy.Resolve
import JaroFilter.Policy.Snapshot
import JaroFilter.Policy.Text
import JaroFilter.Policy.Types
import JaroFilter.Policy.Utf8
import JaroFilter.Products.Accept
import JaroFilter.Products.Cache
import JaroFilter.Products.Emit
import JaroFilter.Products.Fingerprint
import JaroFilter.Products.Hostile
import JaroFilter.Products.Profile
import JaroFilter.Products.Rebuild
import JaroFilter.Products.Regex
import JaroFilter.Products.Restore
import JaroFilter.Products.Tables
import JaroFilter.Products.Views
import JaroFilter.Sha256
import JaroFilter.Sieve.Emitted
import JaroFilter.Sieve.Refinement
import JaroFilter.Sieve.Script
import JaroFilter.Sieve.Tokens
