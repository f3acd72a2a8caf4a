import PhraseIndex.Basic
import PhraseIndex.Binary
import PhraseIndex.Bytes
import PhraseIndex.Checksum
import PhraseIndex.CommandLine.Help
import PhraseIndex.CommandLine.Invocation
import PhraseIndex.CommandLine.Run
import PhraseIndex.Config.Basic
import PhraseIndex.Config.Document
import PhraseIndex.Corpus.FileName
import PhraseIndex.Corpus.Log
import PhraseIndex.Corpus.Record
import PhraseIndex.Count
import PhraseIndex.Cursor
import PhraseIndex.Decimal.Binary
import PhraseIndex.Decimal.Rounding
import PhraseIndex.Decimal.Shortest
import PhraseIndex.Decimal.Text
import PhraseIndex.Decimal.Whole
import PhraseIndex.Disk
import PhraseIndex.Error
import PhraseIndex.Fragments
import PhraseIndex.Json.Number
import PhraseIndex.Json.Value
import PhraseIndex.Key
import PhraseIndex.Key.Kind
import PhraseIndex.Main
import PhraseIndex.Manifest
import PhraseIndex.Merge
import PhraseIndex.Metrics.Basic
import PhraseIndex.Metrics.Text
import PhraseIndex.Model
import PhraseIndex.Posting
import PhraseIndex.Proofs.Acceptance
import PhraseIndex.Proofs.Accounts
import PhraseIndex.Proofs.Adoption
import PhraseIndex.Proofs.Archive
import PhraseIndex.Proofs.Atomicity
import PhraseIndex.Proofs.Batching
import PhraseIndex.Proofs.Bookkeeping
import PhraseIndex.Proofs.Candidates
import PhraseIndex.Proofs.Checksum
import PhraseIndex.Proofs.Clearing
import PhraseIndex.Proofs.Codec
import PhraseIndex.Proofs.Commit
import PhraseIndex.Proofs.Contents
import PhraseIndex.Proofs.Counting
import PhraseIndex.Proofs.Cursors
import PhraseIndex.Proofs.Detection
import PhraseIndex.Proofs.Failure
import PhraseIndex.Proofs.Files
import PhraseIndex.Proofs.Fragments
import PhraseIndex.Proofs.FullScan
import PhraseIndex.Proofs.Growth
import PhraseIndex.Proofs.History
import PhraseIndex.Proofs.Installation
import PhraseIndex.Proofs.Interleaving
import PhraseIndex.Proofs.Keys
import PhraseIndex.Proofs.Layout
import PhraseIndex.Proofs.Legible
import PhraseIndex.Proofs.Loss
import PhraseIndex.Proofs.Lossless
import PhraseIndex.Proofs.Marks
import PhraseIndex.Proofs.Merging
import PhraseIndex.Proofs.Opening
import PhraseIndex.Proofs.Operations
import PhraseIndex.Proofs.Order
import PhraseIndex.Proofs.Packing
import PhraseIndex.Proofs.Pending
import PhraseIndex.Proofs.Persistence
import PhraseIndex.Proofs.Positions
import PhraseIndex.Proofs.Progress
import PhraseIndex.Proofs.Rationing
import PhraseIndex.Proofs.Reading
import PhraseIndex.Proofs.Records
import PhraseIndex.Proofs.Recovery
import PhraseIndex.Proofs.Regrouping
import PhraseIndex.Proofs.Release
import PhraseIndex.Proofs.Remnant
import PhraseIndex.Proofs.Replay
import PhraseIndex.Proofs.Results
import PhraseIndex.Proofs.Resumption
import PhraseIndex.Proofs.Retrieval
import PhraseIndex.Proofs.Sampling
import PhraseIndex.Proofs.Session
import PhraseIndex.Proofs.Splicing
import PhraseIndex.Proofs.Steps
import PhraseIndex.Proofs.Sweeping
import PhraseIndex.Proofs.Tearing
import PhraseIndex.Proofs.Timeout
import PhraseIndex.Proofs.Uninterrupted
import PhraseIndex.Proofs.Values
import PhraseIndex.Proofs.Visibility
import PhraseIndex.Sampling.Context
import PhraseIndex.Sampling.Sampler
import PhraseIndex.Sampling.Score
import PhraseIndex.Scan
import PhraseIndex.Store
import PhraseIndex.Store.Snapshot
import PhraseIndex.Streams
import PhraseIndex.Sweep
import PhraseIndex.UpdateBatch
import PhraseIndex.Volume
