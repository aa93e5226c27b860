import RevForest.Attachment
import RevForest.Body
import RevForest.ContentDigest
import RevForest.Copies
import RevForest.Dict
import RevForest.Error
import RevForest.Files
import RevForest.Identifier
import RevForest.Json.Decimal
import RevForest.Json.Double
import RevForest.Json.Printer
import RevForest.Json.Record
import RevForest.Json.Value
import RevForest.Json.Wire
import RevForest.Keys.Error
import RevForest.Keys.KeyData
import RevForest.Keys.KeyStorage
import RevForest.Keys.Preferences
import RevForest.Log
import RevForest.Log.Event
import RevForest.Log.Metrics
import RevForest.Proofs.Attachment
import RevForest.Proofs.Dict
import RevForest.Proofs.Tree.Commit
import RevForest.Proofs.Tree.Convergence
import RevForest.Proofs.Tree.Accepted
import RevForest.Proofs.Tree.Replica
import RevForest.Proofs.Tree.Foreign
import RevForest.Proofs.Tree.Forest
import RevForest.Proofs.Tree.Link
import RevForest.Proofs.Tree.Reachable
import RevForest.Proofs.Tree.WellFormed
import RevForest.Proofs.Tree.Winner
import RevForest.Proofs.Tree.WinnerRule
import RevForest.Revision
import RevForest.Sequence
import RevForest.Sha256
import RevForest.Store.Backend
import RevForest.Store.Config
import RevForest.Store.Datastore
import RevForest.Store.Faults
import RevForest.Store.Write
import RevForest.Text.Hex
import RevForest.Text.Quoted
import RevForest.Text.Utf8
import RevForest.Tree.Basic
import RevForest.Tree.Insert
import RevForest.Tree.Link
import RevForest.Proofs.Identifier
import RevForest.Proofs.Tree.Child
import RevForest.Proofs.Tree.Leaves
import RevForest.Proofs.Tree.SameForest
import RevForest.Proofs.Store.Memory
import RevForest.Proofs.Store.Commit
import RevForest.Proofs.Store.Sound
import RevForest.Proofs.Store.Write
import RevForest.Proofs.Store.Resolve
import RevForest.Proofs.Store.Request
import RevForest.Proofs.Store.Run
import RevForest.Proofs.Store.CacheTransparency
import RevForest.Proofs.Store.ApplyOnce
import RevForest.Proofs.Store.Refusal
import RevForest.Proofs.Tree.Clash
import RevForest.Proofs.Store.Ledger
import RevForest.Proofs.Store.Rebuild
import RevForest.Proofs.Store.Interrupted
import RevForest.Proofs.Store.Gapless
import RevForest.Proofs.Store.AppendOnly
import RevForest.Proofs.Store.Present
import RevForest.Proofs.Store.Upheld
import RevForest.Proofs.Store.Vouched
import RevForest.Proofs.Copies
import RevForest.Proofs.Store.Partial
import RevForest.Proofs.Store.Save
import RevForest.Proofs.Tree.Lineage
import RevForest.Proofs.Tree.Arrival
import RevForest.Proofs.Store.Durable
import RevForest.Proofs.Store.Lag
import RevForest.Proofs.Store.Honest
import RevForest.Proofs.Store.Recovery
import RevForest.Proofs.Text.Hex
import RevForest.Proofs.Json.Reader
import RevForest.Proofs.Files
import RevForest.Proofs.Keys.KeyData
import RevForest.Proofs.Keys.Preferences
import RevForest.Proofs.Keys.KeyStorage
import RevForest.Proofs.Store.ReadBack
import RevForest.Proofs.Tree.AnyOrder
import RevForest.Proofs.Tree.Prune
import RevForest.Proofs.Store.Resolved
import RevForest.Proofs.Store.Materialize
import RevForest.Proofs.Store.Bookkeeping
import RevForest.Proofs.Store.Changes
import RevForest.Proofs.ContentDigest
import RevForest.Proofs.Body
import RevForest.Proofs.Json.RoundTrip
import RevForest.Proofs.BodyText
import RevForest.FullMap
import RevForest.Proofs.FullMap
import RevForest.Proofs.Path
import RevForest.Proofs.Keys.Update
import RevForest.Proofs.Store.Carried
import RevForest.Proofs.Log.Line
import RevForest.Proofs.Json.LetterCase
import RevForest.Proofs.Keys.KeyText
import RevForest.Proofs.Store.CacheBound
import RevForest.Proofs.Store.Missing
import RevForest.Proofs.Tree.Walk
import RevForest.Proofs.Tree.Ancestry
