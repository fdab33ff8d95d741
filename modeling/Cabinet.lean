import Cabinet.Config.Environment
import Cabinet.Store.Operation
import Cabinet.Proofs.Table.Contents
import Cabinet.Proofs.Table.Scan
import Cabinet.Proofs.Table.Draining
import Cabinet.Proofs.Table.Batches
import Cabinet.Proofs.Closure
import Cabinet.Proofs.Key.Scope
import Cabinet.Proofs.Key.Marking
import Cabinet.Proofs.Key.Layout
import Cabinet.Proofs.Folder.Path
import Cabinet.Proofs.Folder.Chain
import Cabinet.Proofs.Record.Filed
import Cabinet.Proofs.Store.Effect
import Cabinet.Proofs.Table.Edits
import Cabinet.Proofs.Table.Moves
import Cabinet.Proofs.Store.Reading
import Cabinet.Proofs.Store.Writing
import Cabinet.Proofs.Store.Removal
import Cabinet.Proofs.Store.Reached
import Cabinet.Proofs.Store.Likeness
import Cabinet.Proofs.Page.Caching
import Cabinet.Proofs.Store.Renaming
import Cabinet.Proofs.Store.Simulation
import Cabinet.Proofs.Store.SameAnswers
import Cabinet.Proofs.Store.Passing
import Cabinet.Proofs.Store.Isolation
import Cabinet.Proofs.Store.Soundness
import Cabinet.Proofs.Store.SoftDeletion
import Cabinet.Proofs.Store.Restoration
import Cabinet.Proofs.Store.Shelved
import Cabinet.Proofs.Store.RoundTrip
import Cabinet.Proofs.Store.Cascade
import Cabinet.Proofs.Store.Keying
import Cabinet.Proofs.Store.History
import Cabinet.Proofs.Store.Leaves
import Cabinet.Proofs.Text.Padded
import Cabinet.Proofs.Calendar.Order
import Cabinet.Proofs.Store.Navigation
import Cabinet.Proofs.Store.Serving
import Cabinet.Proofs.Distinct
import Cabinet.Proofs.Store.DayListing
import Cabinet.Proofs.Store.PagingThrough
import Cabinet.Proofs.Store.Values
import Cabinet.Proofs.Store.Joining
import Cabinet.Proofs.Store.Composites
import Cabinet.Proofs.Text.Joined
import Cabinet.Proofs.Store.Finding
import Cabinet.Proofs.Store.Searching
import Cabinet.Proofs.Store.CompositeSearch
import Cabinet.Proofs.Store.SideBySide
import Cabinet.Proofs.Criteria.Meaning
import Cabinet.Proofs.Store.AttributeSearch
import Cabinet.Proofs.Store.ChoiceSearch
import Cabinet.Proofs.Number.KeyText
import Cabinet.Proofs.Number.KeyOrder
import Cabinet.Proofs.Text.Bytes
import Cabinet.Proofs.Number.Rendering
import Cabinet.Proofs.Store.NumberSearch
import Cabinet.Proofs.Record.Identity
import Cabinet.Proofs.Record.TagPlaces
import Cabinet.Proofs.Store.Displacement
import Cabinet.Proofs.Store.AttributeMap
import Cabinet.Proofs.Store.TagRows
import Cabinet.Proofs.Store.TagMap
import Cabinet.Proofs.Store.TagRestoration
import Cabinet.Proofs.Store.TagSearch
import Cabinet.Proofs.Store.DefaultTenant
import Cabinet.Proofs.Store.Parents
import Cabinet.Proofs.Store.Orphans
import Cabinet.Proofs.Store.Refusal
import Cabinet.Proofs.Criteria.Acceptance
import Cabinet.Proofs.Criteria.Conjunction
import Cabinet.Proofs.Store.FolderRemoval
import Cabinet.Proofs.Store.FolderListing
import Cabinet.Proofs.Page.Pruning
import Cabinet.Proofs.Criteria.Expansion
