import PrunedHistory.Object.Commit
import PrunedHistory.Object.Tag
import PrunedHistory.Repository.Store
import PrunedHistory.Publication.Report
import PrunedHistory.Toml.Value
import PrunedHistory.Plan
import PrunedHistory.CommandLine
import PrunedHistory.Git.Rehearsal
import PrunedHistory.Main
import PrunedHistory.Proofs.Ledger.Recording
import PrunedHistory.Proofs.Walk.Recursion
import PrunedHistory.Proofs.Repository.Ancestry
import PrunedHistory.Proofs.Walk.Growth
import PrunedHistory.Proofs.Walk.Turns
import PrunedHistory.Proofs.Walk.Exploring
import PrunedHistory.Proofs.Walk.Sound
import PrunedHistory.Proofs.FirstOccurrences
import PrunedHistory.Proofs.Walk.Expansion
import PrunedHistory.Proofs.Object.Encoding
import PrunedHistory.Proofs.Walk.OwnIds
import PrunedHistory.Proofs.Walk.Slots
import PrunedHistory.Proofs.Walk.Resuming
import PrunedHistory.Proofs.Walk.Contraction
import PrunedHistory.Proofs.NameMaps
import PrunedHistory.Proofs.Publication.Peeling
import PrunedHistory.Proofs.Publication.Retargeting
import PrunedHistory.Proofs.Publication.Branches
import PrunedHistory.Proofs.Publication.Unchanged
import PrunedHistory.Proofs.Publication.Contraction
import PrunedHistory.Proofs.Repository.Addressing
import PrunedHistory.Proofs.Publication.Writing
import PrunedHistory.Proofs.Object.Framing
import PrunedHistory.Proofs.Repository.Filing
import PrunedHistory.Proofs.Walk.Failures
import PrunedHistory.Proofs.Publication.ListedTags
import PrunedHistory.Proofs.Publication.Heads
import PrunedHistory.Proofs.Publication.Republishing
import PrunedHistory.Proofs.Publication.PublishedStore
import PrunedHistory.Proofs.Publication.Idempotence
import PrunedHistory.Proofs.Publication.Novelty
import PrunedHistory.Proofs.Publication.Queries
import PrunedHistory.Proofs.Walk.Agreement
import PrunedHistory.Proofs.Publication.Comparison
import PrunedHistory.Proofs.Publication.Events
import PrunedHistory.Proofs.Publication.LaterRequests
import PrunedHistory.Proofs.Publication.Locality
import PrunedHistory.Proofs.Publication.Reordering
import PrunedHistory.Proofs.Publication.RebuiltChains
import PrunedHistory.Proofs.Publication.RetargetedTags
import PrunedHistory.Proofs.Text.Pieces
import PrunedHistory.Proofs.Object.HeaderGrammar
import PrunedHistory.Proofs.Object.Spelling
import PrunedHistory.Proofs.Object.SignatureGrammar
import PrunedHistory.Proofs.Object.SignatureReading
import PrunedHistory.Proofs.Object.CommitGrammar
import PrunedHistory.Proofs.Object.TagGrammar
import PrunedHistory.Proofs.Object.Identity
import PrunedHistory.Proofs.Publication.Unwrapping
import PrunedHistory.Proofs.Publication.Publishable
import PrunedHistory.Proofs.Publication.Success
import PrunedHistory.Proofs.Publication.Sessions
import PrunedHistory.Proofs.Dialogues
import PrunedHistory.Proofs.Publication.Limits
import PrunedHistory.Proofs.Git.Behaviour
import PrunedHistory.Proofs.Git.Errands
import PrunedHistory.Proofs.Git.Reading
import PrunedHistory.Proofs.Git.EndlessTags
import PrunedHistory.Proofs.Git.Installation
import PrunedHistory.Proofs.Git.Mirroring
import PrunedHistory.Proofs.Git.BranchListing
import PrunedHistory.Proofs.Publication.Completeness
import PrunedHistory.Proofs.Git.Publishing
import PrunedHistory.Proofs.Exits
import PrunedHistory.Proofs.PublishCommand
import PrunedHistory.Proofs.Toml.Strings
import PrunedHistory.Proofs.Toml.Statements
import PrunedHistory.Proofs.Toml.Sections
import PrunedHistory.Proofs.Plans
import PrunedHistory.Proofs.Publication.Reports
import PrunedHistory.Proofs.DefaultPlan
import PrunedHistory.Proofs.Ledger.FirstDecisions
import PrunedHistory.Proofs.Repository.LastChanges
