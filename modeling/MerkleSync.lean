import MerkleSync.Replica
import MerkleSync.Sample
import MerkleSync.Store.Schema
import MerkleSync.Proofs.ByteMapLookup
import MerkleSync.Proofs.ItemRoundTrip
import MerkleSync.Proofs.KeyRange
import MerkleSync.Proofs.RecordRoundTrip
import MerkleSync.Proofs.RecordGrammar
import MerkleSync.Proofs.Canonical
import MerkleSync.Proofs.Coherence
import MerkleSync.Proofs.MutationEffect
import MerkleSync.Proofs.IdentOrder
import MerkleSync.Proofs.QueryMeaning
import MerkleSync.Proofs.History
import MerkleSync.Proofs.HistoryIndependence
import MerkleSync.Proofs.SetRefinement
import MerkleSync.Proofs.SnapshotMeaning
import MerkleSync.Proofs.RefusedCommits
import MerkleSync.Proofs.PathWrites
import MerkleSync.Proofs.NamespaceReads
import MerkleSync.Proofs.NamespaceIsolation
import MerkleSync.Proofs.DigestBinding
import MerkleSync.Proofs.Agreement
import MerkleSync.Proofs.Divergence
import MerkleSync.Proofs.FewIdentifiers
import MerkleSync.Proofs.Reconciliation
import MerkleSync.Proofs.SetBinding
import MerkleSync.Proofs.DivergenceCut
import MerkleSync.Proofs.IntegrityMeaning
import MerkleSync.Proofs.DamagedMutations
import MerkleSync.Proofs.DamagedListings
import MerkleSync.Proofs.ConcurrentWrites
import MerkleSync.Proofs.HostilePeer
import MerkleSync.Proofs.RelayedAnswers
import MerkleSync.Proofs.WalkDifferences
import MerkleSync.Proofs.Convergence
import MerkleSync.Proofs.ExactInsertions
import MerkleSync.Proofs.ErrorTexts
import MerkleSync.Proofs.ItemLength
import MerkleSync.Proofs.MessageRoundTrip
import MerkleSync.Proofs.MessageLimits
import MerkleSync.Proofs.MessageSize
import MerkleSync.Proofs.RemoteAnswers
import MerkleSync.Proofs.IdentTime
import MerkleSync.Proofs.DatabaseStore
import MerkleSync.Proofs.TimedSessions
import MerkleSync.Store.Database
import MerkleSync.Proofs.DatabaseStore
import MerkleSync.Proofs.SchemaMigration
