import AtomicCommit.Cluster.Run
import AtomicCommit.Log.Lawful
import AtomicCommit.Log.Ledger
import AtomicCommit.Deeds
import AtomicCommit.Proofs.Coordinator.Run
import AtomicCommit.Proofs.Participant.Run
import AtomicCommit.Proofs.System
import AtomicCommit.Proofs.Coordinator.Moves
import AtomicCommit.Proofs.Coordinator.Recovering
import AtomicCommit.Proofs.Histories
import AtomicCommit.Proofs.Coordinator.WriteAhead
import AtomicCommit.Proofs.Coordinator.Play
import AtomicCommit.Proofs.Utf8
import AtomicCommit.Proofs.Json.Strings
import AtomicCommit.Proofs.Json.Lists
import AtomicCommit.Proofs.Wire
import AtomicCommit.Proofs.Tolerance
import AtomicCommit.Proofs.Coordinator.Consistent
import AtomicCommit.Proofs.Participant.Handled
import AtomicCommit.Proofs.Locks
import AtomicCommit.Proofs.Participant.Recovering
import AtomicCommit.Proofs.Participant.Informed
import AtomicCommit.Proofs.Participant.Restoring
import AtomicCommit.Proofs.Participant.Consistent
import AtomicCommit.Proofs.Participant.Grounded
import AtomicCommit.Proofs.Delivery
import AtomicCommit.Proofs.Participant.Play
import AtomicCommit.Proofs.Play
import AtomicCommit.Proofs.Agreement
import AtomicCommit.Proofs.Sources
import AtomicCommit.Proofs.Coordinator.Votes
import AtomicCommit.Proofs.Participant.Exclusion
import AtomicCommit.Proofs.Validity
import AtomicCommit.Proofs.Coordinator.Completion
import AtomicCommit.Proofs.Coordinator.Published
import AtomicCommit.Proofs.Coordinator.Incarnations
import AtomicCommit.Proofs.Applied
import AtomicCommit.Proofs.Participant.Locking
import AtomicCommit.Proofs.Participant.Repeats
import AtomicCommit.Proofs.Participant.FailedVotes
import AtomicCommit.Proofs.Participant.Retries
import AtomicCommit.Proofs.Participant.Interleaving
import AtomicCommit.Proofs.Reordering
import AtomicCommit.Proofs.Participant.LogForm
import AtomicCommit.Proofs.Participant.Decisions
import AtomicCommit.Proofs.Participant.AtRest
import AtomicCommit.Proofs.Participant.Interrupted
import AtomicCommit.Proofs.Participant.Lockstep
import AtomicCommit.Proofs.Coordinator.Compaction
import AtomicCommit.Proofs.Log.Torn
import AtomicCommit.Proofs.Log.Readable
import AtomicCommit.Proofs.Log.Sessions
import AtomicCommit.Proofs.Log.Kept
import AtomicCommit.Proofs.Queues
import AtomicCommit.Proofs.Conservation
import AtomicCommit.Proofs.Coordinator.LogForm
import AtomicCommit.Proofs.Coordinator.InFlight
import AtomicCommit.Proofs.Cluster.Serialized
import AtomicCommit.Proofs.Coordinator.Requests
import AtomicCommit.Proofs.Coordinator.Announcement
import AtomicCommit.Proofs.Grants
import AtomicCommit.Proofs.Publication
import AtomicCommit.Proofs.Cluster.Starts
import AtomicCommit.Proofs.Cluster.Rejections
