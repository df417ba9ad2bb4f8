import MidnightRs.Replay
import MidnightRs.JournalChain
import MidnightRs.Ownership
import MidnightRs.CompactLayout
import MidnightRs.Lifecycle
import MidnightRs.LedgerStreams
import MidnightRs.UnshieldedSet
import MidnightRs.Storage
import MidnightRs.JournalRaces
import MidnightRs.SplitRuns
import MidnightRs.PinnedRuns
import MidnightRs.Completions
import MidnightRs.Checkpoints
import MidnightRs.Crossings
import MidnightRs.ResyncCommits
import MidnightRs.Deadlines
import MidnightRs.Exports
import MidnightRs.Balances
import MidnightRs.Bindings
import MidnightRs.Casts
import MidnightRs.AnalyzedParser
import MidnightRs.TypeRuns
import MidnightRs.JournalOrder
import MidnightRs.Rollbacks
import MidnightRs.ImportCommits
import MidnightRs.FeeBalancing
import MidnightRs.NumberCasts
import MidnightRs.ByteArrays
import MidnightRs.SortedMaps
import MidnightRs.UnshieldedDeposits
import MidnightRs.MaintenanceBatches
import MidnightRs.TypedState
import MidnightRs.InitialStates
import MidnightRs.LedgerLists
import MidnightRs.KeyResolver
import MidnightRs.StateConversions
import MidnightRs.TypedValues
import MidnightRs.DataTypes
import MidnightRs.Pairs
import MidnightRs.Congruences
import MidnightRs.Transcripts
import MidnightRs.BindingScopes
import MidnightRs.SequenceLiterals
import MidnightRs.Utf8Text
import MidnightRs.SexpReader
import MidnightRs.SexpTotality
import MidnightRs.SexpPrinting
import MidnightRs.SexpRoundTrip
import MidnightRs.CoinRegistrations
import MidnightRs.SharedWallet
import MidnightRs.Committees
import MidnightRs.StoredReservations
import MidnightRs.InstructionForms
import MidnightRs.ShieldedCalls
import MidnightRs.CallJournals
import MidnightRs.EmitExactness
import MidnightRs.Keepalives
import MidnightRs.Runners
import MidnightRs.Settlements
import MidnightRs.BackgroundSyncs
import MidnightRs.ProofRequests
import MidnightRs.Provisioning
import MidnightRs.WitnessAdapters
import MidnightRs.LiveReservations
import MidnightRs.TranscriptReplays
import MidnightRs.DeployOffers
import MidnightRs.Governance
