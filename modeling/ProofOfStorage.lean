import ProofOfStorage.FoundationFaults
import ProofOfStorage.FoundationRuns
import ProofOfStorage.FoundationPanics
import ProofOfStorage.FoundationInteraction
import ProofOfStorage.FoundationProcesses
import ProofOfStorage.FoundationInterleaving
import ProofOfStorage.FoundationSerialRuns
import ProofOfStorage.FoundationIterators
import ProofOfStorage.FoundationSlices
import ProofOfStorage.FoundationInnerProducts
import ProofOfStorage.FoundationMerkleTrees
import ProofOfStorage.FoundationTreeWalks
import ProofOfStorage.FoundationNumerals
import ProofOfStorage.FoundationPolynomials
import ProofOfStorage.FoundationReedSolomon
import ProofOfStorage.FoundationLinearLists
import ProofOfStorage.FoundationPositionalFiles
import ProofOfStorage.FoundationBufReaders
import ProofOfStorage.CommitmentTypes
import ProofOfStorage.CommitmentMerkle
import ProofOfStorage.CommitmentWire
import ProofOfStorage.CommitmentSerialTree
import ProofOfStorage.CommitmentProof
import ProofOfStorage.CommitmentCollapse
import ProofOfStorage.CommitmentCompleteness
import ProofOfStorage.CommitmentLowDegree
import ProofOfStorage.CommitmentOpenings
import ProofOfStorage.CommitmentBinding
import ProofOfStorage.CommitmentPanics
import ProofOfStorage.BrakedownEncode
import ProofOfStorage.BrakedownDimensions
import ProofOfStorage.BrakedownCommitment
import ProofOfStorage.LigeroCommitment
import ProofOfStorage.OnlineColumns
import ProofOfStorage.OnlineChecks
import ProofOfStorage.OnlineRequests
import ProofOfStorage.OnlineAgreement
import ProofOfStorage.OnlineEvaluation
import ProofOfStorage.OnlinePolynomials
import ProofOfStorage.OnlineCodewords
import ProofOfStorage.OnlineSoundness
import ProofOfStorage.FileFields
import ProofOfStorage.FileReads
import ProofOfStorage.FileRetrieval
import ProofOfStorage.FileFieldLimbs
import ProofOfStorage.FileDigests
import ProofOfStorage.FileRows
import ProofOfStorage.FileWriter
import ProofOfStorage.FileWriterRuns
import ProofOfStorage.FileStreams
import ProofOfStorage.FileReader
import ProofOfStorage.FileDecoding
import ProofOfStorage.FileHandling
import ProofOfStorage.FileHandlingRuns
import ProofOfStorage.FileCapacity
import ProofOfStorage.FileEdits
import ProofOfStorage.FileOpenings
import ProofOfStorage.FileColumns
import ProofOfStorage.FileCombination
import ProofOfStorage.FileRecords
import ProofOfStorage.FilePersistence
import ProofOfStorage.FilePersistenceRuns
import ProofOfStorage.FileContents
import ProofOfStorage.FileProofs
import ProofOfStorage.FileMirrors
import ProofOfStorage.FileResizing
import ProofOfStorage.NetworkMessages
import ProofOfStorage.NetworkServer
import ProofOfStorage.NetworkClient
import ProofOfStorage.NetworkUpdates
import ProofOfStorage.NetworkUploads
import ProofOfStorage.NetworkDownloads
import ProofOfStorage.NetworkVersions
import ProofOfStorage.NetworkRecords
import ProofOfStorage.NetworkAuthentication
import ProofOfStorage.NetworkEvaluations
import ProofOfStorage.NetworkExchanges
import ProofOfStorage.NetworkReshapes
import ProofOfStorage.NetworkMetadata
import ProofOfStorage.NetworkIntegrity
import ProofOfStorage.NetworkConnections
import ProofOfStorage.NetworkAtomicity
import ProofOfStorage.NetworkInterleavings
import ProofOfStorage.NetworkBookkeeping
import ProofOfStorage.NetworkAccounts
import ProofOfStorage.NetworkDeletions
import ProofOfStorage.NetworkRoundTrips
