import DelegateProtocol.Lib.StepMachine
import DelegateProtocol.Lib.KeyedTable
import DelegateProtocol.Lib.AppendLog
import DelegateProtocol.Lib.PyInt
import DelegateProtocol.Lib.Uuid
import DelegateProtocol.Lib.Base64
import DelegateProtocol.Lib.Sha256
import DelegateProtocol.Lib.Reassembly
import DelegateProtocol.ChunkedTransfer
import DelegateProtocol.Lib.WovenTransfers
import DelegateProtocol.Streams
import DelegateProtocol.Handlers
import DelegateProtocol.WatchExecution
import DelegateProtocol.ReadingOrder
import DelegateProtocol.TerminalStatus
import DelegateProtocol.Transfers
import DelegateProtocol.OverlappingTransfers
import DelegateProtocol.OutputIntegrity
import DelegateProtocol.JunkMessages
import DelegateProtocol.RedisOutages
import DelegateProtocol.Announcements
import DelegateProtocol.WatcherThreads
import DelegateProtocol.AclReconciliation
import DelegateProtocol.Confinement
import DelegateProtocol.ExecutionIntegrity
import DelegateProtocol.Worker
import DelegateProtocol.Deliveries
import DelegateProtocol.ExecutionLogs
import DelegateProtocol.Restarts
import DelegateProtocol.StreamCleanup
import DelegateProtocol.Agreement
import DelegateProtocol.Lib.Unwinding
import DelegateProtocol.OneDelivery
import DelegateProtocol.RegistrationTokens
import DelegateProtocol.RestartGateway
import DelegateProtocol.RevokedChannels
import DelegateProtocol.Lib.PosixPath
import DelegateProtocol.WorkspaceFixtures
import DelegateProtocol.ReaderAgreement
import DelegateProtocol.WorkspaceReception
import DelegateProtocol.TaskEndings
import DelegateProtocol.JsonBodies
import DelegateProtocol.DelegateRegistration
import DelegateProtocol.ExecutionCreation
import DelegateProtocol.Lib.ZipArchive
import DelegateProtocol.WorkspaceReconstruction
import DelegateProtocol.Lib.LinkedFiles
import DelegateProtocol.LinkedFixtures
import DelegateProtocol.Lib.Glob
import DelegateProtocol.AclScope
import DelegateProtocol.LoneReconciliation
import DelegateProtocol.ReceiverDeadlines
import DelegateProtocol.PreparedWorkspaces
import DelegateProtocol.Lib.FileWrites
import DelegateProtocol.Certificates
import DelegateProtocol.WorkerRegistration
import DelegateProtocol.CertificateFiles
import DelegateProtocol.AgentManager
import DelegateProtocol.RestartChannel
import DelegateProtocol.RestartRounds
import DelegateProtocol.Greetings
import DelegateProtocol.RestartRecovery
import DelegateProtocol.OvertakenChannels
import DelegateProtocol.Lib.SavedCopies
import DelegateProtocol.AclPersistence
import DelegateProtocol.AclDurability
import DelegateProtocol.AclRecovery
import DelegateProtocol.Lib.SerialTransfers
import DelegateProtocol.CatchingUp
import DelegateProtocol.UnfinishedDeliveries
import DelegateProtocol.OverlappingDeliveries
import DelegateProtocol.FreshDelivery
import DelegateProtocol.SharedRedis
import DelegateProtocol.Enrolment
import DelegateProtocol.Lib.Ledgers
import DelegateProtocol.RevokedRequests
import DelegateProtocol.TaskDelivery
