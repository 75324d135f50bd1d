import Bnfs.TheoryRuns
import Bnfs.TheoryLine
import Bnfs.TheoryStream
import Bnfs.TheoryFileSystem
import Bnfs.TheoryConfined
import Bnfs.TheoryKeyed
import Bnfs.TheoryPaths
import Bnfs.TheoryPrograms
import Bnfs.TheoryHandles
import Bnfs.TheoryVersions
import Bnfs.TheoryAtomic
import Bnfs.TheoryShell
import Bnfs.TheoryTwins
import Bnfs.ModelPosix
import Bnfs.ModelWorld
import Bnfs.ModelServer
import Bnfs.ModelCache
import Bnfs.ModelClient
import Bnfs.ModelFuse
import Bnfs.ModelQueue
import Bnfs.ModelInject
import Bnfs.ModelConfig
import Bnfs.InjectDraws
import Bnfs.ConfigLines
import Bnfs.ClientPlain
import Bnfs.ClientFrames
import Bnfs.ClientRules
import Bnfs.ClientCopies
import Bnfs.UploadBroken
import Bnfs.UploadRejected
import Bnfs.UploadHandlers
import Bnfs.UploadAlone
import Bnfs.UploadLock
import Bnfs.UploadStore
import Bnfs.UploadLastWriter
import Bnfs.UploadStamp
import Bnfs.ClientFlushResult
import Bnfs.ClientOpen
import Bnfs.ClientTimes
import Bnfs.ClientOperations
import Bnfs.ClientCloseToOpen
import Bnfs.ClientFetchRace
import Bnfs.ClientRename
import Bnfs.ClientFlushRace
import Bnfs.ClientOutside
import Bnfs.ClientMounted
import Bnfs.ClientMountRuns
import Bnfs.ClientConcerns
import Bnfs.ClientDirtySet
import Bnfs.ClientDirtyRuns
import Bnfs.ExportPaths
import Bnfs.ClientErrors
import Bnfs.ClientMetadata
import Bnfs.ClientReturns
import Bnfs.ClientQueue
import Bnfs.ClientExclusive
import Bnfs.ServiceHandlers
import Bnfs.ServiceSnapshots
import Bnfs.ServiceCreates
import Bnfs.ServiceAtomic
import Bnfs.ClientRenameSeen
import Bnfs.ClientTwins
import Bnfs.ClientTwinCalls
import Bnfs.ClientLife
import Bnfs.ClientRestart
import Bnfs.ClientTransfers
import Bnfs.ClientOpenCopies
import Bnfs.ClientPending
import Bnfs.ClientLocalState
import Bnfs.ClientFailedFetch
import Bnfs.ClientUninitialised
import Bnfs.ClientTruncation
import Bnfs.ClientDecision
import Bnfs.ClientAttributes
import Bnfs.ClientDelay
import Bnfs.ClientLogged
import Bnfs.ClientBalanced
import Bnfs.ClientConserved
import Bnfs.ClientKeys
import Bnfs.TheoryText
import Bnfs.TheoryBuffers
import Bnfs.ModelIni
import Bnfs.ConfigGrammar
import Bnfs.ConfigParser
import Bnfs.ConfigCalls
import Bnfs.ConfigLayout
import Bnfs.ConfigRoundTrip
import Bnfs.StringCopies
import Bnfs.TheoryLocked
import Bnfs.TheoryMemory
import Bnfs.TheoryTailq
import Bnfs.ModelConfigMemory
import Bnfs.ConfigMemory
import Bnfs.ConfigLoads
import Bnfs.ConfigThreads
import Bnfs.ClientHandles
import Bnfs.ClientOutsideRuns
import Bnfs.ClientCrash
import Bnfs.TheorySessions
import Bnfs.ClientSessions
import Bnfs.ClientUnshared
import Bnfs.ClientFetches
import Bnfs.ClientInjection
