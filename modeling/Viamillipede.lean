import Viamillipede.Transition
import Viamillipede.Lock
import Viamillipede.Pipe
import Viamillipede.Bytes
import Viamillipede.PrefixCode
import Viamillipede.Lanes
import Viamillipede.Packet
import Viamillipede.Mix
import Viamillipede.MixDetection
import Viamillipede.Checksum
import Viamillipede.Prbs
import Viamillipede.PrbsDetection
import Viamillipede.Stopwatch
import Viamillipede.Tx
import Viamillipede.Numeral
import Viamillipede.Arguments
import Viamillipede.ArgumentsGrammar
import Viamillipede.ArgumentsSafety
import Viamillipede.Bufferfill
import Viamillipede.BufferfillErrno
import Viamillipede.TxControl
import Viamillipede.TxLaunch
import Viamillipede.TxStates
import Viamillipede.TxDispatch
import Viamillipede.TxIngest
import Viamillipede.TxPush
import Viamillipede.LockTrace
import Viamillipede.TxConnect
import Viamillipede.TxTargets
import Viamillipede.TxLocks
import Viamillipede.TxLog
import Viamillipede.TxFollows
import Viamillipede.TxShutdown
import Viamillipede.TxHandover
import Viamillipede.TxPoll
import Viamillipede.Rx
import Viamillipede.Handshake
import Viamillipede.RxControl
import Viamillipede.RxLaunch
import Viamillipede.Exclusion
import Viamillipede.RxSequencer
import Viamillipede.RxOrder
import Viamillipede.RxFraming
import Viamillipede.RxPayload
import Viamillipede.RxPrbs
import Viamillipede.RxValidation
import Viamillipede.Startup
import Viamillipede.StartupGuard
import Viamillipede.StartupEndpoints
import Viamillipede.Session
import Viamillipede.SessionLink
import Viamillipede.SessionOrder
import Viamillipede.SessionOutput
import Viamillipede.SessionQueue
import Viamillipede.SessionDrop
import Viamillipede.SessionAlive
import Viamillipede.SessionChecksum
import Viamillipede.SessionMeet
import Viamillipede.SessionRank
import Viamillipede.SessionRest
import Viamillipede.SessionFinish
import Viamillipede.SessionPrbs
import Viamillipede.SessionExclusive
import Viamillipede.SessionExit
import Viamillipede.SessionPipe
import Viamillipede.SessionBacklog
import Viamillipede.SessionDelivery
import Viamillipede.MainLoop
