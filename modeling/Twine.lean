import Twine.BarrierAtomicity
import Twine.BarrierTermination
import Twine.CondVarLedger
import Twine.EvlChannels
import Twine.EvlShutdown
import Twine.PoolConservation
import Twine.PoolIsolation
import Twine.PoolLifetimes
import Twine.PoolLockstep
import Twine.PoolMemory
import Twine.RtNotify
import Twine.PoolTermination
import Twine.PoolReturns
import Twine.PoolCores
import Twine.PoolWorkgroups
import Twine.ThreadHandles
import Twine.PoolPlacement
import Twine.CondVarRetries
import Twine.CondVarCreation
import Twine.EvlCondVar
import Twine.EvlElements
import Twine.EvlDestructor
import Twine.XenomaiCondVar
import Twine.StdCondVar
import Twine.PosixCondVar
import Twine.SemaphoreNames
import Twine.IdThreads
import Twine.IsolatedCores
import Twine.CondVarIds
import Twine.PoolFused
import Twine.PoolAddWorker
import Twine.PoolTokens
import Twine.PoolBooks
import Twine.PoolShutdown
import Twine.PoolProgress
import Twine.PoolRounds
