import Bitcask.Network.Flush
import Bitcask.Network.Refused
import Bitcask.Network.RespGrammar
import Bitcask.Network.Server
import Bitcask.Storage.ActiveFile
import Bitcask.Storage.Arithmetic
import Bitcask.Storage.Backlog
import Bitcask.Storage.Damage
import Bitcask.Storage.Failures
import Bitcask.Storage.Hints
import Bitcask.Storage.Histories
import Bitcask.Storage.Linearize
import Bitcask.Storage.LockFile
import Bitcask.Storage.MergeRun
import Bitcask.Storage.TextDir
import Bitcask.Storage.Oversize
import Bitcask.Storage.Poisoned
import Bitcask.Storage.Processes
import Bitcask.Storage.Promises
import Bitcask.Storage.Quiescence
import Bitcask.Storage.Reopen
import Bitcask.Storage.Spent
import Bitcask.Storage.Sync
import Bitcask.Storage.Tiling
import Bitcask.Network.Streams
