import Ygm.Random.Item
import Ygm.Random.Balance
import Ygm.Random.Blocks
import Ygm.Random.Vose
import Ygm.Random.AliasTable
import Ygm.Container.QueuePolicy
import Ygm.Container.WorkQueue
import Ygm.Container.Barrier
import Ygm.Container.Ledger
import Ygm.Container.Callbacks
