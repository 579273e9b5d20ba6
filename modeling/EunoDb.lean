import EunoDb.Rcu
import EunoDb.Recycling
import EunoDb.BufferNode
import EunoDb.Handoff
import EunoDb.SnapshotThread
import EunoDb.DurableNumber
import EunoDb.SerialAnswers
import EunoDb.TxSerializability
import EunoDb.ObjectPool
import EunoDb.HashChain
import EunoDb.RWLock
import EunoDb.CommitAccounting
import EunoDb.MemStoreLockFree
import EunoDb.LockfreeSkipList
import EunoDb.FineGrainSafety
import EunoDb.AloneCommits
import EunoDb.SecondaryCalls
import EunoDb.SeekPrev
import EunoDb.TXSkiplistLookups
import EunoDb.TXLeveldb
import EunoDb.LogReservation
import EunoDb.RMQueue
import EunoDb.HashResize
import EunoDb.Ccm
import EunoDb.RtmArena
import EunoDb.ReadSetArrays
import EunoDb.SortWS
