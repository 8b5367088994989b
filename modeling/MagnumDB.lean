import MagnumDB.Proof.InsertKeepsTree
import MagnumDB.Workload.Refinement
import MagnumDB.Workload.Ownership
import MagnumDB.Proof.MetaPage
import MagnumDB.Proof.TornLog
import MagnumDB.Workload.TornPages
import MagnumDB.Proof.AlwaysReopens
import MagnumDB.Proof.CrashAtomicity
import MagnumDB.Proof.CheckpointSkip
import MagnumDB.Proof.ReplayOrder
import MagnumDB.Workload.CloseReopen
import MagnumDB.Workload.LostUpdate
import MagnumDB.Proof.Isolation
import MagnumDB.Proof.CommitAtomicity
import MagnumDB.Proof.DdlRollback
import MagnumDB.Proof.Connection
import MagnumDB.Proof.IndexPath
import MagnumDB.Proof.SystemKeys
import MagnumDB.Proof.RowKeys
import MagnumDB.Proof.TableText
import MagnumDB.Proof.Duplicates
import MagnumDB.Proof.PoolRace
import MagnumDB.Proof.Keywords
import MagnumDB.Proof.Literals
import MagnumDB.Proof.NoPanic
import MagnumDB.Proof.SchemaStores
import MagnumDB.Proof.NodePages
import MagnumDB.Proof.OverflowChains
import MagnumDB.Proof.InlineValues
import MagnumDB.Workload.DeleteChain
import MagnumDB.Proof.PagerFreeList
import MagnumDB.Workload.FailedInsert
import MagnumDB.Proof.HashOperators
import MagnumDB.Proof.CellOrder
import MagnumDB.Proof.Wire
import MagnumDB.Proof.Postings
import MagnumDB.Proof.Sessions
