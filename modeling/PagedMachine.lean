import PagedMachine.Block.Lemmas
import PagedMachine.Bytes.Lemmas
import PagedMachine.Compression.Stored
import PagedMachine.Machine.Lemmas
import PagedMachine.Main
import PagedMachine.PageCache.Lemmas
import PagedMachine.Proofs.BlockSearch
import PagedMachine.Proofs.BlockStores
import PagedMachine.Proofs.BoundedMap
import PagedMachine.Proofs.Bounds
import PagedMachine.Proofs.Budget
import PagedMachine.Proofs.CheckedRange
import PagedMachine.Proofs.Chunks
import PagedMachine.Proofs.Clock
import PagedMachine.Proofs.Confinement
import PagedMachine.Proofs.DemandPaging
import PagedMachine.Proofs.Descriptors
import PagedMachine.Proofs.Expiry
import PagedMachine.Proofs.FastPath
import PagedMachine.Proofs.Keystrokes
import PagedMachine.Proofs.Loading
import PagedMachine.Proofs.Located
import PagedMachine.Proofs.Nesting
import PagedMachine.Proofs.OnePage
import PagedMachine.Proofs.Outdated
import PagedMachine.Proofs.Provenance
import PagedMachine.Proofs.Restart
import PagedMachine.Proofs.SnapshotCodec
import PagedMachine.Proofs.SnapshotTransparency
import PagedMachine.Proofs.StackDiscipline
import PagedMachine.Proofs.StoreLoad
import PagedMachine.Proofs.Traces
import PagedMachine.Proofs.Transparency
import PagedMachine.Proofs.UserReads
import PagedMachine.Proofs.UserWrites
import PagedMachine.Proofs.WalkOrder
import PagedMachine.Ram.Lemmas
import PagedMachine.Step.Lemmas
import PagedMachine.Tlb.Lemmas
import PagedMachine.Trap.Lemmas
