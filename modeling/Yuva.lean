import Yuva.Caps.Lineage
import Yuva.Ipc.Conserve
import Yuva.Store.Durable
import Yuva.Lms.Signer
import Yuva.Wire.Stream
import Yuva.Wire.Assembler
import Yuva.Prov.Torn
import Yuva.Mem.Lockstep
import Yuva.Mem.Audit
import Yuva.Blocks.Record
import Yuva.Kernel.Gates
import Yuva.Kernel.Confine
import Yuva.Ipc.Final
import Yuva.Wire.Transport
import Yuva.Store.Epoch
import Yuva.Heap.Run
import Yuva.Pmm.Run
import Yuva.Pmm.Pvh
import Yuva.Mmu.Spaces
import Yuva.Kernel.Pairwise
import Yuva.Kernel.Unmap
import Yuva.Mmu.Stage2
import Yuva.Kernel.Blocking
import Yuva.El2.Verdict
import Yuva.El2.Serial
import Yuva.Op.Transcript
import Yuva.Vmm.Boot
import Yuva.Peer.Agree
import Yuva.Op.Command
import Yuva.Vmm.Notify
import Yuva.Kernel.Refusals
import Yuva.Mem.Explore
import Yuva.Kernel.Trust
import Yuva.Kernel.Retries
import Yuva.Kernel.Liveness
import Yuva.Kernel.Growth
import Yuva.Store.Faults
import Yuva.Persist.Export
import Yuva.Persist.Durable
import Yuva.Mem.Bernstein
import Yuva.Mem.Value
import Yuva.Mem.Survival
import Yuva.Mem.Propensity
import Yuva.Mmu.UserCopy
import Yuva.Mem.Recall
import Yuva.Mem.Sweep
import Yuva.Mem.Distill
import Yuva.Mem.Reflect
import Yuva.Kernel.Fairness
import Yuva.Vmm.Strict
import Yuva.Boot.Handoff
import Yuva.Mem.Canonical
import Yuva.Wire.Codec
import Yuva.Prov.Slab
import Yuva.Attest.Pae
import Yuva.Hash.Sha256
import Yuva.Hash.Feed
import Yuva.Lms.Total
import Yuva.Ipc.Ring
import Yuva.Mem.Entry
import Yuva.Mem.Activation
import Yuva.Mem.Lexical
import Yuva.Mem.Spline
import Yuva.Heap.Fit
import Yuva.Store.Layout
import Yuva.Hal.Chan
import Yuva.Xport.Live
import Yuva.Telemetry.Histogram
import Yuva.El2.Preempt
import Yuva.El2.Demand
import Yuva.Conduct.Trace
import Yuva.Vmm.Console
import Yuva.Hal.Posted
import Yuva.Heap.Paged
