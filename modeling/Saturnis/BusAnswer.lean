/-
What the bus answers, whatever the time.

The response to an operation and its effect on memory and devices do not depend
on when it is granted, the log of device writes aside (`answer`).  Two arbiters
that agree outside some bytes answer alike every operation that does not read
one of these bytes.

* `read_write_self`, `read_write_apart` — reads after a write;
* `commit_answer` — a commit in request order is the answer;
* `SameBus.answer` — agreeing arbiters answer alike;
* `SameBus.commit` — and they still agree after the commit.
-/
import Saturnis.ArbiterCore
import Saturnis.ByteStore

namespace Saturnis

open Saturnis.Core Saturnis.Mem

namespace Dev.DeviceHub

/-- The devices without the log of their writes. -/
def unlogged (d : DeviceHub) : DeviceHub := { d with writes := [] }

theorem store_unlogged (d : DeviceHub) (addr : Addr) (size : Nat) (value : Word) :
    (d.store addr size value).unlogged = d.unlogged.store addr size value := by
  rw [store, store]
  simp only [apply_ite unlogged]
  rfl

theorem write_unlogged (d : DeviceHub) (t : Nat) (cpu : Int) (addr : Addr) (size : Nat)
    (value : Word) : (d.write t cpu addr size value).unlogged = d.unlogged.store addr size value :=
  store_unlogged _ addr size value

end Dev.DeviceHub

namespace Mem.CommittedMemory

variable {a b : CommittedMemory} {phys : Addr} {n : Nat}

theorem sub_add_ofNat_lt {i : Nat} (phys : Addr) (hi : i < n) :
    (phys + BitVec.ofNat 32 i - phys).toNat < n := by
  rw [BitVec.add_comm, BitVec.add_sub_cancel, BitVec.toNat_ofNat]
  exact Nat.lt_of_le_of_lt (Nat.mod_le _ _) hi

theorem read_congr (hsize : a.size = b.size)
    (h : ∀ addr, (addr - phys).toNat < n → a.byteAt addr = b.byteAt addr) :
    a.read phys n = b.read phys n := by
  rw [read, read, hsize]
  split
  · rw [assemble_eq_wordOf, assemble_eq_wordOf]
    refine congrArg wordOf (List.map_congr_left fun i hi => ?_)
    exact h _ (sub_add_ofNat_lt phys (List.mem_range.mp hi))
  · rfl

theorem readBlock_congr (hsize : a.size = b.size)
    (h : ∀ addr, (addr - phys).toNat < n → a.byteAt addr = b.byteAt addr) :
    a.readBlock phys n = b.readBlock phys n := by
  rw [readBlock, readBlock, hsize]
  split
  · refine List.map_congr_left fun i hi => ?_
    exact h _ (sub_add_ofNat_lt phys (List.mem_range.mp hi))
  · rfl

theorem write_congr (hsize : a.size = b.size) (hn : n ≤ 2 ^ 32) (value : Word) {addr : Addr}
    (h : a.byteAt addr = b.byteAt addr) :
    (a.write phys n value).byteAt addr = (b.write phys n value).byteAt addr := by
  rw [write_byteAt a phys hn, write_byteAt b phys hn, refStore, refStore, hsize]
  by_cases hin : Inside b.size phys n
  · rw [if_pos hin, if_pos hin]
    show (if _ then _ else _) = if _ then _ else _
    rw [h]
  · rw [if_neg hin, if_neg hin, h]

/-- What has been written is read back. -/
theorem read_write_self {m : CommittedMemory} (h : Inside m.size phys 4) (value : Word) :
    (m.write phys 4 value).read phys 4 = value := by
  rw [read, size_write, if_pos (accessInRange_of_inside h), assemble_eq_iff (by decide)]
  refine ⟨value.isLt, fun i hi => ?_⟩
  rw [write_byteAt m phys (by omega), refStore, if_pos h, toNat_add_ofNat_sub phys (by omega),
    if_pos hi]

theorem byteAt_write_apart (m : CommittedMemory) {k : Nat} (hk : k ≤ 2 ^ 32) (value : Word)
    {addr other : Addr} (h : k ≤ (addr - other).toNat) :
    (m.write other k value).byteAt addr = m.byteAt addr := by
  rw [write_byteAt m other hk, refStore]
  split
  · exact if_neg (Nat.not_lt.mpr h)
  · rfl

/-- A read apart from what is written. -/
theorem read_write_apart (m : CommittedMemory) {k : Nat} (hk : k ≤ 2 ^ 32) (value : Word)
    {other : Addr} (h : ∀ addr : Addr, (addr - phys).toNat < n → k ≤ (addr - other).toNat) :
    (m.write other k value).read phys n = m.read phys n :=
  read_congr (size_write m other k value) fun addr haddr =>
    byteAt_write_apart m hk value (h addr haddr)

end Mem.CommittedMemory

namespace Bus

open Saturnis.Dev

/-- The operation without its place in time. -/
def BusOp.untimed (op : BusOp) : BusOp := { op with reqTime := 0, sequence := 0 }

/-- The operation reads the byte of the address from memory. -/
def BusOp.reads (op : BusOp) (addr : Addr) : Prop :=
  (op.kind = .iFetch ∨ op.kind = .read) ∧ isMmio op.physAddr = false ∧
    ((addr - op.physAddr).toNat < op.size ∨
      (op.fillCacheLine = true ∧
        (addr - op.physAddr / BitVec.ofNat 32 op.cacheLineSize *
          BitVec.ofNat 32 op.cacheLineSize).toNat < op.cacheLineSize))

namespace BusArbiter

variable {arb a b : BusArbiter} {op x y : BusOp} {D : Addr → Prop}

/-- What can be seen of an effect later. -/
def Effect.unlogged (effect : Effect) : Effect := { effect with devices := effect.devices.unlogged }

theorem perform_unlogged (arb : BusArbiter) (op : BusOp) (finish finish' : Nat) :
    (arb.perform op finish).unlogged = (arb.perform op finish').unlogged := by
  unfold perform
  split_ifs
  · rfl
  · rw [Effect.unlogged, Effect.unlogged]
    simp only [DeviceHub.write_unlogged]
  · rfl
  · rfl
  · rfl
  · rfl

/-- An operation that is not answered by memory or a device. -/
def refusal (arb : BusArbiter) : Effect := ⟨arb.memory, arb.devices, kInvalidBusOpValue, 0, []⟩

/-- The answer to an operation that is in request order. -/
def answer (arb : BusArbiter) (op : BusOp) : Effect :=
  if arb.trace.shouldHalt ∨ validateBusOp op ≠ .none then arb.refusal else arb.perform op 0

/-- Nothing later than `t` has been asked for by the producer. -/
def Ordered (arb : BusArbiter) (slot : Fin 3) (t : Nat) : Prop :=
  (arb.producerSeen slot = true → arb.producerLastReqTime slot ≤ t) ∧
    (arb.producerEnqueuedSeen slot = true → arb.producerLastEnqueuedReqTime slot ≤ t)

/-- The answer as the response and the arbiter after it show it. -/
def shown (out : BusArbiter × BusResponse) : Effect :=
  ⟨out.1.memory, out.1.devices, out.2.value, out.2.lineBase, out.2.lineData⟩

theorem commit_of_halted (h : arb.trace.shouldHalt = true) :
    arb.commit op =
      (arb, ⟨kInvalidBusOpValue, 0, arb.busFreeTime, arb.busFreeTime, 0, []⟩) := by
  rw [commit, if_pos h]

/-- The arbiter once the enqueue contract has let the operation through. -/
def letThrough (arb : BusArbiter) (op : BusOp) : BusArbiter :=
  { arb with
    producerEnqueuedSeen := Function.update arb.producerEnqueuedSeen (producerSlot op) true
    producerLastEnqueuedReqTime :=
      Function.update arb.producerLastEnqueuedReqTime (producerSlot op) op.reqTime }

theorem commit_of_ordered (hrun : arb.trace.shouldHalt = false)
    (h : arb.Ordered (producerSlot op) op.reqTime) :
    arb.commit op = (arb.letThrough op).executeCommit op false := by
  have hcontract : arb.validateEnqueueContract op = (arb.letThrough op, true) := by
    simp only [validateEnqueueContract]
    rw [if_neg]
    · rfl
    · rintro ⟨hseen, hlt⟩
      exact Nat.not_lt.mpr (h.2 hseen) hlt
  rw [commit, if_neg (by simp [hrun]), hcontract]

theorem commit_of_valid (hrun : arb.trace.shouldHalt = false)
    (h : arb.Ordered (producerSlot op) op.reqTime) (hvalid : validateBusOp op = .none) :
    arb.commit op = (arb.letThrough op).grant op false := by
  rw [commit_of_ordered hrun h]
  refine executeCommit_of_accepts ?_
  rw [accepts, Bool.and_eq_true, decide_eq_true_eq, Bool.not_eq_true', Bool.and_eq_false_iff]
  refine ⟨hvalid, ?_⟩
  by_cases hseen : arb.producerSeen (producerSlot op) = true
  · exact Or.inr (decide_eq_false (Nat.not_lt.mpr (h.1 hseen)))
  · exact Or.inl (Bool.eq_false_iff.mpr hseen)

theorem commit_of_invalid (hrun : arb.trace.shouldHalt = false)
    (h : arb.Ordered (producerSlot op) op.reqTime) (hvalid : validateBusOp op ≠ .none) :
    arb.commit op = (arb.letThrough op).faultResponse op ((arb.letThrough op).startTime op)
      "INVALID_BUS_OP" (invalidDetail op) := by
  rw [commit_of_ordered hrun h, executeCommit, if_pos hvalid]

/-- A commit in request order shows the answer. -/
theorem commit_answer (h : arb.Ordered (producerSlot op) op.reqTime) :
    (shown (arb.commit op)).unlogged = (arb.answer op).unlogged := by
  by_cases hrun : arb.trace.shouldHalt = true
  · rw [commit_of_halted hrun, answer, if_pos (Or.inl hrun)]
    rfl
  · by_cases hvalid : validateBusOp op = .none
    · rw [commit_of_valid (Bool.eq_false_iff.mpr hrun) h hvalid, answer,
        if_neg (by simp [hrun, hvalid])]
      exact perform_unlogged (arb.letThrough op) op _ 0
    · rw [commit_of_invalid (Bool.eq_false_iff.mpr hrun) h hvalid, answer,
        if_pos (Or.inr hvalid)]
      rfl

theorem commit_haltOnFault (h : arb.Ordered (producerSlot op) op.reqTime) :
    (arb.commit op).1.trace.haltOnFault = arb.trace.haltOnFault := by
  by_cases hrun : arb.trace.shouldHalt = true
  · rw [commit_of_halted hrun]
  · by_cases hvalid : validateBusOp op = .none
    · rw [commit_of_valid (Bool.eq_false_iff.mpr hrun) h hvalid]
      rfl
    · rw [commit_of_invalid (Bool.eq_false_iff.mpr hrun) h hvalid]
      rfl

theorem commit_shouldHalt (h : arb.Ordered (producerSlot op) op.reqTime) :
    (arb.commit op).1.trace.shouldHalt =
      (arb.trace.shouldHalt || (decide (validateBusOp op ≠ .none) && arb.trace.haltOnFault)) := by
  by_cases hrun : arb.trace.shouldHalt = true
  · rw [commit_of_halted hrun, hrun]
    rfl
  · have hfalse := Bool.eq_false_iff.mpr hrun
    by_cases hvalid : validateBusOp op = .none
    · rw [commit_of_valid hfalse h hvalid, grant_shouldHalt, hvalid]
      show arb.trace.shouldHalt = _
      simp [hfalse]
    · rw [commit_of_invalid hfalse h hvalid]
      show (arb.trace.haltOnFault || arb.trace.shouldHalt) = _
      rw [hfalse, decide_eq_true hvalid, Bool.true_and, Bool.or_false, Bool.false_or]

theorem commit_ordered (h : arb.Ordered (producerSlot op) op.reqTime) {t : Nat}
    (ht : op.reqTime ≤ t) : (arb.commit op).1.Ordered (producerSlot op) t := by
  by_cases hrun : arb.trace.shouldHalt = true
  · rw [commit_of_halted hrun]
    exact ⟨fun hseen => Nat.le_trans (h.1 hseen) ht, fun hseen => Nat.le_trans (h.2 hseen) ht⟩
  · have hfalse := Bool.eq_false_iff.mpr hrun
    by_cases hvalid : validateBusOp op = .none
    · rw [commit_of_valid hfalse h hvalid]
      refine ⟨fun _ => ?_, fun _ => ?_⟩
      · show Function.update arb.producerLastReqTime (producerSlot op) op.reqTime _ ≤ t
        rw [Function.update_self]
        exact ht
      · show Function.update arb.producerLastEnqueuedReqTime (producerSlot op) op.reqTime _ ≤ t
        rw [Function.update_self]
        exact ht
    · rw [commit_of_invalid hfalse h hvalid]
      refine ⟨fun hseen => Nat.le_trans (h.1 hseen) ht, fun _ => ?_⟩
      show Function.update arb.producerLastEnqueuedReqTime (producerSlot op) op.reqTime _ ≤ t
      rw [Function.update_self]
      exact ht

/-! ### Agreement -/

/-- Memories that agree outside `D`, and the same devices. -/
structure SameStore (D : Addr → Prop) (a b : Effect) : Prop where
  size : a.memory.size = b.memory.size
  bytes : ∀ addr, ¬ D addr → a.memory.byteAt addr = b.memory.byteAt addr
  devices : a.devices.unlogged = b.devices.unlogged

/-- What a response carries. -/
structure SameReply (a b : Effect) : Prop where
  value : a.value = b.value
  lineBase : a.lineBase = b.lineBase
  lineData : a.lineData = b.lineData

/-- Arbiters that agree outside `D` on what they answer from. -/
structure SameBus (D : Addr → Prop) (a b : BusArbiter) : Prop where
  store : SameStore D a.refusal b.refusal
  haltOnFault : a.trace.haltOnFault = b.trace.haltOnFault
  shouldHalt : a.trace.shouldHalt = b.trace.shouldHalt

theorem size_le_of_valid (hvalid : validateBusOp op = .none) (hkind : op.kind ≠ .barrier) :
    op.size ≤ 4 := by
  rw [validateBusOp, if_neg hkind] at hvalid
  by_cases hsize : validBusSize op.size = true
  · rw [validBusSize] at hsize
    simp only [Bool.or_eq_true, decide_eq_true_eq] at hsize
    omega
  · rw [if_pos (by simpa using hsize)] at hvalid
    exact absurd hvalid (by decide)

/-- Granted to agreeing arbiters, an operation has the same effect. -/
theorem SameStore.perform (h : SameStore D a.refusal b.refusal) (hvalid : validateBusOp op = .none)
    (hreads : ∀ addr, D addr → ¬ op.reads addr) :
    SameStore D (a.perform op 0) (b.perform op 0) ∧
      SameReply (a.perform op 0) (b.perform op 0) := by
  have hsize : a.memory.size = b.memory.size := h.size
  have hbytes : ∀ addr, ¬ D addr → a.memory.byteAt addr = b.memory.byteAt addr := h.bytes
  have hdevices : a.devices.unlogged = b.devices.unlogged := h.devices
  unfold BusArbiter.perform
  by_cases hbarrier : op.kind = .barrier
  · rw [if_pos hbarrier, if_pos hbarrier]
    exact ⟨⟨hsize, hbytes, hdevices⟩, rfl, rfl, rfl⟩
  rw [if_neg hbarrier, if_neg hbarrier]
  by_cases hwrite : op.kind = .write ∨ op.kind = .mmioWrite
  · rw [if_pos hwrite, if_pos hwrite]
    by_cases hmmio : isMmio op.physAddr = true ∨ op.kind = .mmioWrite
    · rw [if_pos hmmio, if_pos hmmio]
      refine ⟨⟨hsize, hbytes, ?_⟩, rfl, rfl, rfl⟩
      rw [DeviceHub.write_unlogged, DeviceHub.write_unlogged, hdevices]
    · rw [if_neg hmmio, if_neg hmmio]
      have hle := size_le_of_valid hvalid hbarrier
      refine ⟨⟨?_, fun addr haddr => ?_, hdevices⟩, rfl, rfl, rfl⟩
      · exact (CommittedMemory.size_write ..).trans (hsize.trans (CommittedMemory.size_write ..).symm)
      · exact CommittedMemory.write_congr hsize (by omega) op.data (hbytes addr haddr)
  rw [if_neg hwrite, if_neg hwrite]
  by_cases hmmio : isMmio op.physAddr = true ∨ op.kind = .mmioRead
  · rw [if_pos hmmio, if_pos hmmio]
    have hvalue : a.devices.unlogged.read 0 op.cpuId op.physAddr op.size =
        b.devices.unlogged.read 0 op.cpuId op.physAddr op.size := by rw [hdevices]
    exact ⟨⟨hsize, hbytes, hdevices⟩, hvalue, rfl, rfl⟩
  rw [if_neg hmmio, if_neg hmmio]
  -- an access to memory: no byte it reads is in `D`
  have hram : (op.kind = .iFetch ∨ op.kind = .read) ∧ isMmio op.physAddr = false := by
    rw [not_or] at hwrite hmmio
    refine ⟨?_, by simpa using hmmio.1⟩
    cases hkind : op.kind with
    | iFetch => exact Or.inl rfl
    | read => exact Or.inr rfl
    | write => exact absurd hkind hwrite.1
    | mmioRead => exact absurd hkind hmmio.2
    | mmioWrite => exact absurd hkind hwrite.2
    | barrier => exact absurd hkind hbarrier
  have hvalue : a.memory.read op.physAddr op.size = b.memory.read op.physAddr op.size :=
    CommittedMemory.read_congr hsize fun addr haddr =>
      hbytes addr fun hD => hreads addr hD ⟨hram.1, hram.2, Or.inl haddr⟩
  by_cases hfill : op.fillCacheLine = true ∧ op.cacheLineSize > 0
  · rw [if_pos hfill, if_pos hfill]
    refine ⟨⟨hsize, hbytes, hdevices⟩, hvalue, rfl, ?_⟩
    exact CommittedMemory.readBlock_congr hsize fun addr haddr =>
      hbytes addr fun hD => hreads addr hD ⟨hram.1, hram.2, Or.inr ⟨hfill.1, haddr⟩⟩
  · rw [if_neg hfill, if_neg hfill]
    exact ⟨⟨hsize, hbytes, hdevices⟩, hvalue, rfl, rfl⟩

theorem SameBus.answer (h : SameBus D a b) (hop : x.untimed = y.untimed)
    (hreads : ∀ addr, D addr → ¬ y.reads addr) :
    SameStore D (a.answer x) (b.answer y) ∧ SameReply (a.answer x) (b.answer y) := by
  have hsame : a.answer x.untimed = a.answer y.untimed := congrArg a.answer hop
  change a.answer x = a.answer y at hsame
  rw [hsame, BusArbiter.answer, BusArbiter.answer, h.shouldHalt]
  split
  · exact ⟨h.store, rfl, rfl, rfl⟩
  · rename_i hgo
    rw [not_or, not_not] at hgo
    exact h.store.perform hgo.2 hreads

theorem SameBus.commit (h : SameBus D a b) (hop : x.untimed = y.untimed)
    (hreads : ∀ addr, D addr → ¬ y.reads addr)
    (hx : a.Ordered (producerSlot x) x.reqTime) (hy : b.Ordered (producerSlot y) y.reqTime) :
    SameBus D (a.commit x).1 (b.commit y).1 ∧
      SameReply (shown (a.commit x)) (shown (b.commit y)) := by
  obtain ⟨hstore, hreply⟩ := h.answer hop hreads
  have hxshown := commit_answer hx
  have hyshown := commit_answer hy
  have hvalid : validateBusOp x.untimed = validateBusOp y.untimed := congrArg validateBusOp hop
  change validateBusOp x = validateBusOp y at hvalid
  refine ⟨⟨⟨?_, fun addr haddr => ?_, ?_⟩, ?_, ?_⟩, ?_, ?_, ?_⟩
  · have hxm := congrArg (·.memory.size) hxshown
    have hym := congrArg (·.memory.size) hyshown
    exact hxm.trans (hstore.size.trans hym.symm)
  · have hxm := congrArg (·.memory.byteAt addr) hxshown
    have hym := congrArg (·.memory.byteAt addr) hyshown
    exact hxm.trans ((hstore.bytes addr haddr).trans hym.symm)
  · exact (congrArg (·.devices) hxshown).trans
      (hstore.devices.trans (congrArg (·.devices) hyshown).symm)
  · rw [commit_haltOnFault hx, commit_haltOnFault hy]
    exact h.haltOnFault
  · rw [commit_shouldHalt hx, commit_shouldHalt hy, h.shouldHalt, h.haltOnFault, hvalid]
  · exact (congrArg (·.value) hxshown).trans (hreply.value.trans (congrArg (·.value) hyshown).symm)
  · exact (congrArg (·.lineBase) hxshown).trans
      (hreply.lineBase.trans (congrArg (·.lineBase) hyshown).symm)
  · exact (congrArg (·.lineData) hxshown).trans
      (hreply.lineData.trans (congrArg (·.lineData) hyshown).symm)

end BusArbiter

end Bus

end Saturnis
