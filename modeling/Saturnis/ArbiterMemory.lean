/-
Commit order is memory order.

The reference is a function from addresses to bytes: `replay` applies to it
the granted writes of a log, in order, that go to committed memory.  Along any
run the arbiter's memory is that replay (`runCalls_replays`), a read returns
the bytes of the reference at its commit, and so does the line of a cache fill.
Device registers are outside the reference: an operation on them neither reads
nor changes it.
-/
import Saturnis.ArbiterTimeline
import Saturnis.ByteStore

namespace Saturnis.Bus

open Saturnis.Core Saturnis.Mem Saturnis.Dev

/-- The operation stores to committed memory. -/
def BusOp.storesRam (op : BusOp) : Bool := op.kind = .write && !isMmio op.physAddr

/-- The operation reads committed memory. -/
def BusOp.loadsRam (op : BusOp) : Bool :=
  (op.kind = .read || op.kind = .iFetch) && !isMmio op.physAddr

/-- The address of the cache line that holds the accessed one. -/
def BusOp.lineStart (op : BusOp) : Addr :=
  op.physAddr / BitVec.ofNat 32 op.cacheLineSize * BitVec.ofNat 32 op.cacheLineSize

def replayStep (size : Nat) (bytes : Addr → Byte) (h : Handled) : Addr → Byte :=
  if h.granted && h.op.storesRam then refStore size bytes h.op.physAddr h.op.size h.op.data
  else bytes

def replay (size : Nat) (bytes : Addr → Byte) (log : List Handled) : Addr → Byte :=
  log.foldl (replayStep size) bytes

namespace Handled

/-- The entry met a memory of `size` bytes with the contents `bytes`, answered
from it, and left it alone unless it lies inside. -/
structure Agrees (size : Nat) (bytes : Addr → Byte) (h : Handled) : Prop where
  memorySize : h.before.memory.size = size
  byteAt : h.before.memory.byteAt = bytes
  value : h.granted = true → h.op.loadsRam = true → Inside size h.op.physAddr h.op.size →
    h.response.value = wordOf (bytesFrom bytes h.op.physAddr h.op.size)
  line : h.granted = true → h.op.loadsRam = true → h.op.fillCacheLine = true →
    0 < h.op.cacheLineSize → Inside size h.op.lineStart h.op.cacheLineSize →
    h.response.lineData = bytesFrom bytes h.op.lineStart h.op.cacheLineSize
  outside : ¬ Inside size h.op.physAddr h.op.size → h.after.memory = h.before.memory

variable {h : Handled}

theorem Sound.size_le (hs : h.Sound) (hg : h.granted = true) (hk : h.op.kind = .write) :
    h.op.size ≤ 4 := by
  rw [Sound, if_pos hg] at hs
  have hvalid : validateBusOp h.op = .none := by
    have := hs.1
    simp only [BusArbiter.accepts, Bool.and_eq_true, decide_eq_true_eq] at this
    exact this.1
  rw [validateBusOp, if_neg (by simp [hk])] at hvalid
  by_cases hsize : validBusSize h.op.size = true
  · simp only [validBusSize, Bool.or_eq_true, decide_eq_true_eq] at hsize
    omega
  · rw [if_pos (by simp [hsize])] at hvalid
    exact absurd hvalid (by simp)

/-- A grant stores to memory what a RAM write asks for, and nothing else. -/
theorem Sound.memory_of_granted (hs : h.Sound) (hg : h.granted = true) :
    h.after.memory =
      if h.op.storesRam then h.before.memory.write h.op.physAddr h.op.size h.op.data
      else h.before.memory := by
  rw [(hs.of_granted hg).1]
  change (h.before.perform h.op _).memory = _
  rw [BusArbiter.perform, BusOp.storesRam]
  by_cases hbarrier : h.op.kind = .barrier
  · rw [if_pos hbarrier, if_neg (by simp [hbarrier])]
  rw [if_neg hbarrier]
  by_cases hwrite : h.op.kind = .write ∨ h.op.kind = .mmioWrite
  · rw [if_pos hwrite]
    by_cases hdev : isMmio h.op.physAddr ∨ h.op.kind = .mmioWrite
    · -- the store goes to a device register
      rw [if_pos hdev, if_neg]
      rcases hdev with hdev | hdev <;> simp [hdev]
    · rw [if_neg hdev, if_pos]
      rcases hwrite with hwrite | hwrite
      · simpa [hwrite] using hdev
      · exact absurd (Or.inr hwrite) hdev
  · have hload : ¬ (decide (h.op.kind = .write) && !isMmio h.op.physAddr) = true := by
      simp only [Bool.and_eq_true, decide_eq_true_eq]
      exact fun hw => hwrite (Or.inl hw.1)
    rw [if_neg hwrite, if_neg hload]
    split_ifs <;> rfl

theorem Sound.memory_of_rejected (hs : h.Sound) (hg : h.granted = false) :
    h.after.memory = h.before.memory := by
  obtain ⟨reason, detail, hafter, -⟩ := hs.of_rejected hg
  rw [hafter]
  rfl

/-- One entry changes the memory as the replay does. -/
theorem Sound.replayStep (hs : h.Sound) :
    h.after.memory.size = h.before.memory.size ∧
      h.after.memory.byteAt =
        Bus.replayStep h.before.memory.size h.before.memory.byteAt h := by
  rw [Bus.replayStep]
  cases hg : h.granted with
  | false =>
    rw [hs.memory_of_rejected hg]
    exact ⟨rfl, rfl⟩
  | true =>
    rw [hs.memory_of_granted hg]
    by_cases hst : h.op.storesRam = true
    · have hkind : h.op.kind = .write := by
        simp only [BusOp.storesRam, Bool.and_eq_true, decide_eq_true_eq] at hst
        exact hst.1
      have hle := hs.size_le hg hkind
      rw [if_pos hst, if_pos (by simp [hst])]
      exact ⟨CommittedMemory.size_write _ _ _ _,
        CommittedMemory.write_byteAt _ _ (by omega) _⟩
    · rw [if_neg hst, if_neg (by simp [hst])]
      exact ⟨rfl, rfl⟩

/-- What a granted load answers. -/
theorem Sound.load (hs : h.Sound) (hg : h.granted = true) (hl : h.op.loadsRam = true) :
    h.response.value = h.before.memory.read h.op.physAddr h.op.size ∧
      (h.op.fillCacheLine = true → 0 < h.op.cacheLineSize →
        h.response.lineData = h.before.memory.readBlock h.op.lineStart h.op.cacheLineSize) := by
  simp only [BusOp.loadsRam, Bool.and_eq_true, Bool.or_eq_true, decide_eq_true_eq,
    Bool.not_eq_true'] at hl
  obtain ⟨hkind, hram⟩ := hl
  have hnot : h.op.kind ≠ .barrier ∧ ¬ (h.op.kind = .write ∨ h.op.kind = .mmioWrite) ∧
      h.op.kind ≠ .mmioRead := by
    rcases hkind with hkind | hkind <;> simp [hkind]
  have hperform : ∀ finish, h.before.perform h.op finish =
      if h.op.fillCacheLine ∧ h.op.cacheLineSize > 0 then
        ⟨h.before.memory, h.before.devices, h.before.memory.read h.op.physAddr h.op.size,
          h.op.physAddr / BitVec.ofNat 32 h.op.cacheLineSize,
          h.before.memory.readBlock h.op.lineStart h.op.cacheLineSize⟩
      else
        ⟨h.before.memory, h.before.devices, h.before.memory.read h.op.physAddr h.op.size, 0, []⟩ := by
    intro finish
    rw [BusArbiter.perform, if_neg hnot.1, if_neg hnot.2.1, if_neg (by simp [hram, hnot.2.2])]
    rfl
  rw [(hs.of_granted hg).2]
  change (h.before.perform h.op _).value = _ ∧ (_ → _ → (h.before.perform h.op _).lineData = _)
  rw [hperform]
  constructor
  · split_ifs <;> rfl
  · intro hfill hpos
    rw [if_pos ⟨hfill, hpos⟩]

theorem Sound.agrees (hs : h.Sound) :
    h.Agrees h.before.memory.size h.before.memory.byteAt := by
  refine ⟨rfl, rfl, fun hg hl hin => ?_, fun hg hl hfill hpos hin => ?_, fun hout => ?_⟩
  · rw [(hs.load hg hl).1, CommittedMemory.read_eq_wordOf hin]
  · rw [(hs.load hg hl).2 hfill hpos, CommittedMemory.readBlock_eq_bytesFrom hin]
  · cases hg : h.granted with
    | false => exact hs.memory_of_rejected hg
    | true =>
      rw [hs.memory_of_granted hg, CommittedMemory.write_of_not_inside hout, ite_self]

end Handled

namespace BusArbiter

theorem Chained.replays {a b : BusArbiter} {log : List Handled} (hc : Chained a log b)
    (hs : ∀ h ∈ log, h.Sound) :
    (b.memory.size = a.memory.size ∧
      b.memory.byteAt = replay a.memory.size a.memory.byteAt log) ∧
      ∀ i (hi : i < log.length),
        log[i].Agrees a.memory.size (replay a.memory.size a.memory.byteAt (log.take i)) := by
  induction log generalizing a with
  | nil =>
    rw [core_memory hc]
    exact ⟨⟨rfl, rfl⟩, fun i hi => absurd hi (by simp)⟩
  | cons e log ih =>
    have he : e.Sound := hs e List.mem_cons_self
    obtain ⟨hsize, hbytes⟩ := he.replayStep
    obtain ⟨⟨hsize', hbytes'⟩, hat⟩ := ih hc.2 fun x hx => hs x (List.mem_cons_of_mem e hx)
    rw [core_memory hc.1]
    rw [hsize, hbytes] at hbytes' hat
    refine ⟨⟨hsize'.trans hsize, hbytes'⟩, fun i hi => ?_⟩
    cases i with
    | zero => exact he.agrees
    | succ i => exact hat i (Nat.lt_of_succ_lt_succ hi)

/-- **Commit order is memory order.**  The log is what the trace records, and its
responses are those that the calls return. -/
theorem runCalls_replays (arb : BusArbiter) (calls : List ArbiterCall) :
    (arb.runCalls calls).memory.byteAt =
        replay arb.memory.size arb.memory.byteAt (runLog arb calls) ∧
      (∀ i (hi : i < (runLog arb calls).length),
        (runLog arb calls)[i].Agrees arb.memory.size
          (replay arb.memory.size arb.memory.byteAt ((runLog arb calls).take i))) ∧
      (arb.runCalls calls).trace.commits =
        arb.trace.commits ++ (runLog arb calls).map Handled.record ∧
      ∀ h ∈ runLog arb calls, h.granted = true → ∃ before call after,
        calls = before ++ call :: after ∧
          (h.op, h.response) ∈ (arb.runCalls before).callAnswers call := by
  obtain ⟨⟨-, hlast⟩, hat⟩ := (runCalls_chained arb calls).replays (runLog_sound arb calls)
  exact ⟨hlast, hat, runCalls_commits arb calls, fun _ => runLog_answered⟩

/-- A two-byte store followed by a line fill over it. -/
theorem runCalls_replays_fill :
    let arb : BusArbiter := { memory := .make 8 }
    let fill : BusOp := { cpuId := 1, fillCacheLine := true, cacheLineSize := 4 }
    let calls : List ArbiterCall :=
      [.commit { kind := .write, physAddr := 2, size := 2, data := 0xABCD },
        .commitBatch [fill]]
    ∃ hi : 1 < (runLog arb calls).length,
      (runLog arb calls)[1].response.value = 0x0000ABCD#32 ∧
      (runLog arb calls)[1].response.lineData = [0x00#8, 0x00#8, 0xAB#8, 0xCD#8] := by
  intro arb fill calls
  have hagrees := (runCalls_replays arb calls).2.1 1 (by decide)
  refine ⟨by decide, ?_, ?_⟩
  · rw [hagrees.value (by decide) (by decide) (by decide)]
    decide +kernel
  · rw [hagrees.line (by decide) (by decide) (by decide) (by decide) (by decide +kernel)]
    decide +kernel

end BusArbiter

end Saturnis.Bus
