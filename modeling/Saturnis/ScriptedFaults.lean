/-
The answer to a cached read, and what it leaves in the cache of a scripted CPU.

A granted read is answered with its line.  A read that is rejected, or that
meets a halted trace, is answered with the invalid value and no line, and
`apply_response` takes such an answer for one that carries a value: it puts a
line of zeros in the cache and writes the invalid value to it.

* `Answers.line_or_refused` — the two shapes of answer to a cached read;
* `coherent_setLine_iff` — a cache with one line replaced;
* `applyResponse_coherent_iff` — **when an answer leaves the cache coherent**.
-/
import Saturnis.CacheLines
import Saturnis.ScriptedCpu

namespace Saturnis

open Saturnis.Core Saturnis.Mem Saturnis.Bus

namespace Mem.TinyCache

variable {c : TinyCache} {m : CommittedMemory} {phys : Addr} {size : Nat} {value : Word}

/-- Replacing a line keeps a cache coherent exactly when the new line is the
line of the memory. -/
theorem coherent_setLine_iff (h : Coherent c m) (hwf : WellFormed c) {base : Word}
    {entry : CacheLine} (hvalid : entry.valid = true) (htag : entry.tag = base) :
    Coherent (c.setLine base entry) m ↔
      ∀ a, c.lineBase a = base → entry.bytes.getD (c.offset a) 0 = m.byteAt a := by
  constructor
  · intro hcoherent a hbase
    have hindex : c.index base = c.index (c.lineBase a) := by rw [hbase]
    have hbyte := hcoherent a (by rw [setLine_holds hwf, if_pos hindex, hvalid, htag, hbase]; simp)
    rwa [setLine_byteOf hwf, if_pos hindex] at hbyte
  · intro hline a ha
    rw [setLine_holds hwf] at ha
    rw [setLine_byteOf hwf]
    by_cases hindex : c.index base = c.index (c.lineBase a)
    · rw [if_pos hindex, hvalid, htag, Bool.true_and] at ha
      rw [if_pos hindex]
      exact hline a (eq_of_beq ha).symm
    · rw [if_neg hindex] at ha ⊢
      exact h a ha

theorem setLine_setLine (c : TinyCache) (base : Word) (first second : CacheLine) :
    (c.setLine base first).setLine base second = c.setLine base second := by
  have hindex : (c.setLine base first).index base = c.index base := by
    rw [index, setLine, List.length_set, index]
  rw [setLine, hindex]
  simp only [setLine, List.set_set]

/-- The cache with a line of zeros for that address. -/
def zeroed (c : TinyCache) (phys : Addr) : TinyCache :=
  c.setLine (c.lineBase phys) ⟨true, c.lineBase phys, List.replicate c.lineSize 0⟩

theorem fillLine_zeros (c : TinyCache) (phys : Addr) :
    c.fillLine (c.lineBase phys) (List.replicate c.lineSize 0) = c.zeroed phys := by
  rw [fillLine, if_neg (by simp)]
  rfl

theorem getD_zeros (n i : Nat) : (List.replicate n (0 : Byte)).getD i 0 = 0 := by
  rw [List.getD_eq_getElem?_getD, List.getElem?_replicate]
  split <;> rfl

theorem zeroed_holds (hwf : WellFormed c) (phys : Addr) : (c.zeroed phys).holds phys = true := by
  rw [zeroed, setLine_holds hwf, if_pos rfl]
  simp

theorem zeroed_byteOf (hwf : WellFormed c) {a : Addr} (h : c.lineBase a = c.lineBase phys) :
    (c.zeroed phys).byteOf a = 0 := by
  rw [zeroed, setLine_byteOf hwf, if_pos (by rw [h])]
  exact getD_zeros _ _

/-- A byte of a line of zeros with a value written to it; a value that crosses
the end of the line is not written. -/
def zerosWith (c : TinyCache) (phys : Addr) (size : Nat) (value : Word) (a : Addr) : Byte :=
  if c.offset phys + size ≤ c.lineSize ∧ (a - phys).toNat < size then
    laneByte value size (a - phys).toNat
  else 0

theorem coherent_zerosWith_iff (h : Coherent c m) (hwf : WellFormed c)
    (hfit : phys.toNat + size ≤ 2 ^ 32 ∨ c.lineSize < c.offset phys + size) :
    Coherent ((c.zeroed phys).write phys size value) m ↔
      ∀ a, c.lineBase a = c.lineBase phys → c.zerosWith phys size value a = m.byteAt a := by
  have hwf' : WellFormed (c.zeroed phys) := hwf.setLine _ (by simp)
  have hholds := zeroed_holds hwf phys
  by_cases hcross : c.offset phys + size ≤ c.lineSize
  · -- the value is written to the line of zeros
    obtain ⟨hvalid, htag⟩ : ((c.zeroed phys).line (c.lineBase phys)).valid = true ∧
        ((c.zeroed phys).line (c.lineBase phys)).tag == c.lineBase phys := by
      rw [holds, Bool.and_eq_true] at hholds
      exact hholds
    have hwrite : (c.zeroed phys).write phys size value =
        c.setLine (c.lineBase phys) ((c.zeroed phys).stored phys size value) := by
      rw [write_of_hit hholds hcross]
      exact setLine_setLine _ _ _ _
    have hentry : ((c.zeroed phys).stored phys size value).valid = true ∧
        ((c.zeroed phys).stored phys size value).tag = c.lineBase phys := ⟨hvalid, eq_of_beq htag⟩
    rw [hwrite, coherent_setLine_iff h hwf hentry.1 hentry.2]
    refine forall_congr' fun a => imp_congr_right fun hbase => ?_
    have hstored := stored_getD hwf' value (hfit.resolve_right (by omega)) hcross hbase
    rw [zeroed_byteOf hwf hbase] at hstored
    rw [zerosWith]
    simp only [hcross, true_and]
    rw [← hstored]
    exact Iff.rfl
  · -- it crosses the end of the line
    have hentry : (CacheLine.mk true (c.lineBase phys) (List.replicate c.lineSize 0)).valid = true :=
      rfl
    rw [write_of_miss (c := c.zeroed phys) (Or.inr (Nat.lt_of_not_le hcross)), zeroed,
      coherent_setLine_iff h hwf hentry rfl]
    refine forall_congr' fun a => imp_congr_right fun _ => ?_
    rw [getD_zeros, zerosWith, if_neg fun hboth => hcross hboth.1]

end Mem.TinyCache

namespace Bus.BusArbiter

variable {arb after : BusArbiter} {op : BusOp} {response : BusResponse}

/-- The arbiter answers the operation, on its own or in a batch, and what the
arbiter is then. -/
def Answers (arb : BusArbiter) (op : BusOp) (after : BusArbiter) (response : BusResponse) : Prop :=
  arb.commit op = (after, response) ∨ ∃ tie, arb.executeCommit op tie = (after, response)

/-- A read of RAM that fills a line is answered with the line, or with the
invalid value and none. -/
structure CachedRead (op : BusOp) : Prop where
  kind : op.kind = .read
  ram : isMmio op.physAddr = false
  fill : op.fillCacheLine = true
  line : 0 < op.cacheLineSize

/-- The shapes of an answer to a cached read. -/
def LineOrRefused (m : CommittedMemory) (op : BusOp) (after : BusArbiter)
    (response : BusResponse) : Prop :=
  after.memory = m ∧
    ((response.lineBase = op.physAddr / BitVec.ofNat 32 op.cacheLineSize ∧
        response.lineData = m.readBlock (op.physAddr / BitVec.ofNat 32 op.cacheLineSize *
          BitVec.ofNat 32 op.cacheLineSize) op.cacheLineSize) ∨
      (response.lineData = [] ∧ response.value = kInvalidBusOpValue))

theorem executeCommit_line_or_refused (hread : CachedRead op) (tie : Bool) :
    LineOrRefused arb.memory op (arb.executeCommit op tie).1 (arb.executeCommit op tie).2 := by
  cases hacc : arb.accepts op with
  | true =>
    have hperform : ∀ finish, arb.perform op finish =
        ⟨arb.memory, arb.devices, arb.memory.read op.physAddr op.size,
          op.physAddr / BitVec.ofNat 32 op.cacheLineSize,
          arb.memory.readBlock (op.physAddr / BitVec.ofNat 32 op.cacheLineSize *
            BitVec.ofNat 32 op.cacheLineSize) op.cacheLineSize⟩ := by
      intro finish
      simp [perform, hread.kind, hread.ram, hread.fill, hread.line]
    rw [executeCommit_of_accepts hacc, LineOrRefused]
    simp only [grant, hperform]
    exact ⟨trivial, Or.inl ⟨trivial, trivial⟩⟩
  | false =>
    obtain ⟨reason, detail, heq⟩ := executeCommit_of_rejected tie hacc
    rw [heq]
    exact ⟨rfl, Or.inr ⟨rfl, rfl⟩⟩

theorem Answers.line_or_refused (h : arb.Answers op after response) (hread : CachedRead op) :
    LineOrRefused arb.memory op after response := by
  rcases h with hcommit | ⟨tie, hexecute⟩
  · rw [commit] at hcommit
    split at hcommit
    · -- halted
      obtain ⟨rfl, rfl⟩ := Prod.mk.inj hcommit
      exact ⟨rfl, Or.inr ⟨rfl, rfl⟩⟩
    · rw [validateEnqueueContract] at hcommit
      split_ifs at hcommit
      · -- turned away
        obtain ⟨rfl, rfl⟩ := Prod.mk.inj hcommit
        exact ⟨rfl, Or.inr ⟨rfl, rfl⟩⟩
      · have hspec := @executeCommit_line_or_refused { arb with
          producerEnqueuedSeen := Function.update arb.producerEnqueuedSeen (producerSlot op) true
          producerLastEnqueuedReqTime := Function.update arb.producerLastEnqueuedReqTime
            (producerSlot op) op.reqTime } op hread false
        simp only [] at hcommit
        rw [hcommit] at hspec
        exact hspec
  · have hspec := @executeCommit_line_or_refused arb op hread tie
    rw [hexecute] at hspec
    exact hspec

end Bus.BusArbiter

namespace Cpu.ScriptedCPU

variable {cpu : ScriptedCPU} {ins : ScriptOp} {arb after : BusArbiter} {op : BusOp}
  {response : BusResponse} {i : Nat}

/-- A cached read at that script index waits for the answer to its operation;
its line lies in memory, and the cache is well formed. -/
structure AwaitsLine (cpu : ScriptedCPU) (memory : CommittedMemory) (i : Nat) (op : BusOp) : Prop where
  kind : (cpu.script.getD i {}).kind = .read
  cached : (cpu.script.getD i {}).uncached = false
  issued : (cpu.script.getD i {}).Matches cpu.cache.lineSize op
  wellFormed : cpu.cache.WellFormed
  inRange : Inside memory.size
    (cpu.cache.lineBase op.physAddr * BitVec.ofNat 32 cpu.cache.lineSize) cpu.cache.lineSize

/-- Memory has at the line of the access zeros with the invalid value. -/
def ReadsAsRefused (cache : TinyCache) (memory : CommittedMemory) (op : BusOp) : Prop :=
  ∀ a, cache.lineBase a = cache.lineBase op.physAddr →
    cache.zerosWith op.physAddr op.size kInvalidBusOpValue a = memory.byteAt a

theorem AwaitsLine.fields (h : AwaitsLine cpu arb.memory i op) :
    BusArbiter.CachedRead op ∧ op.physAddr = toPhys (cpu.script.getD i {}).vaddr ∧
      op.size = (cpu.script.getD i {}).size ∧ op.cacheLineSize = cpu.cache.lineSize := by
  have hram : isMmio (toPhys (cpu.script.getD i {}).vaddr) = false := by
    have hcached := h.cached
    rw [ScriptOp.uncached, Bool.or_eq_false_iff] at hcached
    exact hcached.2
  have hissued := h.issued
  rw [ScriptOp.Matches, h.kind] at hissued
  obtain ⟨hkind, hphys, hsize, hfill, hline⟩ := hissued
  rw [hram, if_neg Bool.false_ne_true] at hkind
  rw [h.cached, if_neg Bool.false_ne_true, Nat.mod_eq_of_lt h.wellFormed.small] at hline
  rw [h.cached] at hfill
  exact ⟨⟨hkind, by rw [hphys]; exact hram, hfill, by rw [hline]; exact h.wellFormed.pos⟩, hphys,
    hsize, hline⟩

/-- The cache once the answer is applied. -/
theorem AwaitsLine.applyResponse_cache (h : AwaitsLine cpu arb.memory i op) (token : Nat) :
    (cpu.applyResponse i response token).1.cache =
      if response.lineData ≠ [] then
        if response.lineBase ≠ op.physAddr / BitVec.ofNat 32 cpu.cache.lineSize ∨
          response.lineData.length ≠ cpu.cache.lineSize then cpu.cache
        else cpu.cache.fillLine response.lineBase response.lineData
      else (cpu.cache.fillLine (cpu.cache.lineBase op.physAddr)
        (List.replicate cpu.cache.lineSize 0)).write op.physAddr op.size response.value := by
  obtain ⟨-, hphys, hsize, -⟩ := h.fields
  simp only [applyResponse, h.kind, h.cached]
  rw [if_neg (by simp), if_pos trivial, if_neg Bool.false_ne_true, hphys, hsize]
  by_cases hdata : response.lineData ≠ []
  · rw [if_pos hdata, if_pos hdata]
    by_cases hwrong : response.lineBase ≠ toPhys (cpu.script.getD i {}).vaddr /
        BitVec.ofNat 32 cpu.cache.lineSize ∨ response.lineData.length ≠ cpu.cache.lineSize
    · rw [if_pos hwrong, if_pos hwrong]
    · rw [if_neg hwrong, if_neg hwrong]
  · rw [if_neg hdata, if_neg hdata]
    rfl

/-- **The cache is coherent after the answer exactly when** the answer carries
the line or memory reads as the CPU takes a refusal to read. -/
theorem applyResponse_coherent_iff (h : AwaitsLine cpu arb.memory i op)
    (hcoherent : cpu.cache.Coherent arb.memory) (hanswer : arb.Answers op after response)
    (token : Nat) :
    (cpu.applyResponse i response token).1.cache.Coherent after.memory ↔
      response.lineData ≠ [] ∨ ReadsAsRefused cpu.cache arb.memory op := by
  obtain ⟨hread, hphys, -, hline⟩ := h.fields
  have hwf := h.wellFormed
  have hsmall := hwf.small
  have hlt : op.physAddr.toNat < 2 ^ 29 := hphys ▸ toPhys_lt _
  obtain ⟨hmemory, hshape⟩ := hanswer.line_or_refused hread
  rw [hmemory, h.applyResponse_cache token]
  rcases hshape with ⟨hbase, hdata⟩ | ⟨hnone, hvalue⟩
  · -- the line of memory
    rw [hline] at hbase hdata
    have hlen : response.lineData.length = cpu.cache.lineSize := by
      rw [hdata]
      exact CommittedMemory.length_readBlock _ _ _
    have hne : response.lineData ≠ [] := List.ne_nil_of_length_pos (by rw [hlen]; exact hwf.pos)
    refine iff_of_true ?_ (Or.inl hne)
    rw [if_pos hne, if_neg, hbase, hdata]
    · exact hcoherent.fill hwf h.inRange (hwf.line_le hlt)
    · rintro (hwrong | hwrong)
      · exact hwrong hbase
      · exact hwrong hlen
  · -- zeros and the invalid value
    rw [if_neg (not_not.mpr hnone), hvalue, TinyCache.fillLine_zeros,
      TinyCache.coherent_zerosWith_iff hcoherent hwf (by omega), ReadsAsRefused]
    exact ⟨Or.inr, fun hor => hor.resolve_left (not_not.mpr hnone)⟩

/-- The read of the word at 0 is issued. -/
def reading : ScriptedCPU × PendingBusOp :=
  (make 0 [{ kind := .read, vaddr := 0 }]).issueRead { kind := .read, vaddr := 0 }

theorem reading_awaitsLine (arb : BusArbiter) (h : arb.memory = CommittedMemory.make 64) :
    AwaitsLine reading.1 arb.memory 0 reading.2.op where
  kind := rfl
  cached := rfl
  issued := ⟨rfl, rfl, rfl, rfl, rfl⟩
  wellFormed := TinyCache.wellFormed_make (by decide) (by decide) (by decide)
  inRange := by
    rw [h]
    decide

theorem reading_coherent (m : CommittedMemory) : reading.1.cache.Coherent m :=
  TinyCache.coherent_make 16 64 m

/-- An arbiter on 64 zero bytes. -/
def freshBus (halted : Bool) : BusArbiter :=
  { memory := CommittedMemory.make 64, trace := { haltOnFault := true, shouldHalt := halted } }

/-- The read is granted. -/
theorem applyResponse_coherent_granted :
    (reading.1.applyResponse 0 ((freshBus false).commit reading.2.op).2 0).1.cache.Coherent
      ((freshBus false).commit reading.2.op).1.memory :=
  (applyResponse_coherent_iff (reading_awaitsLine (freshBus false) rfl) (reading_coherent _)
    (Or.inl rfl) 0).mpr (Or.inl (by decide))

/-- The trace has halted. -/
theorem not_applyResponse_coherent_halted :
    ¬ ∀ (cpu : ScriptedCPU) (arb after : BusArbiter) (op : BusOp) (response : BusResponse)
      (i token : Nat), cpu.storeBuffer.entries = [] → AwaitsLine cpu arb.memory i op →
        cpu.cache.Coherent arb.memory → arb.Answers op after response →
          (cpu.applyResponse i response token).1.cache.Coherent after.memory := by
  intro hall
  have hcoherent := hall reading.1 (freshBus true) (freshBus true) reading.2.op _ 0 0 rfl
    (reading_awaitsLine (freshBus true) rfl) (reading_coherent _) (Or.inl rfl)
  have hbyte := hcoherent 0 (by decide)
  revert hbyte
  decide

end Cpu.ScriptedCPU

end Saturnis
