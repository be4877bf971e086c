/-
The scripted CPUs as programs on one shared memory.

A CPU keeps lines of memory in a cache that nobody invalidates, and sends its
writes past it to the bus.  If no line that a CPU reads through its cache is
written by the other CPU, or by itself around the cache, then nobody notices:
the run does what the two scripts do when they take turns on the memory and the
devices directly, one operation at a time.

* `CacheAgrees` — what a CPU holds is memory, its own pending write included;
* `Follows` — a state of the CPUs stands for a state of the turns;
* `Follows.move` — every move of a driver is some turns;
* `multithread_consistent` — **every run of the threads is an order of turns**.
-/
import Saturnis.Interleave
import Saturnis.ScriptedReads
import Saturnis.ScriptedSchedules

namespace Saturnis.Cpu

open Saturnis.Core Saturnis.Mem Saturnis.Dev Saturnis.Bus

/-- A read that goes through the cache. -/
def ScriptOp.cachedRead (ins : ScriptOp) : Bool := ins.kind = .read && !ins.uncached

/-- A cached access is aligned and inside a memory of `size` bytes. -/
def ScriptOp.tidy (size : Nat) (ins : ScriptOp) : Bool :=
  ins.kind = .compute || ins.kind = .barrier || ins.uncached ||
    (isAligned (toPhys ins.vaddr) ins.size && decide (Inside size (toPhys ins.vaddr) ins.size))

/-- No line that a CPU reads through its cache is written by the other CPU, or by
itself around the cache. -/
def RaceFree (script : Fin 2 → List ScriptOp) : Prop :=
  ∀ c, ∀ r ∈ script c, r.cachedRead = true → ∀ d, ∀ w ∈ script d, w.kind = .write →
    isMmio (toPhys w.vaddr) = false → ∀ i < w.size,
      lineOf (toPhys w.vaddr + BitVec.ofNat 32 i) = lineOf (toPhys r.vaddr) →
        d = c ∧ w.uncached = false

instance (script : Fin 2 → List ScriptOp) : Decidable (RaceFree script) :=
  inferInstanceAs (Decidable (∀ _, ∀ _ ∈ _, _))

/-- Scripts on a memory of `size` bytes that no CPU sees through its cache. -/
structure Disciplined (size : Nat) (script : Fin 2 → List ScriptOp) : Prop where
  valid : ∀ c, ∀ ins ∈ script c, ins.valid = true
  tidy : ∀ c, ∀ ins ∈ script c, ins.tidy size = true
  free : RaceFree script
  lines : size % 16 = 0

/-! ### Turns on the shared memory -/

/-- Memory, devices without their write log, and what the scripts have read: who,
where, and which value. -/
structure Shared where
  memory : CommittedMemory
  devices : DeviceHub
  reads : List (Fin 2 × Addr × Word) := []

/-- The value that a script has read last. -/
def Shared.lastRead (sh : Shared) (c : Fin 2) : Option Word :=
  ((sh.reads.filter fun r => r.1 = c).getLast?).map fun r => r.2.2

/-- An operation of a script, executed on memory and devices at once. -/
def execShared (c : Fin 2) (ins : ScriptOp) (sh : Shared) : Shared :=
  let phys := toPhys ins.vaddr
  match ins.kind with
  | .compute | .barrier => sh
  | .write =>
    if isMmio phys then { sh with devices := sh.devices.store phys ins.size ins.value }
    else { sh with memory := sh.memory.write phys ins.size ins.value }
  | .read =>
    let value :=
      if isMmio phys then sh.devices.read 0 c.val phys ins.size else sh.memory.read phys ins.size
    { sh with reads := sh.reads ++ [(c, phys, value)] }

theorem Shared.lastRead_of_read {sh sh' : Shared} {c : Fin 2} {a : Addr} {value : Word}
    (h : sh'.reads = sh.reads ++ [(c, a, value)]) (d : Fin 2) :
    sh'.lastRead d = if c = d then some value else sh.lastRead d := by
  rw [Shared.lastRead, Shared.lastRead, h, List.filter_append, List.filter_singleton]
  by_cases hcd : c = d
  · rw [decide_eq_true hcd, if_pos hcd]
    simp
  · rw [decide_eq_false hcd, if_neg hcd]
    simp

/-! ### What a CPU holds -/

/-- The memory a CPU sees: its pending write is in its cache already. -/
def viewOf (m : CommittedMemory) (pending : Option PendingBusOp) : CommittedMemory :=
  match pending with
  | some p => if p.op.kind = .write then m.write p.op.physAddr p.op.size p.op.data else m
  | none => m

/-- The cache holds lines of cached reads, as they are in memory; the store
buffer holds the pending write and nothing else. -/
structure CacheAgrees (m : CommittedMemory) (cpu : ScriptedCPU) (pending : Option PendingBusOp) :
    Prop where
  wellFormed : cpu.cache.WellFormed
  lineSize : cpu.cache.lineSize = 16
  coherent : cpu.cache.Coherent (viewOf m pending)
  held : ∀ a, cpu.cache.holds a = true →
    ∃ r ∈ cpu.script, r.cachedRead = true ∧ lineOf (toPhys r.vaddr) = lineOf a
  drained : pending = none → cpu.storeBuffer = {}
  retires : ∀ p ins, pending = some p → cpu.script[p.scriptIndex]? = some ins →
    (ins.kind ≠ .write → cpu.storeBuffer = {}) ∧
      (ins.kind = .write → (cpu.storeBuffer.retire p.op.producerToken).2 = {})

end Saturnis.Cpu

namespace Saturnis.Cpu

open Saturnis.Core Saturnis.Mem Saturnis.Dev Saturnis.Bus

variable {m : CommittedMemory} {cpu : ScriptedCPU} {ins : ScriptOp} {phys a : Addr} {n : Nat}

/-- A write changes the bytes it covers, and no others. -/
theorem byteAt_write_of_out {value : Word} (hn : n ≤ 2 ^ 32) (hout : ¬ (a - phys).toNat < n) :
    (m.write phys n value).byteAt a = m.byteAt a := by
  rw [m.write_byteAt phys hn value, refStore]
  split_ifs
  · exact if_neg hout
  · rfl

/-- What another write does to what a CPU sees. -/
theorem byteAt_viewOf_write {value : Word} {pending : Option PendingBusOp} (hn : n ≤ 2 ^ 32)
    (hsize : ∀ p, pending = some p → p.op.kind = .write → p.op.size ≤ 2 ^ 32) (hout : ¬ (a - phys).toNat < n) :
    (viewOf (m.write phys n value) pending).byteAt a = (viewOf m pending).byteAt a := by
  have hfirst : (m.write phys n value).byteAt a = m.byteAt a := byteAt_write_of_out hn hout
  cases pending with
  | none => exact hfirst
  | some p =>
    rw [viewOf, viewOf]
    split_ifs with hop
    · rw [CommittedMemory.write_byteAt _ _ (hsize p rfl hop), CommittedMemory.write_byteAt _ _
        (hsize p rfl hop), CommittedMemory.size_write, refStore, refStore]
      split_ifs
      · simp only [hfirst]
      · exact hfirst
    · exact hfirst

/-- What is known of a valid, tidy access through the cache. -/
theorem tidy_access {size : Nat} (hvalid : ins.valid = true) (htidy : ins.tidy size = true)
    (hkind : ins.kind = .read ∨ ins.kind = .write) (hcached : ins.uncached = false) :
    ins.cachedRam size = true ∧ isAligned (toPhys ins.vaddr) ins.size = true := by
  have haccess : validBusSize ins.size = true ∧ isAligned (toPhys ins.vaddr) ins.size = true ∧
      Inside size (toPhys ins.vaddr) ins.size := by
    rcases hkind with hkind | hkind <;>
      simp [ScriptOp.valid, ScriptOp.tidy, hkind, hcached] at hvalid htidy <;>
      exact ⟨hvalid.1, htidy⟩
  refine ⟨?_, haccess.2.1⟩
  rw [ScriptOp.cachedRam, haccess.1, hcached, decide_eq_true haccess.2.2]
  simp

/-- An aligned access stays in its line. -/
theorem crosses_of_aligned {cache : TinyCache} (hwf : cache.WellFormed) (hline : cache.lineSize = 16)
    (hsize : validBusSize n = true) (haligned : isAligned phys n = true) :
    cache.crosses phys n = false := by
  simp only [validBusSize, Bool.or_eq_true, decide_eq_true_eq] at hsize
  simp only [isAligned, Bool.or_eq_true, decide_eq_true_eq] at haligned
  rw [TinyCache.crosses, hwf.offset, hline, decide_eq_false_iff_not]
  rcases hsize with (hsize | hsize) | hsize <;> rw [hsize] at haligned ⊢ <;> omega

/-! ### Issuing an operation -/

variable {script : Fin 2 → List ScriptOp} {c d : Fin 2}

/-- A write that is not to the cached lines of a CPU leaves them alone: the
write of the other CPU, or its own around the cache. -/
theorem Disciplined.untouched (hd : Disciplined m.size script) {cache : TinyCache}
    (hheld : cache.holds a = true →
      ∃ r ∈ script c, r.cachedRead = true ∧ lineOf (toPhys r.vaddr) = lineOf a)
    (hw : ins ∈ script d) (hkind : ins.kind = .write) (hmmio : isMmio (toPhys ins.vaddr) = false)
    (hother : d ≠ c ∨ ins.uncached = true) (ha : cache.holds a = true) :
    ¬ (a - toPhys ins.vaddr).toNat < ins.size := by
  intro hcov
  obtain ⟨r, hr, hread, hline⟩ := hheld ha
  rw [TinyCache.eq_add_ofNat_sub (toPhys ins.vaddr) a] at hline
  obtain ⟨hdc, huncached⟩ := hd.free c r hr hread d ins hw hkind hmmio _ hcov hline.symm
  rcases hother with hne | hun
  · exact hne hdc
  · exact absurd (huncached.symm.trans hun) Bool.false_ne_true

theorem valid_size (hvalid : ins.valid = true) (hkind : ins.kind = .read ∨ ins.kind = .write) :
    ins.size ≤ 4 := by
  have hsize : validBusSize ins.size = true := by
    rcases hkind with hkind | hkind <;> simp [ScriptOp.valid, hkind] at hvalid <;> exact hvalid.1
  simp only [validBusSize, Bool.or_eq_true, decide_eq_true_eq] at hsize
  omega

/-- A write goes to the cache, to the store buffer and to the bus. -/
theorem CacheAgrees.issueWrite (h : CacheAgrees m cpu none) (hd : Disciplined m.size script)
    (hscript : cpu.script = script c) (hget : cpu.script[cpu.pc]? = some ins)
    (hkind : ins.kind = .write) :
    CacheAgrees m (cpu.issueWrite ins).1 (some (cpu.issueWrite ins).2) := by
  have hmem : ins ∈ script c := hscript ▸ List.mem_of_getElem? hget
  have hvalid := hd.valid c ins hmem
  have hsize := valid_size hvalid (Or.inr hkind)
  have hheld := h.held
  have hbuffer := h.drained rfl
  have hretires : ∀ q i, some (cpu.issueWrite ins).2 = some q → cpu.script[q.scriptIndex]? = some i →
      (i.kind ≠ .write → (cpu.issueWrite ins).1.storeBuffer = {}) ∧
        (i.kind = .write →
          ((cpu.issueWrite ins).1.storeBuffer.retire q.op.producerToken).2 = {}) := by
    intro q i hq hi
    obtain rfl := Option.some_inj.mp hq
    obtain rfl : ins = i := Option.some_inj.mp (hget.symm.trans hi)
    refine ⟨fun hne => absurd hkind hne, fun _ => ?_⟩
    simp [ScriptedCPU.issueWrite, hbuffer, StoreBuffer.push, StoreBuffer.retire]
  cases hcached : ins.uncached with
  | true =>
    have hcache : (cpu.issueWrite ins).1.cache = cpu.cache := by
      simp only [ScriptedCPU.issueWrite, hcached, if_true]
    refine ⟨hcache ▸ h.wellFormed, hcache ▸ h.lineSize, ?_, hcache ▸ hheld, by simp, hretires⟩
    rw [hcache]
    refine h.coherent.frame fun a ha => ?_
    cases hmmio : isMmio (toPhys ins.vaddr) with
    | true =>
      -- a device register is not memory
      rw [viewOf, if_neg (by simp [ScriptedCPU.issueWrite, hmmio])]
      rfl
    | false =>
      rw [viewOf, if_pos (by simp [ScriptedCPU.issueWrite, hmmio])]
      exact byteAt_write_of_out (Nat.le_trans hsize (by decide))
        (hd.untouched (hscript ▸ hheld a) hmem hkind hmmio (Or.inr hcached) ha)
  | false =>
    obtain ⟨hram, haligned⟩ := tidy_access hvalid (hd.tidy c ins hmem) (Or.inr hkind) hcached
    obtain ⟨hvalidSize, -, hmmio, hin, hfit⟩ := Alone.cachedRam_access hram (Or.inr hkind)
    have hcache : (cpu.issueWrite ins).1.cache =
        cpu.cache.write (toPhys ins.vaddr) ins.size ins.value := by
      simp only [ScriptedCPU.issueWrite, hcached, Bool.false_eq_true, if_false]
    refine ⟨hcache ▸ h.wellFormed.write _ _ _, ?_, ?_, fun a ha => ?_, by simp, hretires⟩
    · rw [hcache, TinyCache.lineSize_write]
      exact h.lineSize
    · rw [hcache, viewOf, if_pos (by simp [ScriptedCPU.issueWrite, hmmio])]
      have hcross := crosses_of_aligned h.wellFormed h.lineSize hvalidSize haligned
      exact h.coherent.write h.wellFormed ins.value hfit hin fun hcrosses =>
        absurd (hcross.symm.trans hcrosses) Bool.false_ne_true
    · rw [hcache] at ha
      exact hheld a (TinyCache.holds_of_write h.wellFormed ha)

/-- An operation that is no write leaves cache and store buffer alone. -/
theorem CacheAgrees.issueOther (h : CacheAgrees m cpu none) (hget : cpu.script[cpu.pc]? = some ins)
    (hkind : ins.kind ≠ .write) :
    CacheAgrees m (cpu.issue ins).1 (some (cpu.issue ins).2) := by
  have hissue : (cpu.issue ins).1.cache = cpu.cache ∧ (cpu.issue ins).1.script = cpu.script ∧
      (cpu.issue ins).1.storeBuffer = cpu.storeBuffer ∧ (cpu.issue ins).2.op.kind ≠ .write ∧
        (cpu.issue ins).2.scriptIndex = cpu.pc := by
    rw [ScriptedCPU.issue]
    split
    · exact ⟨rfl, rfl, rfl, by simp [ScriptedCPU.issueBarrier], rfl⟩
    · rename_i heq
      exact absurd heq hkind
    · refine ⟨rfl, rfl, rfl, ?_, rfl⟩
      simp only [ScriptedCPU.issueRead]
      split_ifs <;> simp
  obtain ⟨hcache, hscript, hbuffer, hop, hindex⟩ := hissue
  refine ⟨hcache ▸ h.wellFormed, hcache ▸ h.lineSize, ?_, ?_, by simp, fun q i hq hi => ?_⟩
  · rw [hcache, viewOf, if_neg hop]
    exact h.coherent
  · rw [hcache, hscript]
    exact h.held
  · obtain rfl := Option.some_inj.mp hq
    rw [hscript, hindex] at hi
    obtain rfl : ins = i := Option.some_inj.mp (hget.symm.trans hi)
    exact ⟨fun _ => hbuffer.trans (h.drained rfl), fun hw => absurd hw hkind⟩

theorem CacheAgrees.issue (h : CacheAgrees m cpu none) (hd : Disciplined m.size script)
    (hscript : cpu.script = script c) (hget : cpu.script[cpu.pc]? = some ins) :
    CacheAgrees m (cpu.issue ins).1 (some (cpu.issue ins).2) := by
  by_cases hkind : ins.kind = .write
  · rw [ScriptedCPU.issue, hkind]
    exact h.issueWrite hd hscript hget hkind
  · exact h.issueOther hget hkind

/-! ### Turns of one CPU -/

/-- The CPU is where its program is in the turns, but for the pending operation. -/
structure AtTurn (t : Interleave.State (Fin 2) Shared) (c : Fin 2) (cpu : ScriptedCPU)
    (pending : Option PendingBusOp) : Prop where
  pc : t.pc c + pending.toList.length = cpu.pc
  lastRead : t.shared.lastRead c = cpu.lastRead

/-- The state after some turns of one CPU: only what it has read is new. -/
structure LocalTurns (c : Fin 2) (t t' : Interleave.State (Fin 2) Shared) : Prop where
  memory : t'.shared.memory = t.shared.memory
  devices : t'.shared.devices = t.shared.devices
  reads : t.shared.reads.Sublist t'.shared.reads
  lastRead : ∀ d, d ≠ c → t'.shared.lastRead d = t.shared.lastRead d
  pc : ∀ d, d ≠ c → t'.pc d = t.pc d

theorem LocalTurns.refl (c : Fin 2) (t : Interleave.State (Fin 2) Shared) : LocalTurns c t t :=
  ⟨rfl, rfl, .refl _, fun _ _ => rfl, fun _ _ => rfl⟩

theorem LocalTurns.trans {t t' t'' : Interleave.State (Fin 2) Shared} (h : LocalTurns c t t')
    (h' : LocalTurns c t' t'') : LocalTurns c t t'' :=
  ⟨h'.memory.trans h.memory, h'.devices.trans h.devices, h.reads.trans h'.reads,
    fun d hd => (h'.lastRead d hd).trans (h.lastRead d hd), fun d hd => (h'.pc d hd).trans (h.pc d hd)⟩

/-- A read that the cache answers is a read of memory. -/
theorem CacheAgrees.readLocally (h : CacheAgrees m cpu none) (hd : Disciplined m.size script)
    (hmem : ins ∈ script c) (hkind : ins.kind = .read) {value : Word}
    (hread : cpu.readLocally ins = some value) :
    isMmio (toPhys ins.vaddr) = false ∧ m.read (toPhys ins.vaddr) ins.size = value := by
  have hcached : ins.uncached = false := by
    by_contra hun
    rw [ScriptedCPU.readLocally, if_pos (by simpa using hun)] at hread
    exact absurd hread (by simp)
  obtain ⟨hram, -⟩ := tidy_access (hd.valid c ins hmem) (hd.tidy c ins hmem) (Or.inl hkind) hcached
  obtain ⟨-, -, hmmio, hin, hfit⟩ := Alone.cachedRam_access hram (Or.inl hkind)
  rw [ScriptedCPU.readLocally, if_neg (by rw [hcached]; exact Bool.false_ne_true),
    h.drained rfl] at hread
  change cpu.cache.read (toPhys ins.vaddr) ins.size = some value at hread
  refine ⟨hmmio, ?_⟩
  rw [h.coherent.read h.wellFormed hfit hread]
  exact CommittedMemory.read_eq_wordOf hin

/-- **`produce` is some turns of its CPU**, up to the operation it issues. -/
theorem produceLoop_turns (n : Nat) (cpu : ScriptedCPU) (t : Interleave.State (Fin 2) Shared)
    (hd : Disciplined t.shared.memory.size script) (hscript : cpu.script = script c)
    (h : CacheAgrees t.shared.memory cpu none) (hat : AtTurn t c cpu none) :
    ∃ order, LocalTurns c t (Interleave.run script execShared t order) ∧
      AtTurn (Interleave.run script execShared t order) c (cpu.produceLoop n).1
        (cpu.produceLoop n).2 ∧
      CacheAgrees t.shared.memory (cpu.produceLoop n).1 (cpu.produceLoop n).2 := by
  induction n generalizing cpu t with
  | zero => exact ⟨[], .refl c t, hat, h⟩
  | succ n ih =>
    rw [ScriptedCPU.produceLoop]
    cases hget : cpu.script[cpu.pc]? with
    | none => exact ⟨[], .refl c t, hat, h⟩
    | some ins =>
      have hpc : t.pc c = cpu.pc := hat.pc
      have hmem : ins ∈ script c := hscript ▸ List.mem_of_getElem? hget
      have hturn : (script c)[t.pc c]? = some ins := by rw [hpc, ← hscript, hget]
      have hissue : ∃ order, LocalTurns c t (Interleave.run script execShared t order) ∧
          AtTurn (Interleave.run script execShared t order) c (cpu.issue ins).1
            (some (cpu.issue ins).2) ∧
          CacheAgrees t.shared.memory (cpu.issue ins).1 (some (cpu.issue ins).2) := by
        refine ⟨[], .refl c t, ⟨?_, ?_⟩, h.issue hd hscript hget⟩
        · rw [ScriptedCPU.issue_pc]
          exact congrArg (· + 1) hpc
        · refine hat.lastRead.trans ?_
          rw [ScriptedCPU.issue]
          split <;> rfl
      -- a local operation is one turn
      have hlocal : ∀ next : ScriptedCPU, next.script = cpu.script → next.pc = cpu.pc + 1 →
          next.cache = cpu.cache → next.storeBuffer = cpu.storeBuffer →
          (execShared c ins t.shared).memory = t.shared.memory →
          (execShared c ins t.shared).devices = t.shared.devices →
          t.shared.reads.Sublist (execShared c ins t.shared).reads →
          (∀ d, d ≠ c → (execShared c ins t.shared).lastRead d = t.shared.lastRead d) →
          (execShared c ins t.shared).lastRead c = next.lastRead →
          ∃ order, LocalTurns c t (Interleave.run script execShared t order) ∧
            AtTurn (Interleave.run script execShared t order) c (next.produceLoop n).1
              (next.produceLoop n).2 ∧
            CacheAgrees t.shared.memory (next.produceLoop n).1 (next.produceLoop n).2 := by
        intro next hs hp hcache hbuffer hmemory hdevices hreads hothers hlast
        have hstep : Interleave.step script execShared t c =
            ⟨Function.update t.pc c (t.pc c + 1), execShared c ins t.shared⟩ :=
          Interleave.step_of_getElem? hturn
        have hnext : CacheAgrees t.shared.memory next none := by
          refine ⟨hcache ▸ h.wellFormed, hcache ▸ h.lineSize, hcache ▸ h.coherent, ?_, fun _ => ?_,
            by simp⟩
          · rw [hcache, hs]
            exact h.held
          · exact hbuffer.trans (h.drained rfl)
        obtain ⟨order, hturns, hat', hagrees⟩ := ih next
          ⟨Function.update t.pc c (t.pc c + 1), execShared c ins t.shared⟩
          (by rw [hmemory]; exact hd) (hs.trans hscript) (by rw [hmemory]; exact hnext)
          ⟨by rw [hp, ← hpc]; exact Function.update_self .., hlast⟩
        refine ⟨c :: order, ?_, ?_, ?_⟩
        · rw [Interleave.run, List.foldl_cons, hstep]
          exact LocalTurns.trans ⟨hmemory, hdevices, hreads, hothers,
            fun d hdc => Function.update_of_ne hdc _ _⟩ hturns
        · rw [Interleave.run, List.foldl_cons, hstep]
          exact hat'
        · rw [hmemory] at hagrees
          exact hagrees
      cases hkind : ins.kind with
      | compute =>
        have hexec : execShared c ins t.shared = t.shared := by simp only [execShared, hkind]
        simp only [hkind]
        exact hlocal _ rfl rfl rfl rfl (by rw [hexec]) (by rw [hexec]) (by rw [hexec])
          (fun _ _ => by rw [hexec]) (by rw [hexec]; exact hat.lastRead)
      | barrier =>
        simp only [hkind]
        exact hissue
      | write =>
        simp only [hkind]
        exact hissue
      | read =>
        cases hread : cpu.readLocally ins with
        | none =>
          simp only [hkind, hread]
          exact hissue
        | some value =>
          obtain ⟨hmmio, hvalue⟩ := h.readLocally hd hmem hkind hread
          have hexec : execShared c ins t.shared =
              { t.shared with
                reads := t.shared.reads ++ [(c, toPhys ins.vaddr, value)] } := by
            simp only [execShared, hkind, hmmio, Bool.false_eq_true, if_false, hvalue]
          simp only [hkind, hread]
          exact hlocal _ rfl rfl rfl rfl (by rw [hexec]) (by rw [hexec])
            (by rw [hexec]; exact List.sublist_append_left _ _)
            (fun d hdc => by
              rw [hexec]
              exact (Shared.lastRead_of_read rfl d).trans (if_neg (Ne.symm hdc)))
            (by
              rw [hexec]
              exact (Shared.lastRead_of_read rfl c).trans (if_pos rfl))

end Saturnis.Cpu

namespace Saturnis.Core

open Saturnis.Mem Saturnis.Dev Saturnis.Bus Saturnis.Cpu

/-- The devices without their write log. -/
def registersOf (d : DeviceHub) : DeviceHub := { d with writes := [] }

/-- The registers do not depend on the write log. -/
theorem registersOf_store (d : DeviceHub) (log : List MmioWriteLog) (addr : Addr) (size : Nat)
    (value : Word) :
    registersOf (DeviceHub.store { d with writes := log } addr size value) =
      (registersOf d).store addr size value := by
  have hbranch : ∀ (p : Prop) [Decidable p] {a b a' b' : DeviceHub}, registersOf a = a' →
      registersOf b = b' → registersOf (if p then a else b) = if p then a' else b' := by
    intro p _ a b a' b' ha hb
    rw [apply_ite registersOf, ha, hb]
  -- the branches of `store`, in the order of the source
  unfold DeviceHub.store
  refine hbranch _ rfl (hbranch _ rfl (hbranch _ rfl (hbranch _ rfl (hbranch _ rfl
    (hbranch _ rfl (hbranch _ rfl (hbranch _ ?_ (hbranch _ ?_ ?_))))))))
  · exact hbranch _ rfl rfl
  · exact hbranch _ rfl rfl
  · exact hbranch _ rfl rfl

theorem registersOf_write (d : DeviceHub) (t : Nat) (cpu : Int) (addr : Addr) (size : Nat)
    (value : Word) :
    registersOf (d.write t cpu addr size value) = (registersOf d).store addr size value :=
  registersOf_store d _ addr size value

/-! ### Answering an operation -/

section Answer

variable {script : Fin 2 → List ScriptOp} {c : Fin 2} {m : CommittedMemory} {cpu : ScriptedCPU}
  {ins : ScriptOp} {p : PendingBusOp} {sh : Shared}

/-- The bus does with an operation what its turn does. -/
theorem perform_execShared {op : BusOp} (hmatches : ins.Matches 16 op) {arb : BusArbiter}
    (hmemory : arb.memory = sh.memory) (hdevices : registersOf arb.devices = sh.devices)
    (finish : Nat) :
    (arb.perform op finish).memory = (execShared c ins sh).memory ∧
      registersOf (arb.perform op finish).devices = (execShared c ins sh).devices ∧
      (execShared c ins sh).reads = sh.reads ++
        if ins.kind = .read then [(c, op.physAddr, (arb.perform op finish).value)] else [] := by
  cases hkind : ins.kind with
  | compute => simp [ScriptOp.Matches, hkind] at hmatches
  | barrier =>
    simp only [ScriptOp.Matches, hkind] at hmatches
    simp [BusArbiter.perform, hmatches, execShared, hkind, hmemory, hdevices]
  | write =>
    simp only [ScriptOp.Matches, hkind] at hmatches
    obtain ⟨hop, hphys, hsize, hvalue, -⟩ := hmatches
    cases hmmio : isMmio (toPhys ins.vaddr) with
    | true =>
      simp [BusArbiter.perform, hop, hmmio, execShared, hkind, hmemory, hphys, hsize, hvalue,
        registersOf_write, hdevices]
    | false =>
      simp [BusArbiter.perform, hop, hmmio, execShared, hkind, hmemory, hphys, hsize, hvalue,
        hdevices]
  | read =>
    simp only [ScriptOp.Matches, hkind] at hmatches
    obtain ⟨hop, hphys, hsize, -⟩ := hmatches
    cases hmmio : isMmio (toPhys ins.vaddr) with
    | true =>
      simp [BusArbiter.perform, hop, hmmio, execShared, hkind, hmemory, hphys, hsize, hdevices]
      rw [← hdevices]
      rfl
    | false =>
      simp only [BusArbiter.perform, hop, hmmio, execShared, hkind, hphys, hsize]
      split_ifs <;> simp_all

/-- What the turn leaves in memory, the CPU has seen before. -/
theorem execShared_memory (hmatches : ins.Matches 16 p.op) :
    (execShared c ins sh).memory = viewOf sh.memory (some p) := by
  cases hkind : ins.kind with
  | compute => simp [ScriptOp.Matches, hkind] at hmatches
  | barrier =>
    simp only [ScriptOp.Matches, hkind] at hmatches
    simp [execShared, hkind, viewOf, hmatches]
  | write =>
    simp only [ScriptOp.Matches, hkind] at hmatches
    obtain ⟨hop, hphys, hsize, hvalue, -⟩ := hmatches
    cases hmmio : isMmio (toPhys ins.vaddr) with
    | true => simp [execShared, hkind, viewOf, hop, hmmio]
    | false => simp [execShared, hkind, viewOf, hop, hmmio, hphys, hsize, hvalue]
  | read =>
    simp only [ScriptOp.Matches, hkind] at hmatches
    have hne : p.op.kind ≠ .write := by
      rw [hmatches.1]
      split_ifs <;> simp
    simp [execShared, hkind, viewOf, hne]

theorem size_viewOf (m : CommittedMemory) (pending : Option PendingBusOp) :
    (viewOf m pending).size = m.size := by
  cases pending with
  | none => rfl
  | some p =>
    rw [viewOf]
    split_ifs
    · exact m.size_write _ _ _
    · rfl

/-- A response fills the cache only for a cached read. -/
theorem applyResponse_keeps (cpu : ScriptedCPU) (i : Nat) (response : BusResponse) (token : Nat)
    (hget : cpu.script[i]? = some ins) (hkind : ins.kind = .read → ins.uncached = true) :
    (cpu.applyResponse i response token).1.cache = cpu.cache ∧
      (cpu.applyResponse i response token).1.storeBuffer =
        if ins.kind = .write then (cpu.storeBuffer.retire token).2 else cpu.storeBuffer := by
  rw [ScriptedCPU.applyResponse, Alone.getD_of_getElem? hget]
  by_cases hwrite : ins.kind = .write
  · simp only [if_pos hwrite]
    exact ⟨trivial, trivial⟩
  · by_cases hread : ins.kind = .read
    · simp only [if_neg hwrite, if_pos hread, if_pos (hkind hread)]
      exact ⟨trivial, trivial⟩
    · simp only [if_neg hwrite, if_neg hread]
      exact ⟨trivial, trivial⟩

/-- **The response** leaves what the CPU holds in agreement with memory. -/
theorem agrees_answer (h : CacheAgrees m cpu (some p)) (hd : Disciplined m.size script)
    (hscript : cpu.script = script c) (hget : cpu.script[p.scriptIndex]? = some ins)
    (hmatches : ins.Matches 16 p.op) {response : BusResponse}
    (hline : ins.kind = .read → ins.uncached = false →
      response.lineBase = lineOf p.op.physAddr ∧
        response.lineData = m.readBlock (lineOf p.op.physAddr * 16#32) 16) :
    CacheAgrees (viewOf m (some p))
      (cpu.applyResponse p.scriptIndex response p.op.producerToken).1 none := by
  obtain ⟨hother, hwrite⟩ := h.retires p ins rfl hget
  have hmem : ins ∈ script c := hscript ▸ List.mem_of_getElem? hget
  have hanswered := cpu.applyResponse_answered p.scriptIndex response p.op.producerToken
  by_cases hfill : ins.kind = .read → ins.uncached = true
  · -- the cache stays as it is
    obtain ⟨hcache, hbuffer⟩ := applyResponse_keeps cpu p.scriptIndex response p.op.producerToken hget
      hfill
    refine ⟨hcache ▸ h.wellFormed, hcache ▸ h.lineSize, hcache ▸ h.coherent, ?_, fun _ => ?_,
      by simp⟩
    · rw [hcache, hanswered.script]
      exact h.held
    · rw [hbuffer]
      split_ifs with hkind
      · exact hwrite hkind
      · exact hother hkind
  · -- a cached read brings its line
    obtain ⟨hkind, huncached⟩ := Classical.not_imp.mp hfill
    have hcached : ins.uncached = false := by simpa using huncached
    simp only [ScriptOp.Matches, hkind, hcached] at hmatches
    obtain ⟨hop, hphys, -⟩ := hmatches
    obtain ⟨hbase, hdata⟩ := hline hkind hcached
    obtain ⟨hram, -⟩ := tidy_access (hd.valid c ins hmem) (hd.tidy c ins hmem) (Or.inl hkind) hcached
    obtain ⟨hsize, -, hmmio, hin, -⟩ := Alone.cachedRam_access hram (Or.inl hkind)
    rw [hmmio, if_neg Bool.false_ne_true] at hop
    have hview : viewOf m (some p) = m := by rw [viewOf, if_neg (by rw [hop]; simp)]
    have hpos : 0 < ins.size := by
      simp only [validBusSize, Bool.or_eq_true, decide_eq_true_eq] at hsize
      omega
    have hcoherent := h.coherent
    rw [hview] at hcoherent ⊢
    rw [hphys, ← TinyCache.lineBase_eq h.lineSize] at hbase hdata
    have hlen : response.lineData.length = cpu.cache.lineSize := by
      rw [hdata, CommittedMemory.length_readBlock, h.lineSize]
    rw [Alone.applyResponse_fill response p.op.producerToken hget hkind hcached hbase hlen
      h.wellFormed.pos]
    refine ⟨h.wellFormed.fillLine _ _, (TinyCache.lineSize_fillLine _ _ _).trans h.lineSize, ?_,
      fun a ha => ?_, fun _ => hother (by simp [hkind]), by simp⟩
    · refine hcoherent.fillLine h.wellFormed fun a ha => ?_
      rw [hbase, TinyCache.lineBase_eq h.lineSize, TinyCache.lineBase_eq h.lineSize] at ha
      rw [hdata, TinyCache.lineBase_eq h.lineSize, h.wellFormed.offset, h.lineSize]
      exact m.readBlock_line hd.lines (toPhys_lt ins.vaddr) ha
    · rcases TinyCache.holds_of_fillLine h.wellFormed ha with hsame | hheld
      · refine ⟨ins, hscript ▸ hmem, ?_, ?_⟩
        · rw [ScriptOp.cachedRead, hcached, hkind]
          rfl
        · rw [← TinyCache.lineBase_eq h.lineSize, ← TinyCache.lineBase_eq h.lineSize, ← hbase]
          exact hsame.symm
      · exact h.held a hheld

/-- A write to memory comes from a script write. -/
theorem write_of_matches {op : BusOp} (hmatches : ins.Matches 16 op) (hop : op.kind = .write) :
    ins.kind = .write ∧ isMmio (toPhys ins.vaddr) = false ∧ op.physAddr = toPhys ins.vaddr ∧
      op.size = ins.size := by
  rw [ScriptOp.Matches, hop] at hmatches
  cases hkind : ins.kind with
  | compute => simp [hkind] at hmatches
  | barrier => simp [hkind] at hmatches
  | write =>
    simp only [hkind] at hmatches
    obtain ⟨hmmio, hphys, hsize, -⟩ := hmatches
    refine ⟨rfl, ?_, hphys, hsize⟩
    split_ifs at hmmio with h
    simpa using h
  | read =>
    simp only [hkind] at hmatches
    have hmmio := hmatches.1
    split_ifs at hmmio

/-- The write of one CPU leaves what the other holds in agreement with memory. -/
theorem agrees_other {d : Fin 2} {pending : Option PendingBusOp} (h : CacheAgrees m cpu pending)
    (hd : Disciplined m.size script) (hscript : cpu.script = script d) (hne : c ≠ d)
    (hmem : ins ∈ script c) (hmatches : ins.Matches 16 p.op)
    (hsize : ∀ q, pending = some q → q.op.kind = .write → q.op.size ≤ 2 ^ 32) :
    CacheAgrees (viewOf m (some p)) cpu pending := by
  refine ⟨h.wellFormed, h.lineSize, h.coherent.frame fun a ha => ?_, h.held, h.drained, h.retires⟩
  by_cases hop : p.op.kind = .write
  · obtain ⟨hkind, hmmio, hphys, hlen⟩ := write_of_matches hmatches hop
    have hle := valid_size (hd.valid c ins hmem) (Or.inr hkind)
    have hfirst : viewOf m (some p) = m.write (toPhys ins.vaddr) ins.size p.op.data := by
      rw [viewOf, if_pos hop, hphys, hlen]
    rw [hfirst]
    exact byteAt_viewOf_write (Nat.le_trans hle (by decide)) hsize
      (hd.untouched (hscript ▸ h.held a) hmem hkind hmmio (Or.inl hne) ha)
  · have hsame : viewOf m (some p) = m := by rw [viewOf, if_neg hop]
    rw [hsame]

/-- A read of the bus comes from a script read. -/
theorem isRead_of_matches {op : BusOp} (hmatches : ins.Matches 16 op) :
    op.kind = .read ∨ op.kind = .mmioRead ↔ ins.kind = .read := by
  rw [ScriptOp.Matches] at hmatches
  cases hkind : ins.kind with
  | compute => simp [hkind] at hmatches
  | barrier => simp_all
  | write =>
    simp only [hkind] at hmatches
    rw [hmatches.1]
    split_ifs <;> simp
  | read =>
    simp only [hkind] at hmatches
    rw [hmatches.1]
    split_ifs <;> simp

theorem applyResponse_lastRead (cpu : ScriptedCPU) (i : Nat) (response : BusResponse) (token : Nat)
    (hget : cpu.script[i]? = some ins) :
    (cpu.applyResponse i response token).1.lastRead =
      if ins.kind = .read then some response.value else cpu.lastRead := by
  rw [ScriptedCPU.applyResponse, Alone.getD_of_getElem? hget]
  by_cases hread : ins.kind = .read
  · simp only [hread, if_true, reduceCtorEq, if_false]
    split_ifs <;> rfl
  · rw [if_neg hread]
    simp only [if_neg hread]
    split_ifs <;> rfl

/-- The line that the bus reads along with a cached read. -/
theorem perform_line {op : BusOp} (hmatches : ins.Matches 16 op) (hkind : ins.kind = .read)
    (hcached : ins.uncached = false) (arb : BusArbiter) (finish : Nat) :
    (arb.perform op finish).lineBase = lineOf op.physAddr ∧
      (arb.perform op finish).lineData = arb.memory.readBlock (lineOf op.physAddr * 16#32) 16 := by
  have hmmio : isMmio (toPhys ins.vaddr) = false := by
    rw [ScriptOp.uncached, Bool.or_eq_false_iff] at hcached
    exact hcached.2
  simp only [ScriptOp.Matches, hkind, hcached] at hmatches
  obtain ⟨hop, hphys, -, hfill, hline⟩ := hmatches
  simp [BusArbiter.perform, hop, hphys, hfill, hline, hmmio, lineOf]

end Answer

/-- A read that the bus has answered: who, where, and which value. -/
def readOf (x : Request × BusResponse) : Option (Fin 2 × Addr × Word) :=
  if x.1.2.op.kind = .read ∨ x.1.2.op.kind = .mmioRead then
    some (x.1.1, x.1.2.op.physAddr, x.2.value)
  else none

/-- The CPUs, the bus and the devices stand where the turns are. -/
structure Follows (script : Fin 2 → List ScriptOp) (t : Interleave.State (Fin 2) Shared)
    (s : ScriptedPair) : Prop where
  scripts : ∀ c, (s.cpu c).script = script c
  memory : s.arb.memory = t.shared.memory
  devices : registersOf s.arb.devices = t.shared.devices
  reads : (s.served.filterMap readOf).Sublist t.shared.reads
  disciplined : Disciplined t.shared.memory.size script
  atTurn : ∀ c, AtTurn t c (s.cpu c) (s.pending c)
  agrees : ∀ c, CacheAgrees t.shared.memory (s.cpu c) (s.pending c)

namespace Follows

variable {script : Fin 2 → List ScriptOp} {t : Interleave.State (Fin 2) Shared}
  {s s' : ScriptedPair} {c : Fin 2} {p : PendingBusOp} {total : Nat}

/-- Both CPUs run up to their next operations. -/
theorem fetch (h : Follows script t s) :
    ∃ order, Follows script (Interleave.run script execShared t order) s.fetch := by
  -- one CPU after the other
  have hone : ∀ (c : Fin 2) (t : Interleave.State (Fin 2) Shared),
      Disciplined t.shared.memory.size script → AtTurn t c (s.cpu c) (s.pending c) →
      CacheAgrees t.shared.memory (s.cpu c) (s.pending c) →
      ∃ order, LocalTurns c t (Interleave.run script execShared t order) ∧
        AtTurn (Interleave.run script execShared t order) c (s.fetch.cpu c) (s.fetch.pending c) ∧
        CacheAgrees t.shared.memory (s.fetch.cpu c) (s.fetch.pending c) := by
    intro c t hd hat hagrees
    change ∃ order, _ ∧ AtTurn _ c (fetchCpu (s.cpu c) (s.pending c)).1
      (fetchCpu (s.cpu c) (s.pending c)).2 ∧ CacheAgrees _ (fetchCpu (s.cpu c) (s.pending c)).1
        (fetchCpu (s.cpu c) (s.pending c)).2
    cases hp : s.pending c with
    | some p =>
      rw [hp] at hat hagrees
      exact ⟨[], .refl c t, hat, hagrees⟩
    | none =>
      rw [hp] at hat hagrees
      rw [fetchCpu_none]
      exact produceLoop_turns _ (s.cpu c) t hd (h.scripts c) hagrees hat
  obtain ⟨order, hlocal, hat, hagrees⟩ := hone 0 t h.disciplined (h.atTurn 0) (h.agrees 0)
  generalize hmid : Interleave.run script execShared t order = mid at hlocal hat
  obtain ⟨order', hlocal', hat', hagrees'⟩ := hone 1 mid
    (by rw [hlocal.memory]; exact h.disciplined)
    ⟨by rw [hlocal.pc 1 (by decide)]; exact (h.atTurn 1).pc, by
      rw [hlocal.lastRead 1 (by decide)]; exact (h.atTurn 1).lastRead⟩
    (by rw [hlocal.memory]; exact h.agrees 1)
  refine ⟨order ++ order', ?_⟩
  rw [Interleave.run_append, hmid]
  generalize Interleave.run script execShared mid order' = last at hlocal' hat'
  have hmemory : last.shared.memory = t.shared.memory := hlocal'.memory.trans hlocal.memory
  refine ⟨fun c => (s.fetch_script c).trans (h.scripts c), h.memory.trans hmemory.symm,
    h.devices.trans (hlocal'.devices.trans hlocal.devices).symm,
    h.reads.trans (hlocal.reads.trans hlocal'.reads),
    by rw [hmemory]; exact h.disciplined, fun c => ?_, fun c => ?_⟩
  · match c with
    | 0 =>
      refine ⟨?_, ?_⟩
      · rw [hlocal'.pc 0 (by decide)]
        exact hat.pc
      · rw [hlocal'.lastRead 0 (by decide)]
        exact hat.lastRead
    | 1 => exact hat'
  · rw [hmemory]
    match c with
    | 0 => exact hagrees
    | 1 =>
      rw [hlocal.memory] at hagrees'
      exact hagrees'

/-- A pending operation is that of the next turn of its CPU. -/
theorem turn (h : Follows script t s) (hs : s.Sound) (hp : s.pending c = some p) :
    ∃ ins, (script c)[t.pc c]? = some ins ∧ (s.cpu c).script[p.scriptIndex]? = some ins ∧
      ins.Matches 16 p.op := by
  obtain ⟨hpc, -, -, -, ins, hget, hmatches⟩ := hs.outstanding c p hp
  rw [hs.lineSize] at hmatches
  have hturn := (h.atTurn c).pc
  rw [hp, Option.toList_some, List.length_singleton] at hturn
  refine ⟨ins, ?_, hget, hmatches⟩
  rw [← h.scripts c, show t.pc c = p.scriptIndex by omega]
  exact hget

/-- **An operation that the bus executes is one turn of its CPU.** -/
theorem serve (h : Follows script t s) (hs : s.Steady) (hp : s.pending c = some p) (tie : Bool) :
    Follows script (Interleave.run script execShared t [c]) (s.serve c p tie) := by
  obtain ⟨ins, hturn, hget, hmatches⟩ := h.turn hs.sound hp
  have hmem : ins ∈ script c := List.mem_of_getElem? hturn
  obtain ⟨harb, hserved, hpending⟩ := hs.serve_eq hp tie
  obtain ⟨hmemory, hdevices, hreads⟩ := perform_execShared (c := c) hmatches h.memory h.devices
    (s.arb.grant p.op tie).2.commitTime
  have hlast : ∀ d, (execShared c ins t.shared).lastRead d =
      if c = d ∧ ins.kind = .read then some (s.arb.grant p.op tie).2.value
      else t.shared.lastRead d := by
    intro d
    by_cases hkind : ins.kind = .read
    · rw [if_pos hkind] at hreads
      rw [Shared.lastRead_of_read hreads d]
      simp only [hkind, and_true]
      rfl
    · rw [if_neg hkind, List.append_nil] at hreads
      rw [if_neg (fun hcd => hkind hcd.2), Shared.lastRead, hreads, Shared.lastRead]
  have hview : (execShared c ins t.shared).memory = viewOf t.shared.memory (some p) :=
    execShared_memory hmatches
  have hsize : (execShared c ins t.shared).memory.size = t.shared.memory.size := by
    rw [hview, size_viewOf]
  rw [Interleave.run, List.foldl_cons, List.foldl_nil, Interleave.step_of_getElem? hturn]
  have hanswered := hs.answered hp tie
  have hcpu : (s.serve c p tie).cpu c =
      ((s.cpu c).applyResponse p.scriptIndex (s.arb.grant p.op tie).2 p.op.producerToken).1 := by
    rw [ScriptedPair.serve, ScriptedPair.answer_cpu, Function.update_self,
      BusArbiter.executeCommit_of_accepts (hs.accepts hp)]
  refine ⟨fun d => ?_, ?_, ?_, ?_, ?_, fun d => ?_, fun d => ?_⟩
  · by_cases hne : d = c
    · rw [hne, hanswered.script]
      exact h.scripts c
    · rw [s.serve_cpu_of_ne hne]
      exact h.scripts d
  · rw [harb]
    exact hmemory
  · rw [harb]
    exact hdevices
  · rw [hserved, List.filterMap_append]
    change List.Sublist _ (execShared c ins t.shared).reads
    rw [hreads]
    refine h.reads.append ?_
    by_cases hkind : ins.kind = .read
    · rw [List.filterMap_cons, readOf, if_pos ((isRead_of_matches hmatches).mpr hkind), if_pos hkind]
      exact .refl _
    · rw [List.filterMap_cons, readOf, if_neg (fun hop => hkind ((isRead_of_matches hmatches).mp hop)),
        if_neg hkind]
      exact .refl _
  · rw [hsize]
    exact h.disciplined
  · rw [hpending]
    by_cases hne : d = c
    · rw [hne]
      refine ⟨?_, ?_⟩
      · have hpc := (h.atTurn c).pc
        rw [hp] at hpc
        rw [Function.update_self, hanswered.pc]
        change Function.update t.pc c (t.pc c + 1) c + 0 = (s.cpu c).pc
        rw [Function.update_self]
        exact hpc
      · rw [hcpu, applyResponse_lastRead _ _ _ _ hget, ← (h.atTurn c).lastRead]
        refine (hlast c).trans ?_
        simp only [true_and]
    · rw [s.serve_cpu_of_ne hne, Function.update_of_ne hne]
      refine ⟨?_, ?_⟩
      · change Function.update t.pc c (t.pc c + 1) d + _ = (s.cpu d).pc
        rw [Function.update_of_ne hne]
        exact (h.atTurn d).pc
      · refine ((hlast d).trans (if_neg ?_)).trans (h.atTurn d).lastRead
        exact fun hcd => hne hcd.1.symm
  · rw [hpending, hview]
    have hagrees := h.agrees c
    rw [hp] at hagrees
    by_cases hne : d = c
    · rw [hne, hcpu, Function.update_self]
      refine agrees_answer hagrees h.disciplined (h.scripts c) hget hmatches fun hkind hcached => ?_
      have hline := perform_line hmatches hkind hcached s.arb (s.arb.grant p.op tie).2.commitTime
      rw [h.memory] at hline
      exact hline
    · rw [s.serve_cpu_of_ne hne, Function.update_of_ne hne]
      refine agrees_other (h.agrees d) h.disciplined (h.scripts d) (Ne.symm hne) hmem hmatches
        fun q hq hop => ?_
      obtain ⟨i, hi, -, hmatches'⟩ := h.turn hs.sound hq
      obtain ⟨hkind, -, -, hlen⟩ := write_of_matches hmatches' hop
      have hle := valid_size (h.disciplined.valid d i (List.mem_of_getElem? hi)) (Or.inr hkind)
      rw [hlen]
      exact Nat.le_trans hle (by decide)

/-- Watermarks and enqueue bookkeeping are not part of the turns. -/
theorem note (h : Follows script t s) {arb : BusArbiter} (harb : arb.core = s.arb.core) :
    Follows script t { s with arb } :=
  ⟨h.scripts, (BusArbiter.core_memory harb).trans h.memory,
    (congrArg (fun a => registersOf a.devices) harb : _ = registersOf s.arb.core.devices).trans
      h.devices, h.reads, h.disciplined, h.atTurn, h.agrees⟩

/-- **Every move is some turns.** -/
theorem move (h : Follows script t s) (hs : s.Steady) (hmove : ScriptedPair.Move s s') :
    ∃ order, Follows script (Interleave.run script execShared t order) s' := by
  cases hmove with
  | fetch => exact h.fetch
  | serve c p tie hp => exact ⟨[c], h.serve hs hp tie⟩
  | note arb harb => exact ⟨[], h.note harb⟩

theorem moves (h : Follows script t s) (hb : s.WithinBudget total) (htotal : total < tickModulus)
    (hmoves : ScriptedPair.Moves s s') :
    ∃ order, Follows script (Interleave.run script execShared t order) s' := by
  induction hmoves with
  | refl => exact ⟨[], h⟩
  | tail hbefore hstep ih =>
    obtain ⟨order, hmid⟩ := ih
    have hsteady := (ScriptedPair.Moves.withinBudget hbefore hb htotal).toSteady
    obtain ⟨order', hlast⟩ := hmid.move hsteady hstep
    refine ⟨order ++ order', ?_⟩
    rw [Interleave.run_append]
    exact hlast

/-- Before anything has happened. -/
theorem start (arb : BusArbiter) (hd : Disciplined arb.memory.size script) :
    Follows script (Interleave.start ⟨arb.memory, registersOf arb.devices, []⟩)
      (ScriptedPair.start script arb) := by
  refine ⟨fun _ => rfl, rfl, rfl, .refl _, hd, fun _ => ⟨rfl, rfl⟩, fun c => ?_⟩
  have hcache : ((ScriptedPair.start script arb).cpu c).cache = .make 16 64 := rfl
  refine ⟨?_, rfl, TinyCache.coherent_make _ _ _, fun a ha => ?_, fun _ => rfl,
    fun p ins hp _ => absurd hp (by simp [ScriptedPair.start])⟩
  · exact TinyCache.wellFormed_make (by omega) (by omega) (by omega)
  · rw [hcache, TinyCache.holds_make] at ha
    exact absurd ha Bool.false_ne_true

end Follows

/-! ### Whole runs -/

/-- The scripts take turns on the memory and the devices they start with. -/
def afterTurns (script : Fin 2 → List ScriptOp) (memory : CommittedMemory) (devices : DeviceHub)
    (order : List (Fin 2)) : Interleave.State (Fin 2) Shared :=
  Interleave.run script execShared (Interleave.start ⟨memory, registersOf devices, []⟩) order

/-- What the turns leave in memory and in the device registers, the bus has left
there, and what it has answered to reads, the turns have read; in the end both
scripts have had all their turns, and the CPUs hold the values read last. -/
structure ScriptedThreads.TakesTurns (m : ScriptedThreads) (script : Fin 2 → List ScriptOp)
    (t : Interleave.State (Fin 2) Shared) : Prop where
  memory : m.arb.memory = t.shared.memory
  devices : registersOf m.arb.devices = t.shared.devices
  reads : (m.served.filterMap readOf).Sublist t.shared.reads
  finished : m.Finished → ∀ c, t.pc c = (script c).length ∧
    (m.producer c).cpu.lastRead = t.shared.lastRead c

/-- **Without races nobody sees the caches.**  Whatever the schedule of the
multi-threaded driver, memory, devices and reads are those of two scripts that
take turns on one memory, in some order. -/
theorem multithread_consistent (script : Fin 2 → List ScriptOp) (memory : CommittedMemory)
    (devices : DeviceHub) (policy : ArbitrationPolicy) (haltOnFault : Bool)
    (hd : Disciplined memory.size script)
    (hbudget : ScriptedPair.tickBudget script < tickModulus) (schedule : List Thread) :
    ∃ order, ((ScriptedThreads.start script
        { memory, devices, policy, trace := { haltOnFault } }).run schedule).TakesTurns script
      (afterTurns script memory devices order) := by
  have hb := ScriptedPair.withinBudget_start script memory devices policy haltOnFault hd.valid
  have hstart := Tracks.start script { memory, devices, policy, trace := { haltOnFault } }
    (fun _ => rfl) (hb.ticksFit hbudget rfl)
  obtain ⟨s, hmoves, htracks⟩ := hstart.exists_moves hb hbudget schedule
  have hfollows : Follows script (Interleave.start ⟨memory, registersOf devices, []⟩)
      (ScriptedPair.start script { memory, devices, policy, trace := { haltOnFault } }) :=
    Follows.start { memory, devices, policy, trace := { haltOnFault } } hd
  obtain ⟨order, hfollows⟩ := hfollows.moves hb hbudget (hmoves.tail .fetch)
  change Follows script (afterTurns script memory devices order) s.fetch at hfollows
  refine ⟨order, ?_, ?_, ?_, fun hfinished c => ?_⟩
  · rw [BusArbiter.core_memory htracks.core]
    exact hfollows.memory
  · rw [← hfollows.devices]
    exact congrArg (fun a => registersOf a.devices) htracks.core
  · rw [htracks.served]
    exact hfollows.reads
  · obtain ⟨hcpu, hpending, hdone⟩ := htracks.cpu_of_finished hfinished c
    obtain ⟨hpc, hlast⟩ := hfollows.atTurn c
    rw [hpending, hcpu] at hpc
    rw [hcpu] at hlast
    refine ⟨?_, hlast.symm⟩
    have hscript := hfollows.scripts c
    rw [hcpu] at hscript
    have hend := of_decide_eq_true hdone
    rw [hscript] at hend
    have hle : (afterTurns script memory devices order).pc c ≤ (script c).length := by
      rw [afterTurns, Interleave.pc_run]
      exact Nat.min_le_right _ _
    exact Nat.le_antisymm hle (Nat.le_trans hend (Nat.le_of_eq hpc.symm))

/-- CPU 0 reads back what it wrote while CPU 1 writes the next line and a device register. -/
theorem multithread_consistent_lines :
    ∃ order, ((ScriptedThreads.start
        ![[{ kind := .write, value := 5 }, { kind := .read }],
          [{ kind := .write, vaddr := 16, value := 7 },
            { kind := .write, vaddr := 0x05FE00A0#32, value := 3 }]]
        { memory := .make 64, trace := { haltOnFault := false } }).run (inTurn 60)).TakesTurns
      ![[{ kind := .write, value := 5 }, { kind := .read }],
        [{ kind := .write, vaddr := 16, value := 7 },
          { kind := .write, vaddr := 0x05FE00A0#32, value := 3 }]]
      (afterTurns ![[{ kind := .write, value := 5 }, { kind := .read }],
        [{ kind := .write, vaddr := 16, value := 7 },
          { kind := .write, vaddr := 0x05FE00A0#32, value := 3 }]] (.make 64) {} order) :=
  multithread_consistent _ (.make 64) {} defaultPolicy false
    ⟨by decide, by decide, by decide, by decide⟩ (by decide) _

end Saturnis.Core
