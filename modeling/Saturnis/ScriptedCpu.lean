/-
The scripted CPU.

`produce` runs a script up to the next operation that needs the bus: it adds up
compute cycles and answers reads from the store buffer or the cache.  The loop
of the source advances `pc` in every round, so `produceLoop` takes the number
of script operations that are left.

* `produce_spec` — `produce` executes local operations, then issues the next
  one that needs the bus, or ends at the end of the script;
* `ProduceFits.localTime` — the clock does not run back while the cycles it
  adds up stay below the tick modulus;
* `applyResponse_answered` — what a response leaves alone.
-/
import Saturnis.ArbiterCore

namespace Saturnis.Cpu

open Saturnis.Core Saturnis.Mem Saturnis.Bus

inductive ScriptOpKind
  | read | write | compute | barrier
deriving DecidableEq, Repr

structure ScriptOp where
  kind : ScriptOpKind := .compute
  vaddr : Addr := 0
  size : Nat := 4
  value : Word := 0
  cycles : Nat := 0
deriving DecidableEq, Repr

structure PendingBusOp where
  op : BusOp := {}
  scriptIndex : Nat := 0
deriving DecidableEq, Repr

structure ScriptedCPU where
  cpuId : Int
  script : List ScriptOp
  pc : Nat := 0
  sequence : Nat := 0
  localTime : Nat := 0
  storeBuffer : StoreBuffer := {}
  cache : TinyCache
  lastRead : Option Word := none
  nextStoreId : Nat := 1

/-- Reads and writes of uncached aliases and of device registers pass the cache by. -/
def ScriptOp.uncached (ins : ScriptOp) : Bool :=
  isUncachedAlias ins.vaddr || isMmio (toPhys ins.vaddr)

/-- The operation needs the bus whatever the cache holds. -/
def ScriptOp.onBus (ins : ScriptOp) : Bool :=
  ins.kind = .write || ins.kind = .barrier || (ins.kind = .read && ins.uncached)

/-- The fields of a bus operation that the script operation determines. -/
def ScriptOp.Matches (ins : ScriptOp) (lineSize : Nat) (op : BusOp) : Prop :=
  match ins.kind with
  | .compute => False
  | .barrier => op.kind = .barrier
  | .write =>
    op.kind = (if isMmio (toPhys ins.vaddr) then .mmioWrite else .write) ∧
      op.physAddr = toPhys ins.vaddr ∧ op.size = ins.size ∧ op.data = ins.value ∧
        op.fillCacheLine = false
  | .read =>
    op.kind = (if isMmio (toPhys ins.vaddr) then .mmioRead else .read) ∧
      op.physAddr = toPhys ins.vaddr ∧ op.size = ins.size ∧ op.fillCacheLine = !ins.uncached ∧
        op.cacheLineSize = if ins.uncached then 0 else lineSize % 256

/-- A size the bus accepts and, for device registers, an alignment it accepts. -/
def ScriptOp.valid (ins : ScriptOp) : Bool :=
  ins.kind = .compute || ins.kind = .barrier ||
    (validBusSize ins.size &&
      (!isMmio (toPhys ins.vaddr) || isAligned (toPhys ins.vaddr) ins.size))

theorem ScriptOp.Matches.validateBusOp {ins : ScriptOp} {lineSize : Nat} {op : BusOp}
    (h : ins.Matches lineSize op) (hvalid : ins.valid = true) : validateBusOp op = .none := by
  rw [ScriptOp.Matches] at h
  cases hkind : ins.kind with
  | compute => exact absurd h (by simp [hkind])
  | barrier =>
    rw [hkind] at h
    rw [Bus.validateBusOp, if_pos h]
  | write =>
    rw [hkind] at h
    obtain ⟨hop, hphys, hsize, -⟩ := h
    simp only [ScriptOp.valid, hkind] at hvalid
    rw [Bus.validateBusOp, hop, hphys, hsize]
    cases hmmio : isMmio (toPhys ins.vaddr) <;> simp_all
  | read =>
    rw [hkind] at h
    obtain ⟨hop, hphys, hsize, -⟩ := h
    simp only [ScriptOp.valid, hkind] at hvalid
    rw [Bus.validateBusOp, hop, hphys, hsize]
    cases hmmio : isMmio (toPhys ins.vaddr) <;> simp_all

namespace ScriptedCPU

/-- The constructor, with its default cache of 64 lines of 16 bytes. -/
def make (cpuId : Int) (script : List ScriptOp) : ScriptedCPU :=
  { cpuId, script, cache := .make 16 64 }

def done (cpu : ScriptedCPU) : Bool := decide (cpu.pc ≥ cpu.script.length)

/-! ### `produce` -/

def issueBarrier (cpu : ScriptedCPU) : ScriptedCPU × PendingBusOp :=
  ({ cpu with sequence := cpu.sequence + 1, pc := cpu.pc + 1 },
    ⟨{ cpuId := cpu.cpuId, reqTime := cpu.localTime, sequence := cpu.sequence, kind := .barrier,
       physAddr := 0, size := 0, data := 0 }, cpu.pc⟩)

def issueWrite (cpu : ScriptedCPU) (ins : ScriptOp) : ScriptedCPU × PendingBusOp :=
  let phys := toPhys ins.vaddr
  ({ cpu with
      nextStoreId := cpu.nextStoreId + 1
      storeBuffer := cpu.storeBuffer.push ⟨cpu.nextStoreId, phys, ins.size, ins.value⟩
      cache := if ins.uncached then cpu.cache else cpu.cache.write phys ins.size ins.value
      sequence := cpu.sequence + 1
      pc := cpu.pc + 1 },
    ⟨{ cpuId := cpu.cpuId, reqTime := cpu.localTime, sequence := cpu.sequence
       kind := if isMmio phys then .mmioWrite else .write
       physAddr := phys, size := ins.size, data := ins.value
       producerToken := cpu.nextStoreId }, cpu.pc⟩)

def issueRead (cpu : ScriptedCPU) (ins : ScriptOp) : ScriptedCPU × PendingBusOp :=
  let phys := toPhys ins.vaddr
  ({ cpu with sequence := cpu.sequence + 1, pc := cpu.pc + 1 },
    ⟨{ cpuId := cpu.cpuId, reqTime := cpu.localTime, sequence := cpu.sequence
       kind := if isMmio phys then .mmioRead else .read
       physAddr := phys, size := ins.size, data := 0
       fillCacheLine := !ins.uncached
       cacheLineSize := if ins.uncached then 0 else cpu.cache.lineSize % 256 }, cpu.pc⟩)

/-- The bus operation of a script operation that is not a compute step. -/
def issue (cpu : ScriptedCPU) (ins : ScriptOp) : ScriptedCPU × PendingBusOp :=
  match ins.kind with
  | .barrier => cpu.issueBarrier
  | .write => cpu.issueWrite ins
  | _ => cpu.issueRead ins

/-- A read that the store buffer or the cache answers. -/
def readLocally (cpu : ScriptedCPU) (ins : ScriptOp) : Option Word :=
  if ins.uncached then none
  else
    match cpu.storeBuffer.forward (toPhys ins.vaddr) ins.size with
    | some value => some value
    | none => cpu.cache.read (toPhys ins.vaddr) ins.size

def produceLoop : Nat → ScriptedCPU → ScriptedCPU × Option PendingBusOp
  | 0, cpu => (cpu, none)
  | n + 1, cpu =>
    match cpu.script[cpu.pc]? with
    | none => (cpu, none)
    | some ins =>
      match ins.kind with
      | .compute =>
        produceLoop n
          { cpu with localTime := tickAdd cpu.localTime ins.cycles, pc := cpu.pc + 1 }
      | .barrier | .write => ((cpu.issue ins).1, some (cpu.issue ins).2)
      | .read =>
        match cpu.readLocally ins with
        | some value => produceLoop n { cpu with lastRead := some value, pc := cpu.pc + 1 }
        | none => ((cpu.issue ins).1, some (cpu.issue ins).2)

def produce (cpu : ScriptedCPU) : ScriptedCPU × Option PendingBusOp :=
  produceLoop (cpu.script.length - cpu.pc) cpu

/-! ### `apply_response` -/

/-- The fault, if any, goes to the trace of the caller. -/
def applyResponse (cpu : ScriptedCPU) (scriptIndex : Nat) (response : BusResponse)
    (producerToken : Nat) : ScriptedCPU × Option FaultEvent :=
  let cpu := { cpu with localTime := tickAdd cpu.localTime response.stall }
  let ins := cpu.script.getD scriptIndex {}
  let phys := toPhys ins.vaddr
  if ins.kind = .write then
    ({ cpu with storeBuffer := (cpu.storeBuffer.retire producerToken).2 }, none)
  else if ins.kind = .read then
    let cpu := { cpu with lastRead := some response.value }
    if ins.uncached then (cpu, none)
    else
      let lineBase := phys / BitVec.ofNat 32 cpu.cache.lineSize
      if response.lineData ≠ [] then
        if response.lineBase ≠ lineBase ∨ response.lineData.length ≠ cpu.cache.lineSize then
          (cpu, some ⟨cpu.localTime, cpu.cpuId, 0, phys, "CACHE_FILL_MISMATCH"⟩)
        else ({ cpu with cache := cpu.cache.fillLine response.lineBase response.lineData }, none)
      else
        let cache := cpu.cache.fillLine lineBase (List.replicate cpu.cache.lineSize 0)
        ({ cpu with cache := cache.write phys ins.size response.value }, none)
  else (cpu, none)

/-! ### What `produce` does -/

/-- `mid` comes from `cpu` by executing local script operations. -/
structure Advances (cpu mid : ScriptedCPU) : Prop where
  cpuId : mid.cpuId = cpu.cpuId
  script : mid.script = cpu.script
  sequence : mid.sequence = cpu.sequence
  storeBuffer : mid.storeBuffer = cpu.storeBuffer
  cache : mid.cache = cpu.cache
  pc : cpu.pc ≤ mid.pc
  skipped : ∀ k ins, cpu.pc ≤ k → k < mid.pc → cpu.script[k]? = some ins → ins.onBus = false

theorem Advances.refl (cpu : ScriptedCPU) : Advances cpu cpu :=
  ⟨rfl, rfl, rfl, rfl, rfl, Nat.le_refl _, fun k _ hle hlt => by omega⟩

/-- One local operation, then more. -/
theorem Advances.cons {cpu next mid : ScriptedCPU} {ins : ScriptOp}
    (hget : cpu.script[cpu.pc]? = some ins) (hlocal : ins.onBus = false)
    (hpc : next.pc = cpu.pc + 1) (hid : next.cpuId = cpu.cpuId)
    (hscript : next.script = cpu.script) (hseq : next.sequence = cpu.sequence)
    (hbuf : next.storeBuffer = cpu.storeBuffer) (hcache : next.cache = cpu.cache)
    (h : Advances next mid) : Advances cpu mid := by
  refine ⟨h.cpuId.trans hid, h.script.trans hscript, h.sequence.trans hseq,
    h.storeBuffer.trans hbuf, h.cache.trans hcache, by have := h.pc; omega, fun k ins' hle hlt hk => ?_⟩
  by_cases hkpc : k = cpu.pc
  · rw [hkpc, hget] at hk
    rw [← Option.some_inj.mp hk]
    exact hlocal
  · exact h.skipped k ins' (by omega) hlt (by rw [hscript]; exact hk)

/-- `produce` ends at the end of the script or issues an operation. -/
def Produced (cpu : ScriptedCPU) (r : ScriptedCPU × Option PendingBusOp) : Prop :=
  ∃ mid, Advances cpu mid ∧
    ((r = (mid, none) ∧ mid.done = true) ∨
      ∃ ins, mid.script[mid.pc]? = some ins ∧ ins.kind ≠ .compute ∧
        r = ((mid.issue ins).1, some (mid.issue ins).2))

theorem produceLoop_spec (n : Nat) (cpu : ScriptedCPU) (hn : cpu.script.length - cpu.pc ≤ n) :
    Produced cpu (produceLoop n cpu) := by
  induction n generalizing cpu with
  | zero =>
    refine ⟨cpu, .refl cpu, Or.inl ⟨rfl, ?_⟩⟩
    rw [done, decide_eq_true_iff]
    omega
  | succ n ih =>
    rw [produceLoop]
    cases hget : cpu.script[cpu.pc]? with
    | none =>
      refine ⟨cpu, .refl cpu, Or.inl ⟨rfl, ?_⟩⟩
      rw [done, decide_eq_true_iff]
      exact List.getElem?_eq_none_iff.mp hget
    | some ins =>
      have hlt := (List.getElem?_eq_some_iff.mp hget).1
      have hissue : ins.kind ≠ .compute →
          Produced cpu ((cpu.issue ins).1, some (cpu.issue ins).2) := fun hkind =>
        ⟨cpu, .refl cpu, Or.inr ⟨ins, hget, hkind, rfl⟩⟩
      -- a local operation advances the script by one
      have hlocal : ∀ next : ScriptedCPU, ins.onBus = false → next.pc = cpu.pc + 1 →
          next.cpuId = cpu.cpuId → next.script = cpu.script → next.sequence = cpu.sequence →
          next.storeBuffer = cpu.storeBuffer → next.cache = cpu.cache →
          Produced cpu (produceLoop n next) := by
        intro next hloc hpc hid hscript hseq hbuf hcache
        obtain ⟨mid, hadv, hres⟩ := ih next (by rw [hscript, hpc]; omega)
        exact ⟨mid, .cons hget hloc hpc hid hscript hseq hbuf hcache hadv, hres⟩
      cases hkind : ins.kind with
      | compute =>
        simp only [hkind]
        exact hlocal _ (by simp [ScriptOp.onBus, hkind]) rfl rfl rfl rfl rfl rfl
      | barrier =>
        simp only [hkind]
        exact hissue (by simp [hkind])
      | write =>
        simp only [hkind]
        exact hissue (by simp [hkind])
      | read =>
        cases hread : cpu.readLocally ins with
        | none =>
          simp only [hkind, hread]
          exact hissue (by simp [hkind])
        | some value =>
          simp only [hkind, hread]
          have hcached : ins.uncached = false := by
            by_contra hun
            rw [readLocally, if_pos (by simpa using hun)] at hread
            exact absurd hread (by simp)
          exact hlocal _ (by simp [ScriptOp.onBus, hkind, hcached]) rfl rfl rfl rfl rfl rfl

theorem produce_spec (cpu : ScriptedCPU) : Produced cpu cpu.produce :=
  produceLoop_spec _ cpu (Nat.le_refl _)

/-! ### The clock of `produce` -/

/-- The local time once the script operations before `stop` are executed, as a
number without a bound. -/
def clockAt (cpu : ScriptedCPU) (stop : Nat) : Nat :=
  cpu.localTime +
    (((cpu.script.take stop).drop cpu.pc).map fun ins =>
      if ins.kind = .compute then ins.cycles else 0).sum

/-- The compute cycles of the next `produce` do not overflow the clock. -/
def ProduceFits (cpu : ScriptedCPU) : Prop := cpu.clockAt cpu.produce.1.pc < tickModulus

instance (cpu : ScriptedCPU) : Decidable cpu.ProduceFits :=
  inferInstanceAs (Decidable (_ < _))

theorem clockAt_of_le {cpu : ScriptedCPU} {stop : Nat} (h : stop ≤ cpu.pc) :
    cpu.clockAt stop = cpu.localTime := by
  have hnil : (cpu.script.take stop).drop cpu.pc = [] :=
    List.drop_eq_nil_of_le (by rw [List.length_take]; omega)
  rw [clockAt, hnil]
  rfl

theorem clockAt_succ {cpu : ScriptedCPU} {ins : ScriptOp} {stop : Nat}
    (hget : cpu.script[cpu.pc]? = some ins) (hstop : cpu.pc < stop) :
    cpu.clockAt stop = cpu.localTime + ((if ins.kind = .compute then ins.cycles else 0) +
      (((cpu.script.take stop).drop (cpu.pc + 1)).map fun ins =>
        if ins.kind = .compute then ins.cycles else 0).sum) := by
  have hget' : (cpu.script.take stop)[cpu.pc]? = some ins := by
    rw [List.getElem?_take, if_pos hstop, hget]
  obtain ⟨hlt, heq⟩ := List.getElem?_eq_some_iff.mp hget'
  rw [clockAt, List.drop_eq_getElem_cons hlt, heq, List.map_cons, List.sum_cons]

theorem localTime_le_clockAt (cpu : ScriptedCPU) (stop : Nat) :
    cpu.localTime ≤ cpu.clockAt stop := Nat.le_add_right _ _

/-- The issued operation itself takes no time. -/
theorem issue_clock {cpu : ScriptedCPU} {ins : ScriptOp}
    (hget : cpu.script[cpu.pc]? = some ins) (hkind : ins.kind ≠ .compute) :
    cpu.clockAt (cpu.pc + 1) = cpu.localTime := by
  have hnil : (cpu.script.take (cpu.pc + 1)).drop (cpu.pc + 1) = [] :=
    List.drop_eq_nil_of_le (by rw [List.length_take]; omega)
  rw [clockAt_succ hget (Nat.lt_succ_self _), if_neg hkind, hnil]
  rfl

/-! ### What an issued operation looks like -/

@[simp] theorem issue_cpuId (cpu : ScriptedCPU) (ins : ScriptOp) :
    (cpu.issue ins).1.cpuId = cpu.cpuId := by
  unfold issue
  split <;> rfl

@[simp] theorem issue_script (cpu : ScriptedCPU) (ins : ScriptOp) :
    (cpu.issue ins).1.script = cpu.script := by
  unfold issue
  split <;> rfl

@[simp] theorem issue_pc (cpu : ScriptedCPU) (ins : ScriptOp) :
    (cpu.issue ins).1.pc = cpu.pc + 1 := by
  unfold issue
  split <;> rfl

@[simp] theorem issue_localTime (cpu : ScriptedCPU) (ins : ScriptOp) :
    (cpu.issue ins).1.localTime = cpu.localTime := by
  unfold issue
  split <;> rfl

@[simp] theorem issue_lineSize (cpu : ScriptedCPU) (ins : ScriptOp) :
    (cpu.issue ins).1.cache.lineSize = cpu.cache.lineSize := by
  unfold issue
  split
  · rfl
  · rw [issueWrite]
    split
    · rfl
    · exact TinyCache.lineSize_write ..
  · rfl

theorem produceLoop_pc_le (n : Nat) (cpu : ScriptedCPU) : cpu.pc ≤ (produceLoop n cpu).1.pc := by
  induction n generalizing cpu with
  | zero => exact Nat.le_refl _
  | succ n ih =>
    have hlocal : ∀ next : ScriptedCPU, next.pc = cpu.pc + 1 →
        cpu.pc ≤ (produceLoop n next).1.pc := by
      intro next hpc
      have := ih next
      omega
    rw [produceLoop]
    split
    · exact Nat.le_refl _
    · split
      · exact hlocal _ rfl
      · exact (issue_pc cpu _).symm ▸ Nat.le_succ _
      · exact (issue_pc cpu _).symm ▸ Nat.le_succ _
      · split
        · exact hlocal _ rfl
        · exact (issue_pc cpu _).symm ▸ Nat.le_succ _

theorem produceLoop_clock (n : Nat) (cpu : ScriptedCPU) (hlt : cpu.localTime < tickModulus) :
    (produceLoop n cpu).1.localTime =
      cpu.clockAt (produceLoop n cpu).1.pc % tickModulus := by
  induction n generalizing cpu with
  | zero =>
    rw [produceLoop, clockAt_of_le (Nat.le_refl _)]
    exact (Nat.mod_eq_of_lt hlt).symm
  | succ n ih =>
    rw [produceLoop]
    cases hget : cpu.script[cpu.pc]? with
    | none =>
      rw [clockAt_of_le (Nat.le_refl _)]
      exact (Nat.mod_eq_of_lt hlt).symm
    | some ins =>
      -- whatever reaches the bus leaves the clock alone, since only `compute` advances it
      have hissue : ins.kind ≠ .compute → (cpu.issue ins).1.localTime =
          cpu.clockAt (cpu.issue ins).1.pc % tickModulus := fun hkind => by
        rw [issue_localTime, issue_pc, issue_clock hget hkind]
        exact (Nat.mod_eq_of_lt hlt).symm
      cases hkind : ins.kind with
      | compute =>
        simp only [hkind]
        have hle := produceLoop_pc_le n
          { cpu with localTime := tickAdd cpu.localTime ins.cycles, pc := cpu.pc + 1 }
        rw [ih _ (Nat.mod_lt _ (by decide)), clockAt_succ hget hle, if_pos hkind]
        simp only [clockAt, tickAdd]
        rw [Nat.mod_add_mod, Nat.add_assoc]
      | barrier =>
        simp only [hkind]
        exact hissue (by simp [hkind])
      | write =>
        simp only [hkind]
        exact hissue (by simp [hkind])
      | read =>
        cases hread : cpu.readLocally ins with
        | none =>
          simp only [hkind, hread]
          exact hissue (by simp [hkind])
        | some value =>
          simp only [hkind, hread]
          have hle := produceLoop_pc_le n
            { cpu with lastRead := some value, pc := cpu.pc + 1 }
          rw [clockAt_succ hget hle, if_neg (by simp [hkind]), Nat.zero_add]
          exact ih _ hlt

theorem ProduceFits.localTime {cpu : ScriptedCPU} (h : cpu.ProduceFits) :
    cpu.localTime ≤ cpu.produce.1.localTime ∧ cpu.produce.1.localTime < tickModulus := by
  have hle := cpu.localTime_le_clockAt cpu.produce.1.pc
  have hclock : cpu.produce.1.localTime = cpu.clockAt cpu.produce.1.pc % tickModulus :=
    produceLoop_clock _ _ (Nat.lt_of_le_of_lt hle h)
  rw [hclock, Nat.mod_eq_of_lt h]
  exact ⟨hle, h⟩

theorem produce_of_done {cpu : ScriptedCPU} (h : cpu.done = true) : cpu.produce = (cpu, none) := by
  have hlen : cpu.script.length - cpu.pc = 0 := by
    have := of_decide_eq_true h
    omega
  rw [produce, hlen]
  rfl

/-- The operation `p` waits for its response: the CPU stands right behind it. -/
structure Outstanding (cpu : ScriptedCPU) (p : PendingBusOp) : Prop where
  pc : cpu.pc = p.scriptIndex + 1
  reqTime : p.op.reqTime = cpu.localTime
  cpuId : p.op.cpuId = cpu.cpuId
  producer : p.op.producer = .auto
  matches_ : ∃ ins, cpu.script[p.scriptIndex]? = some ins ∧
    ins.Matches cpu.cache.lineSize p.op

theorem outstanding_issue {cpu : ScriptedCPU} {ins : ScriptOp}
    (hget : cpu.script[cpu.pc]? = some ins) (hkind : ins.kind ≠ .compute) :
    Outstanding (cpu.issue ins).1 (cpu.issue ins).2 := by
  cases h : ins.kind with
  | compute => exact absurd h hkind
  | barrier =>
    have hissue : cpu.issue ins = cpu.issueBarrier := by rw [issue, h]
    rw [hissue]
    exact ⟨rfl, rfl, rfl, rfl, ins, hget, by rw [ScriptOp.Matches, h]; rfl⟩
  | write =>
    have hissue : cpu.issue ins = cpu.issueWrite ins := by rw [issue, h]
    rw [hissue]
    exact ⟨rfl, rfl, rfl, rfl, ins, hget, by rw [ScriptOp.Matches, h]; exact ⟨rfl, rfl, rfl, rfl, rfl⟩⟩
  | read =>
    have hissue : cpu.issue ins = cpu.issueRead ins := by rw [issue, h]
    rw [hissue]
    exact ⟨rfl, rfl, rfl, rfl, ins, hget, by rw [ScriptOp.Matches, h]; exact ⟨rfl, rfl, rfl, rfl, rfl⟩⟩

/-- What `produce` never changes. -/
theorem produce_keeps (cpu : ScriptedCPU) :
    cpu.produce.1.cpuId = cpu.cpuId ∧ cpu.produce.1.script = cpu.script ∧
      cpu.produce.1.cache.lineSize = cpu.cache.lineSize := by
  obtain ⟨mid, hadv, ⟨heq, -⟩ | ⟨ins, -, -, heq⟩⟩ := produce_spec cpu
  · rw [heq]
    exact ⟨hadv.cpuId, hadv.script, by rw [hadv.cache]⟩
  · rw [heq]
    exact ⟨(issue_cpuId mid ins).trans hadv.cpuId, (issue_script mid ins).trans hadv.script,
      (issue_lineSize mid ins).trans (by rw [hadv.cache])⟩

theorem produce_done {cpu : ScriptedCPU} (h : cpu.produce.2 = none) :
    cpu.produce.1.done = true := by
  obtain ⟨mid, -, ⟨heq, hdone⟩ | ⟨ins, -, -, heq⟩⟩ := produce_spec cpu
  · rw [heq]
    exact hdone
  · rw [heq] at h
    exact absurd h (by simp)

theorem produce_outstanding {cpu : ScriptedCPU} {p : PendingBusOp} (h : cpu.produce.2 = some p) :
    Outstanding cpu.produce.1 p := by
  obtain ⟨mid, -, ⟨heq, -⟩ | ⟨ins, hget, hkind, heq⟩⟩ := produce_spec cpu
  · rw [heq] at h
    exact absurd h (by simp)
  · rw [heq] at h ⊢
    rw [← Option.some_inj.mp h]
    exact outstanding_issue hget hkind

/-- An issued operation comes out of the script operations that are left. -/
theorem produce_remaining (cpu : ScriptedCPU) :
    cpu.produce.1.script.length - cpu.produce.1.pc + cpu.produce.2.toList.length ≤
      cpu.script.length - cpu.pc := by
  obtain ⟨mid, hadv, ⟨heq, -⟩ | ⟨ins, hget, -, heq⟩⟩ := produce_spec cpu
  · have hpc := hadv.pc
    rw [heq, hadv.script]
    simp only [Option.toList_none, List.length_nil]
    omega
  · have hpc := hadv.pc
    have hlt := (List.getElem?_eq_some_iff.mp hget).1
    rw [hadv.script] at hlt
    rw [heq, issue_script, issue_pc, hadv.script]
    simp only [Option.toList_some, List.length_singleton]
    omega

/-! ### What a response leaves alone -/

/-- Everything a response may not change, and the local time it sets. -/
structure Answered (cpu cpu' : ScriptedCPU) (stall : Nat) : Prop where
  cpuId : cpu'.cpuId = cpu.cpuId
  script : cpu'.script = cpu.script
  pc : cpu'.pc = cpu.pc
  sequence : cpu'.sequence = cpu.sequence
  lineSize : cpu'.cache.lineSize = cpu.cache.lineSize
  localTime : cpu'.localTime = tickAdd cpu.localTime stall

theorem applyResponse_answered (cpu : ScriptedCPU) (scriptIndex : Nat) (response : BusResponse)
    (producerToken : Nat) :
    Answered cpu (cpu.applyResponse scriptIndex response producerToken).1 response.stall := by
  simp only [applyResponse]
  split_ifs
  · exact ⟨rfl, rfl, rfl, rfl, rfl, rfl⟩
  · exact ⟨rfl, rfl, rfl, rfl, rfl, rfl⟩
  · exact ⟨rfl, rfl, rfl, rfl, rfl, rfl⟩
  · exact ⟨rfl, rfl, rfl, rfl, TinyCache.lineSize_fillLine .., rfl⟩
  · exact ⟨rfl, rfl, rfl, rfl,
      (TinyCache.lineSize_write ..).trans (TinyCache.lineSize_fillLine ..), rfl⟩
  · exact ⟨rfl, rfl, rfl, rfl, rfl, rfl⟩

/-- No fault where the line, if there is one, is that of the access. -/
theorem applyResponse_no_fault {cpu : ScriptedCPU} {scriptIndex : Nat} {ins : ScriptOp}
    (hget : cpu.script[scriptIndex]? = some ins) (response : BusResponse) (producerToken : Nat)
    (hline : ins.kind = .read → ins.uncached = false → response.lineData ≠ [] →
      response.lineBase = toPhys ins.vaddr / BitVec.ofNat 32 cpu.cache.lineSize ∧
        response.lineData.length = cpu.cache.lineSize) :
    (cpu.applyResponse scriptIndex response producerToken).2 = none := by
  have hins : cpu.script.getD scriptIndex {} = ins := by
    rw [List.getD_eq_getElem?_getD, hget]
    rfl
  simp only [applyResponse, hins]
  by_cases hwrite : ins.kind = .write
  · rw [if_pos hwrite]
  rw [if_neg hwrite]
  by_cases hread : ins.kind = .read
  · rw [if_pos hread]
    by_cases hun : ins.uncached = true
    · rw [if_pos hun]
    rw [if_neg hun]
    by_cases hdata : response.lineData ≠ []
    · obtain ⟨hbase, hlen⟩ := hline hread (by simpa using hun) hdata
      rw [if_pos hdata, if_neg (by simp [hbase, hlen])]
    · rw [if_neg hdata]
  · rw [if_neg hread]

/-- A response of the arbiter is no fault: the line it carries is that of the access. -/
theorem Outstanding.no_fault {cpu : ScriptedCPU} {p : PendingBusOp} (h : cpu.Outstanding p)
    (hsize : cpu.cache.lineSize = 16) (arb : BusArbiter) (tie : Bool) (producerToken : Nat) :
    (cpu.applyResponse p.scriptIndex (arb.executeCommit p.op tie).2 producerToken).2 = none := by
  obtain ⟨ins, hget, hmatches⟩ := h.matches_
  refine applyResponse_no_fault hget _ _ fun hread hcached hline => ?_
  rw [ScriptOp.Matches, hread] at hmatches
  obtain ⟨-, hphys, -, -, hcls⟩ := hmatches
  rw [hcached, if_neg Bool.false_ne_true, hsize] at hcls
  have hbase := arb.executeCommit_lineData p.op tie hline
  rw [hphys, hcls] at hbase
  rw [hsize]
  exact hbase

/-! ### Everything a CPU has issued -/

/-- `ops` are the bus operations the CPU has issued, in order: one for each
sequence number, of increasing script indices, each as its script operation
says, and none of those that need the bus in any case is missing. -/
structure Issued (cpu : ScriptedCPU) (ops : List PendingBusOp) : Prop where
  sequence : ops.map (·.op.sequence) = List.range cpu.sequence
  increasing : ops.Pairwise fun p q => p.scriptIndex < q.scriptIndex
  executed : ∀ p ∈ ops, p.scriptIndex < cpu.pc
  matches_ : ∀ p ∈ ops, ∃ ins, cpu.script[p.scriptIndex]? = some ins ∧
    ins.Matches cpu.cache.lineSize p.op
  onBus : ∀ k ins, cpu.script[k]? = some ins → k < cpu.pc → ins.onBus = true →
    ∃ p ∈ ops, p.scriptIndex = k

theorem issued_make (cpuId : Int) (script : List ScriptOp) : Issued (make cpuId script) [] :=
  ⟨rfl, .nil, by simp, by simp, fun k _ _ hk => absurd hk (Nat.not_lt_zero k)⟩

theorem Answered.issued {cpu cpu' : ScriptedCPU} {stall : Nat} {ops : List PendingBusOp}
    (h : Answered cpu cpu' stall) (hops : Issued cpu ops) : Issued cpu' ops := by
  refine ⟨?_, hops.increasing, ?_, ?_, ?_⟩
  · rw [h.sequence, hops.sequence]
  · rw [h.pc]
    exact hops.executed
  · rw [h.script, h.lineSize]
    exact hops.matches_
  · rw [h.script, h.pc]
    exact hops.onBus

/-- Local operations issue nothing. -/
theorem Advances.issued {cpu mid : ScriptedCPU} {ops : List PendingBusOp} (h : Advances cpu mid)
    (hops : Issued cpu ops) : Issued mid ops := by
  refine ⟨?_, hops.increasing, fun p hp => ?_, ?_, fun k ins hget hk hbus => ?_⟩
  · rw [h.sequence, hops.sequence]
  · exact Nat.lt_of_lt_of_le (hops.executed p hp) h.pc
  · rw [h.script, h.cache]
    exact hops.matches_
  · rw [h.script] at hget
    rcases Nat.lt_or_ge k cpu.pc with hlt | hge
    · exact hops.onBus k ins hget hlt hbus
    · rw [h.skipped k ins hge hk hget] at hbus
      exact absurd hbus Bool.false_ne_true

theorem issue_sequence (cpu : ScriptedCPU) (ins : ScriptOp) :
    (cpu.issue ins).1.sequence = cpu.sequence + 1 ∧
      (cpu.issue ins).2.op.sequence = cpu.sequence ∧
      (cpu.issue ins).2.scriptIndex = cpu.pc := by
  unfold issue
  split <;> exact ⟨rfl, rfl, rfl⟩

theorem Issued.issue {cpu : ScriptedCPU} {ins : ScriptOp} {ops : List PendingBusOp}
    (hops : Issued cpu ops) (hget : cpu.script[cpu.pc]? = some ins) (hkind : ins.kind ≠ .compute) :
    Issued (cpu.issue ins).1 (ops ++ [(cpu.issue ins).2]) := by
  obtain ⟨hnext, hseq, hindex⟩ := issue_sequence cpu ins
  refine ⟨?_, ?_, fun p hp => ?_, fun p hp => ?_, fun k ins' hk hlt hbus => ?_⟩
  · rw [List.map_append, hops.sequence, hnext, List.range_succ, List.map_singleton, hseq]
  · refine List.pairwise_append.mpr ⟨hops.increasing, List.pairwise_singleton _ _, ?_⟩
    intro p hp q hq
    rw [List.mem_singleton.mp hq, hindex]
    exact hops.executed p hp
  · rw [issue_pc]
    rcases List.mem_append.mp hp with hp | hp
    · exact Nat.lt_succ_of_lt (hops.executed p hp)
    · rw [List.mem_singleton.mp hp, hindex]
      exact Nat.lt_succ_self _
  · rcases List.mem_append.mp hp with hp | hp
    · rw [issue_script, issue_lineSize]
      exact hops.matches_ p hp
    · rw [List.mem_singleton.mp hp]
      exact (outstanding_issue hget hkind).matches_
  · rw [issue_script] at hk
    rw [issue_pc] at hlt
    rcases Nat.lt_succ_iff_lt_or_eq.mp hlt with hlt | heq
    · obtain ⟨p, hp, hpk⟩ := hops.onBus k ins' hk hlt hbus
      exact ⟨p, List.mem_append_left _ hp, hpk⟩
    · exact ⟨_, List.mem_append_right _ List.mem_cons_self, hindex.trans heq.symm⟩

/-- `produce` adds the operation it issues. -/
theorem Issued.produce {cpu : ScriptedCPU} {ops : List PendingBusOp} (hops : Issued cpu ops) :
    Issued cpu.produce.1 (ops ++ cpu.produce.2.toList) := by
  obtain ⟨mid, hadv, ⟨heq, -⟩ | ⟨ins, hget, hkind, heq⟩⟩ := produce_spec cpu
  · rw [heq]
    simpa using hadv.issued hops
  · rw [heq]
    exact (hadv.issued hops).issue hget hkind

end ScriptedCPU

end Saturnis.Cpu
