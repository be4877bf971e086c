/-
What the trace of a BIOS run tells.

The log that `run_bios_trace` returns is enough to go through the whole run again
without cores, caches and arbiter: a `Machine` of plain memory and devices takes
one COMMIT record after the other.  Records of refused operations are those that
take no time.

* `Sound.record_answered`, `Sound.record_applied` — one entry of an arbiter's log;
* `Chained.explained` — a call of the arbiter;
* `told_iterate` — an iteration of the loop;
* `bios_trace_explained` — **every value in the trace** follows from the image and
  the records before it.
-/
import Saturnis.ArbiterDevices
import Saturnis.BiosFetches
import Saturnis.EventLog

namespace Saturnis.Core

open Saturnis.Mem Saturnis.Bus Saturnis.Dev

/-! ### The machine -/

/-- The operation of the record was granted: it has taken time. -/
def CommitEvent.granted (e : CommitEvent) : Bool := e.tStart ≠ e.tEnd

/-- Memory and devices, without anything that works on them. -/
structure Machine where
  bytes : Addr → Byte
  devices : DeviceHub

namespace Machine

/-- What the operation of a record does to a machine with memory of `size` bytes. -/
def apply (size : Nat) (m : Machine) (e : CommitEvent) : Machine :=
  if e.granted then
    { bytes :=
        if e.op.storesRam then refStore size m.bytes e.op.physAddr e.op.size e.op.data
        else m.bytes
      devices :=
        if e.op.storesDevice then
          m.devices.write e.tEnd e.op.cpuId e.op.physAddr e.op.size e.op.data
        else m.devices }
  else m

/-- What it is answered. -/
def answer (size : Nat) (m : Machine) (e : CommitEvent) : Word :=
  if !e.granted then kInvalidBusOpValue
  else if e.op.loadsDevice then m.devices.read e.tEnd e.op.cpuId e.op.physAddr e.op.size
  else if e.op.loadsRam then
    if Inside size e.op.physAddr e.op.size then wordOf (bytesFrom m.bytes e.op.physAddr e.op.size)
    else 0
  else e.op.data

end Machine

/-- The records lead from one machine to the other, and record its answers. -/
abbrev Explained (size : Nat) : Machine → List CommitEvent → Machine → Prop :=
  EventLog.Explains (Machine.apply size) (Machine.answer size) CommitEvent.value

end Saturnis.Core

namespace Saturnis.Bus

open Saturnis.Core Saturnis.Mem Saturnis.Dev

/-- What a machine has of an arbiter. -/
def BusArbiter.machine (arb : BusArbiter) : Machine := ⟨arb.memory.byteAt, arb.devices⟩

namespace Handled

variable {h : Handled}

/-- A granted operation takes time, a refused one does not. -/
theorem Sound.record_granted (hs : h.Sound) (hlat : h.before.latency = {}) :
    h.record.granted = h.granted := by
  change decide (h.response.startTime ≠ h.response.commitTime) = h.granted
  cases hg : h.granted with
  | true =>
    have hbounds := BusArbiter.totalLatency_bounds hlat h.op h.tie
    rw [(hs.of_granted hg).2, decide_eq_true_eq]
    change h.before.startTime h.op ≠
      tickAdd (h.before.startTime h.op) (h.before.totalLatency h.op h.tie)
    rw [tickAdd, tickModulus]
    omega
  | false =>
    obtain ⟨reason, detail, -, hfault⟩ := hs.of_rejected hg
    rw [hfault]
    exact decide_eq_false (not_not.mpr rfl)

/-- An operation that loads nothing is answered with its own data. -/
theorem perform_value (arb : BusArbiter) {op : BusOp} (hdevice : op.loadsDevice = false)
    (hram : op.loadsRam = false) (finish : Nat) : (arb.perform op finish).value = op.data := by
  have hkind : op.kind = .barrier ∨ op.kind = .write ∨ op.kind = .mmioWrite := by
    rw [BusOp.loadsDevice] at hdevice
    rw [BusOp.loadsRam] at hram
    cases hkind : op.kind <;> simp_all
  rw [BusArbiter.perform]
  rcases hkind with hkind | hkind
  · rw [if_pos hkind]
  · split_ifs <;> rfl

theorem Sound.answered (hs : h.Sound) (hlat : h.before.latency = {}) :
    h.record.value = h.before.machine.answer h.before.memory.size h.record := by
  rw [Machine.answer, hs.record_granted hlat]
  change h.response.value = if !h.granted then kInvalidBusOpValue
    else if h.op.loadsDevice then
      h.before.devices.read h.response.commitTime h.op.cpuId h.op.physAddr h.op.size
    else if h.op.loadsRam then
      if Inside h.before.memory.size h.op.physAddr h.op.size then
        wordOf (bytesFrom h.before.memory.byteAt h.op.physAddr h.op.size)
      else 0
    else h.op.data
  cases hg : h.granted with
  | false =>
    obtain ⟨reason, detail, -, hfault⟩ := hs.of_rejected hg
    rw [hfault]
    rfl
  | true =>
    have hvalue : h.response.value = (h.before.perform h.op h.response.commitTime).value := by
      rw [(hs.of_granted hg).2]
      rfl
    rw [if_neg (by simp)]
    cases hdevice : h.op.loadsDevice with
    | true => rw [if_pos rfl, hvalue, perform_loadsDevice hdevice]
    | false =>
      rw [if_neg Bool.false_ne_true]
      cases hram : h.op.loadsRam with
      | true =>
        rw [if_pos rfl, (hs.load hg hram).1]
        split_ifs with hin
        · exact CommittedMemory.read_eq_wordOf hin
        · rw [CommittedMemory.read, if_neg (by simpa [accessInRange, Inside] using hin)]
      | false => rw [if_neg Bool.false_ne_true, hvalue, perform_value _ hdevice hram]

theorem Sound.applied (hs : h.Sound) (hlat : h.before.latency = {}) :
    h.after.machine = h.before.machine.apply h.before.memory.size h.record := by
  rw [Machine.apply, hs.record_granted hlat]
  cases hg : h.granted with
  | false =>
    obtain ⟨reason, detail, hafter, -⟩ := hs.of_rejected hg
    rw [hafter]
    rfl
  | true =>
    have hbytes := hs.replayStep.2
    have hdevices : h.after.devices = (h.before.perform h.op h.response.commitTime).devices := by
      rw [(hs.of_granted hg).1, (hs.of_granted hg).2]
      rfl
    rw [Bus.replayStep, hg, Bool.true_and] at hbytes
    rw [perform_devices] at hdevices
    rw [BusArbiter.machine, hbytes, hdevices]
    rfl

end Handled

namespace BusArbiter

/-- **The records of a call explain it.** -/
theorem Chained.explained {arb after : BusArbiter} {log : List Handled} (hc : Chained arb log after)
    (hs : ∀ h ∈ log, h.Sound) (hlat : arb.latency = {}) :
    after.latency = {} ∧
      Explained arb.memory.size arb.machine (log.map Handled.record) after.machine := by
  induction log generalizing arb with
  | nil =>
    refine ⟨(core_latency hc).symm.trans hlat, ?_⟩
    change arb.machine = after.machine
    rw [machine, core_memory hc, core_devices hc]
    rfl
  | cons e log ih =>
    have he : e.Sound := hs e List.mem_cons_self
    have hmemory : arb.memory = e.before.memory := core_memory hc.1
    have hdevices : arb.devices = e.before.devices := core_devices hc.1
    have hlat' : e.before.latency = {} := (core_latency hc.1).symm.trans hlat
    have hmachine : arb.machine = e.before.machine := by
      rw [machine, hmemory, hdevices]
      rfl
    obtain ⟨hlast, hrest⟩ :=
      ih hc.2 (fun h hh => hs h (List.mem_cons_of_mem e hh)) (he.latency.trans hlat')
    rw [he.replayStep.1, he.applied hlat'] at hrest
    rw [hmachine, hmemory]
    exact ⟨hlast, he.answered hlat', hrest⟩

end BusArbiter

end Saturnis.Bus

namespace Saturnis.Core

open Saturnis.Core Saturnis.Mem Saturnis.Dev Saturnis.Bus Saturnis.Cpu

/-- Plain memory with the image at its start, and devices after a reset. -/
def Machine.start (image : List Byte) : Machine := ⟨imageByte image, {}⟩

/-- The COMMIT records of an arbiter explain its memory and devices. -/
structure Told (image : List Byte) (arb : BusArbiter) : Prop where
  latency : arb.latency = {}
  size : arb.memory.size = 32 * 1024 * 1024
  explained : Explained (32 * 1024 * 1024) (.start image) arb.trace.commits arb.machine

variable {image : List Byte} {arb arb' : BusArbiter}

/-- Whoever adds no COMMIT record leaves memory and devices alone. -/
theorem Told.same (h : Told image arb) (hhardware : arb'.hardware = arb.hardware)
    (hcommits : arb'.trace.commits = arb.trace.commits) : Told image arb' := by
  have hmemory := BusArbiter.hardware_memory hhardware
  refine ⟨(BusArbiter.hardware_latency hhardware).trans h.latency, ?_, ?_⟩
  · rw [hmemory]
    exact h.size
  · rw [hcommits, BusArbiter.machine, hmemory, BusArbiter.hardware_devices hhardware]
    exact h.explained

/-- A call of the arbiter tells what it does. -/
theorem Told.call (h : Told image arb) (call : ArbiterCall) : Told image (arb.runCall call) := by
  have hc := BusArbiter.runCall_chained arb call
  have hs := BusArbiter.callLog_sound arb call
  obtain ⟨hlatency, hexplained⟩ := hc.explained hs h.latency
  rw [h.size] at hexplained
  refine ⟨hlatency, (hc.memorySize hs).1.trans h.size, ?_⟩
  rw [hc.commits hs]
  exact h.explained.append hexplained

namespace BiosRun

theorem told_start (hlen : image.length ≤ 2 ^ 32) : Told image (start image).arb := by
  refine ⟨rfl, size_loadImage image, ?_⟩
  change Machine.start image = ⟨(loadImage image).byteAt, {}⟩
  rw [Machine.start, funext (loadImage_byteAt image hlen)]

theorem told_iterate {s : BiosRun} (h : Told image s.arb) (maxSteps : Nat) :
    Told image (iterate maxSteps s).1.arb := by
  by_cases hlt : s.executed < maxSteps
  · obtain ⟨hhardware, hcommits⟩ := s.prepare_arb
    have hprepare := h.same hhardware hcommits
    rw [iterate_of_lt hlt]
    split
    · exact hprepare
    · obtain ⟨hhardware', hcommits'⟩ := s.prepare.commit_arb
      have hbatch : Told image (s.prepare.arb.commitBatch (s.prepare.fetches.map (·.2))).1 :=
        hprepare.call (.commitBatch _)
      exact hbatch.same hhardware' hcommits'
  · rw [iterate, if_neg hlt]
    exact h

/-- The DMA probe is two more calls. -/
theorem told_probe {s : BiosRun} (h : Told image s.arb) :
    ∃ m, Explained (32 * 1024 * 1024) (.start image) s.probe.commits m :=
  ⟨_, ((h.call (.commitDma _)).call (.commitDma _)).explained⟩

end BiosRun

/-- **The trace of a BIOS run explains itself.**  Whatever the image, the value of
every COMMIT record is what plain memory and devices answer after the records
before it. -/
theorem bios_trace_explained (image : List Byte) (hlen : image.length ≤ 2 ^ 32)
    (fuel maxSteps : Nat) (log : TraceLog) (hrun : runBiosTrace fuel image maxSteps = some log) :
    ∀ (i : Nat) (hi : i < log.commits.length), log.commits[i].value =
      ((log.commits.take i).foldl (Machine.apply (32 * 1024 * 1024)) (.start image)).answer
        (32 * 1024 * 1024) log.commits[i] := by
  rw [runBiosTrace, Option.map_eq_some_iff] at hrun
  obtain ⟨final, hrun, rfl⟩ := hrun
  obtain ⟨n, -, -, -, rfl⟩ := Loop.run_eq_some_iff.mp hrun
  have htold : Told image
      ((Loop.step (BiosRun.iterate maxSteps))^[n + 1] (BiosRun.start image)).arb :=
    Loop.invariant (I := fun s : BiosRun => Told image s.arb)
      (fun s h => BiosRun.told_iterate h maxSteps) (BiosRun.told_start hlen) (n + 1)
  obtain ⟨m, hexplained⟩ := BiosRun.told_probe htold
  exact fun i hi => hexplained.getElem i hi

/-- A `BRA` to itself with a `NOP` in its slot, which both cores fetch. -/
theorem bios_trace_explained_loop :
    ∃ fuel log, runBiosTrace fuel [0xAF, 0xFE, 0x00, 0x09] 1000 = some log ∧
      ∀ (i : Nat) (hi : i < log.commits.length), log.commits[i].value =
        ((log.commits.take i).foldl (Machine.apply (32 * 1024 * 1024))
          (.start [0xAF, 0xFE, 0x00, 0x09])).answer (32 * 1024 * 1024) log.commits[i] := by
  obtain ⟨fuel, log, hrun⟩ := @BiosRun.exists_trace [0xAF, 0xFE, 0x00, 0x09] 1000
    fun _ h => BiosRun.ticksBelow_of_le (by decide) h
  exact ⟨fuel, log, hrun, bios_trace_explained _ (by decide) fuel 1000 log hrun⟩

end Saturnis.Core
