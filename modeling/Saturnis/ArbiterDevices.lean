/-
Commit order is device order.

What `DeviceHub::write` gets along a run is what `deviceWrites` reads off the
log: the granted writes that do not go to committed memory, in order, each at
the tick it commits.  The device registers, their log of writes and the value
of every device read follow from these alone.

* `Sound.devices` — one entry changes the devices as its write does;
* `Chained.performs` — so does a log;
* `runCalls_devices` — **the devices are the committed writes, in commit order**,
  and with the default latencies the ticks of these increase.
-/
import Saturnis.ArbiterTimeline
import Saturnis.DeviceWrites

namespace Saturnis.Bus

open Saturnis.Core Saturnis.Mem Saturnis.Dev

/-- The operation is a write to a device register. -/
def BusOp.storesDevice (op : BusOp) : Bool :=
  op.kind = .mmioWrite || (op.kind = .write && isMmio op.physAddr)

/-- The operation is a read of a device register. -/
def BusOp.loadsDevice (op : BusOp) : Bool :=
  op.kind = .mmioRead || ((op.kind = .read || op.kind = .iFetch) && isMmio op.physAddr)

namespace Handled

/-- What the entry writes to the devices. -/
def deviceWrite (h : Handled) : Option MmioWrite :=
  if h.granted && h.op.storesDevice then
    some ⟨h.response.commitTime, h.op.cpuId, h.op.physAddr, h.op.size, h.op.data⟩
  else none

/-- The entry met the devices `d`, and a device read was answered from them. -/
structure ReadsDevices (d : DeviceHub) (h : Handled) : Prop where
  devices : h.before.devices = d
  value : h.granted = true → h.op.loadsDevice = true →
    h.response.value = d.read h.response.commitTime h.op.cpuId h.op.physAddr h.op.size

variable {h : Handled}

theorem perform_devices (arb : BusArbiter) (op : BusOp) (finish : Nat) :
    (arb.perform op finish).devices =
      if op.storesDevice then arb.devices.write finish op.cpuId op.physAddr op.size op.data
      else arb.devices := by
  rw [BusArbiter.perform, BusOp.storesDevice]
  by_cases hwrite : op.kind = .write ∨ op.kind = .mmioWrite
  · have hbarrier : op.kind ≠ .barrier := by
      rintro hbarrier
      rcases hwrite with hkind | hkind <;> exact absurd (hbarrier.symm.trans hkind) (by simp)
    rw [if_neg hbarrier, if_pos hwrite]
    by_cases hdev : isMmio op.physAddr ∨ op.kind = .mmioWrite
    · rw [if_pos hdev, if_pos]
      rcases hwrite with hkind | hkind
      · rcases hdev with hdev | hdev
        · simp [hkind, hdev]
        · exact absurd (hkind.symm.trans hdev) (by simp)
      · simp [hkind]
    · obtain ⟨hram, hkind⟩ := not_or.mp hdev
      rw [if_neg hdev, if_neg]
      simp [hram, hkind]
  · obtain ⟨hkind, hkind'⟩ := not_or.mp hwrite
    have hstore : (decide (op.kind = .mmioWrite) || decide (op.kind = .write) &&
        isMmio op.physAddr) = false := by
      simp [hkind, hkind']
    rw [hstore, if_neg Bool.false_ne_true]
    split_ifs <;> rfl

theorem perform_loadsDevice {op : BusOp} (hload : op.loadsDevice = true) (arb : BusArbiter)
    (finish : Nat) :
    (arb.perform op finish).value = arb.devices.read finish op.cpuId op.physAddr op.size := by
  simp only [BusOp.loadsDevice, Bool.or_eq_true, Bool.and_eq_true, decide_eq_true_eq] at hload
  have hkind : op.kind ≠ .barrier ∧ ¬ (op.kind = .write ∨ op.kind = .mmioWrite) := by
    rcases hload with hkind | ⟨hkind | hkind, -⟩ <;> simp [hkind]
  have hdev : isMmio op.physAddr = true ∨ op.kind = .mmioRead := by
    rcases hload with hkind | ⟨-, hdev⟩
    · exact Or.inr hkind
    · exact Or.inl hdev
  rw [BusArbiter.perform, if_neg hkind.1, if_neg hkind.2, if_pos hdev]

/-- One entry changes the devices as its write does. -/
theorem Sound.devices (hs : h.Sound) :
    h.after.devices = h.deviceWrite.toList.foldl DeviceHub.perform h.before.devices := by
  cases hg : h.granted with
  | false =>
    obtain ⟨reason, detail, hafter, -⟩ := hs.of_rejected hg
    rw [hafter, deviceWrite, hg]
    rfl
  | true =>
    obtain ⟨hafter, hresp⟩ := hs.of_granted hg
    have hperform := perform_devices h.before h.op h.response.commitTime
    have hdevices : h.after.devices =
        (h.before.perform h.op h.response.commitTime).devices := by
      rw [hafter, hresp]
      rfl
    rw [hdevices, hperform, deviceWrite, hg]
    cases hstore : h.op.storesDevice with
    | false => rfl
    | true => rfl

theorem Sound.readsDevices (hs : h.Sound) : h.ReadsDevices h.before.devices := by
  refine ⟨rfl, fun hg hload => ?_⟩
  have hvalue : h.response.value = (h.before.perform h.op h.response.commitTime).value := by
    rw [(hs.of_granted hg).2]
    rfl
  rw [hvalue, perform_loadsDevice hload]

end Handled

/-- The writes to the devices along a log, in commit order. -/
def deviceWrites (log : List Handled) : List MmioWrite := log.filterMap Handled.deviceWrite

namespace BusArbiter

theorem core_devices {a b : BusArbiter} (h : a.core = b.core) : a.devices = b.devices :=
  (congrArg BusArbiter.devices h : a.core.devices = b.core.devices)

theorem deviceWrites_cons (h : Handled) (log : List Handled) :
    deviceWrites (h :: log) = h.deviceWrite.toList ++ deviceWrites log := by
  rw [deviceWrites, List.filterMap_cons]
  cases h.deviceWrite <;> rfl

/-- Along a log the devices change as its writes do. -/
theorem Chained.performs {a b : BusArbiter} {log : List Handled} (hc : Chained a log b)
    (hs : ∀ h ∈ log, h.Sound) :
    b.devices = (deviceWrites log).foldl DeviceHub.perform a.devices ∧
      ∀ i (hi : i < log.length), log[i].ReadsDevices
        ((deviceWrites (log.take i)).foldl DeviceHub.perform a.devices) := by
  induction log generalizing a with
  | nil => exact ⟨(core_devices hc).symm, fun i hi => absurd hi (by simp)⟩
  | cons e log ih =>
    have he : e.Sound := hs e List.mem_cons_self
    obtain ⟨hlast, hat⟩ := ih hc.2 fun x hx => hs x (List.mem_cons_of_mem e hx)
    rw [he.devices, ← core_devices hc.1] at hlast hat
    refine ⟨?_, fun i hi => ?_⟩
    · rw [deviceWrites_cons, List.foldl_append]
      exact hlast
    · cases i with
      | zero =>
        have hfirst := he.readsDevices
        rw [← core_devices hc.1] at hfirst
        exact hfirst
      | succ i =>
        rw [List.take_succ_cons, deviceWrites_cons, List.foldl_append]
        exact hat i (Nat.lt_of_succ_lt_succ hi)

theorem stored_writes {d d' : DeviceHub} {w : MmioWrite} (h : Stored d w d') :
    d'.writes = d.writes := by
  cases h <;> rfl

/-- Every write of the devices is logged. -/
theorem writes_performs (ws : List MmioWrite) (d : DeviceHub) :
    (ws.foldl DeviceHub.perform d).writes =
      d.writes ++ ws.map fun w => ⟨w.t, w.cpu, w.addr, w.value⟩ := by
  induction ws generalizing d with
  | nil => exact (List.append_nil _).symm
  | cons w ws ih =>
    have hone : (d.perform w).writes = d.writes ++ [⟨w.t, w.cpu, w.addr, w.value⟩] :=
      stored_writes (DeviceHub.stored_perform d w)
    rw [List.foldl_cons, ih, hone, List.map_cons, List.append_assoc]
    rfl

/-- The commit ticks of granted operations increase. -/
theorem Chained.deviceWrites_increase {a b : BusArbiter} {log : List Handled}
    (hc : Chained a log b) (hs : ∀ h ∈ log, h.Sound)
    (ht : ∀ h ∈ log, h.granted = true → h.OnTime) :
    (deviceWrites log).Pairwise fun w w' => w.t < w'.t := by
  have hpairs := (hc.pairwise hs ht).2
  rw [deviceWrites, List.pairwise_filterMap]
  rw [List.pairwise_filter] at hpairs
  refine hpairs.imp_of_mem fun {h h'} hh hh' hle w hw w' hw' => ?_
  rw [Handled.deviceWrite] at hw hw'
  split_ifs at hw hw' with hstore hstore'
  obtain ⟨hg, -⟩ := Bool.and_eq_true_iff.mp hstore
  obtain ⟨hg', -⟩ := Bool.and_eq_true_iff.mp hstore'
  obtain rfl := Option.some_inj.mp hw
  obtain rfl := Option.some_inj.mp hw'
  exact Nat.lt_of_le_of_lt (hle hg hg') (ht h' hh' hg').nonempty

/-- **Commit order is device order.**  With the default latencies, while finish
times fit the clock, the ticks of the writes increase too. -/
theorem runCalls_devices (arb : BusArbiter) (calls : List ArbiterCall) :
    (arb.runCalls calls).devices =
        (deviceWrites (runLog arb calls)).foldl DeviceHub.perform arb.devices ∧
      (arb.runCalls calls).devices.writes = arb.devices.writes ++
        (deviceWrites (runLog arb calls)).map (fun w => ⟨w.t, w.cpu, w.addr, w.value⟩) ∧
      (∀ i (hi : i < (runLog arb calls).length), (runLog arb calls)[i].ReadsDevices
        ((deviceWrites ((runLog arb calls).take i)).foldl DeviceHub.perform arb.devices)) ∧
      (arb.latency = {} → (∀ h ∈ runLog arb calls, h.Fits) →
        (deviceWrites (runLog arb calls)).Pairwise fun w w' => w.t < w'.t) := by
  have hc := runCalls_chained arb calls
  have hs := runLog_sound arb calls
  obtain ⟨hlast, hat⟩ := hc.performs hs
  refine ⟨hlast, ?_, hat, fun hlat hfit => ?_⟩
  · rw [hlast]
    exact writes_performs _ _
  · exact hc.deviceWrites_increase hs fun h hh hg =>
      (hs h hh).onTime hg (hfit h hh) ((hc.latency hs h hh).trans hlat)

/-- CPU 0 sets the interrupt mask, the DMA reads it back, and CPU 1 sets it again. -/
theorem runCalls_devices_mask :
    let arb : BusArbiter := { memory := .make 16 }
    let calls : List ArbiterCall :=
      [.commit { kind := .mmioWrite, physAddr := kScuImsAddr, data := 7 },
        .commitDma { reqTime := 1, kind := .mmioRead, physAddr := kScuImsAddr },
        .commit { cpuId := 1, reqTime := 2, kind := .mmioWrite, physAddr := kScuImsAddr, data := 5 }]
    deviceWrites (runLog arb calls) = [⟨10, 0, kScuImsAddr, 4, 7⟩, ⟨36, 1, kScuImsAddr, 4, 5⟩] ∧
      (arb.runCalls calls).devices =
        (deviceWrites (runLog arb calls)).foldl DeviceHub.perform arb.devices ∧
      (deviceWrites (runLog arb calls)).Pairwise fun w w' => w.t < w'.t := by
  intro arb calls
  have hfit : ∀ h ∈ runLog arb calls, h.Fits := by
    intro h hh _
    have hmem : (h.before.startTime h.op, h.before.totalLatency h.op h.tie) ∈
        (runLog arb calls).map fun h => (h.before.startTime h.op, h.before.totalLatency h.op h.tie) :=
      List.mem_map.mpr ⟨h, hh, rfl⟩
    rw [show ((runLog arb calls).map fun h =>
      (h.before.startTime h.op, h.before.totalLatency h.op h.tie)) =
        [(0, 10), (10, 14), (24, 12)] from by decide] at hmem
    simp only [List.mem_cons, Prod.mk.injEq, List.not_mem_nil, or_false] at hmem
    rcases hmem with ⟨h1, h2⟩ | ⟨h1, h2⟩ | ⟨h1, h2⟩ <;> rw [h1, h2] <;> decide
  obtain ⟨hdevices, -, -, hticks⟩ := runCalls_devices arb calls
  exact ⟨by rfl, hdevices, hticks rfl hfit⟩

end BusArbiter

end Saturnis.Bus
