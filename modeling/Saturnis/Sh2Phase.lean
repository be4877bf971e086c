/-
Exchanges of a core whose bus does not halt.

On a log that does not halt on faults, an exchange in request order is the
answer of the bus followed by the effect of the response, whatever the clock.

* `Clear.step` — a log that does not halt never does;
* `answer_ramWrite`, `answer_ramRead` — pushes and pops in RAM;
* `exchange_pending` — a response to what is pending;
* `At.push`, `At.pop` — a machine at an ideal state does a phase of an entry or
  of a return;
* `At.instruction` — and an instruction that is no data access, hit or missed.
-/
import Saturnis.Sh2Step
import Saturnis.Sh2Alike

namespace Saturnis.Cpu.SH2Core

open Saturnis.Core Saturnis.Mem Saturnis.Bus

variable {core : SH2Core} {arb : BusArbiter} {seq : Nat} {trace : TraceLog}

/-! ### Logs that do not halt -/

/-- The log neither halts nor is going to. -/
structure Clear (trace : TraceLog) : Prop where
  haltOnFault : trace.haltOnFault = false
  shouldHalt : trace.shouldHalt = false

theorem Clear.addFault (h : Clear trace) (event : FaultEvent) : Clear (trace.addFault event) := by
  refine ⟨h.haltOnFault, ?_⟩
  rw [TraceLog.shouldHalt_addFault, h.haltOnFault, h.shouldHalt]
  rfl

theorem Clear.addState (h : Clear trace) (snapshot : CpuSnapshot) :
    Clear (trace.addState snapshot) := ⟨h.haltOnFault, h.shouldHalt⟩

theorem Clear.execute (h : Clear trace) (core : SH2Core) (instr : Instr) :
    Clear (core.executeInstruction instr trace).2 := by
  rw [executeInstruction_eq]
  refine Clear.addState ?_ _
  cases hop : opcodeOf instr with
  | rte =>
    rw [dispatch]
    split
    · exact h.addFault _
    · exact h.addFault _
  | illegal => exact h.addFault _
  | _ => exact h

theorem Clear.fill (h : Clear trace) (core : SH2Core) (response : BusResponse) :
    Clear (core.fillIcache response trace).2 := by
  simp only [fillIcache]
  split
  · exact h
  · split
    · exact h.addFault _
    · exact h

theorem Clear.apply (h : Clear trace) (core : SH2Core) (response : BusResponse) :
    Clear (core.applyIfetchAndStep response trace).2 := by
  cases hpending : core.pendingMemOp with
  | some pending =>
    rw [applyIfetchAndStep_of_pending hpending]
    exact h.addState _
  | none =>
    rw [applyIfetchAndStep_of_none hpending]
    exact (h.fill _ response).execute _ _

theorem Clear.loop (h : Clear trace) (budget : Nat) (core : SH2Core) (seq executed : Nat) :
    Clear (produceLoop budget core seq trace executed).2.1 :=
  @produceLoop_invariant core (fun _ trace => Clear trace) (fun _ _ _ _ h => h)
    (fun core _ instr h => h.execute core instr) trace h budget seq executed

theorem Clear.produce (h : Clear trace) (core : SH2Core) (seq budget : Nat) :
    Clear (core.produceUntilBus seq trace budget).2.1 := by
  rw [produceUntilBus]
  split
  · exact h.addFault _
  · split
    · exact h
    · exact h.loop budget core seq 0

theorem Clear.exchange (h : Clear arb.trace) {op : BusOp}
    (horder : arb.Ordered (producerSlot op) op.reqTime) :
    Clear (core.exchange arb op).2.trace := by
  have hcommit : Clear (arb.commit op).1.trace := by
    refine ⟨?_, ?_⟩
    · rw [BusArbiter.commit_haltOnFault horder]
      exact h.haltOnFault
    · rw [BusArbiter.commit_shouldHalt horder, h.haltOnFault, h.shouldHalt, Bool.and_false]
      rfl
  exact hcommit.apply core (arb.commit op).2

/-- A step keeps the log from halting. -/
theorem Clear.step (h : Clear arb.trace) (horder : core.InOrder arb) :
    Clear (core.step arb seq).2.trace := by
  cases hvector : core.pendingExceptionVector with
  | some vector =>
    rw [step_vector hvector]
    exact Clear.exchange (h.addFault _) horder
  | none =>
    cases hpending : core.pendingMemOp with
    | some pending =>
      rw [step_pending hvector hpending]
      exact h.exchange horder
    | none =>
      have hquiet : core.Quiet := ⟨hvector, hpending⟩
      cases hcached : core.cachedInstr with
      | none =>
        rw [step_fetch hquiet hcached]
        exact h.exchange (horder.asks (asks_fetchOp _ _))
      | some instr =>
        cases hdata : dataFormOf instr with
        | some form =>
          rw [step_access hquiet hcached hdata]
          exact h.exchange ((accessing_inOrder horder form instr).asks (asks_pendingOp _ _ _))
        | none =>
          rw [step_cached hquiet hcached hdata]
          exact h.execute core instr

theorem Clear.steps (n : Nat) (h : Clear arb.trace) (horder : core.InOrder arb)
    (hclock : ClockRuns n core arb seq) :
    Clear (steps n core arb seq).2.trace ∧
      (steps n core arb seq).1.InOrder (steps n core arb seq).2 := by
  induction n generalizing core arb seq with
  | zero => exact ⟨h, horder⟩
  | succ n ih => exact ih (h.step horder) (inOrder_step horder hclock.1) hclock.2

/-! ### Answers -/

/-- A word of RAM. -/
structure RamWord (memory : CommittedMemory) (phys : Addr) : Prop where
  ram : isMmio phys = false
  inside : Inside memory.size phys 4

theorem validate_ram (op : BusOp) (hram : isMmio op.physAddr = false)
    (hsize : validBusSize op.size = true) (hkind : op.kind = .read ∨ op.kind = .write) :
    validateBusOp op = .none := by
  rw [validateBusOp]
  rcases hkind with hkind | hkind
  · rw [hkind, if_neg (by decide), if_neg (by simp [hsize])]
    simp [hram]
  · rw [hkind, if_neg (by decide), if_neg (by simp [hsize])]
    simp [hram]

/-- What a push does. -/
theorem answer_ramWrite {pending : PendingMemOp} (hrun : arb.trace.shouldHalt = false)
    (hram : isMmio pending.physAddr = false) (hsize : validBusSize pending.size = true)
    (hwrite : pending.kind.isWrite = true) :
    arb.answer (core.pendingOp seq pending) =
      ⟨arb.memory.write pending.physAddr pending.size pending.value, arb.devices, pending.value,
        0, []⟩ := by
  have hkind : (core.pendingOp seq pending).kind = .write := by
    show dataAccessKind pending.physAddr pending.kind.isWrite = .write
    rw [dataAccessKind, if_neg (by simp [hram]), hwrite]
    rfl
  have hvalid := validate_ram (core.pendingOp seq pending) hram hsize (Or.inr hkind)
  rw [BusArbiter.answer, if_neg (by simp [hrun, hvalid]), BusArbiter.perform, if_neg (by simp [hkind]),
    if_pos (Or.inl hkind), hkind, if_neg]
  · rfl
  · show ¬ (isMmio pending.physAddr = true ∨ BusKind.write = .mmioWrite)
    simp [hram]

/-- What a pop answers. -/
theorem answer_ramRead {pending : PendingMemOp} (hrun : arb.trace.shouldHalt = false)
    (hram : isMmio pending.physAddr = false) (hsize : validBusSize pending.size = true)
    (hread : pending.kind.isWrite = false) :
    (arb.answer (core.pendingOp seq pending)).value =
        arb.memory.read pending.physAddr pending.size := by
  have hkind : (core.pendingOp seq pending).kind = .read := by
    show dataAccessKind pending.physAddr pending.kind.isWrite = .read
    rw [dataAccessKind, if_neg (by simp [hram]), hread]
    rfl
  have hvalid := validate_ram (core.pendingOp seq pending) hram hsize (Or.inl hkind)
  rw [BusArbiter.answer, if_neg (by simp [hrun, hvalid]), BusArbiter.perform, if_neg (by simp [hkind]),
    if_neg (by simp [hkind]), hkind, if_neg]
  · show (if _ then _ else _ : BusArbiter.Effect).value = _
    rw [if_neg (by simp [pendingOp])]
    rfl
  · show ¬ (isMmio pending.physAddr = true ∨ BusKind.read = .mmioRead)
    simp [hram]

/-- Operations that do not write leave the store as it is. -/
theorem answer_store (arb : BusArbiter) {op : BusOp} (hkind : op.kind ≠ .write)
    (hkind' : op.kind ≠ .mmioWrite) :
    (arb.answer op).memory = arb.memory ∧ (arb.answer op).devices = arb.devices := by
  rw [BusArbiter.answer]
  split
  · exact ⟨rfl, rfl⟩
  · unfold BusArbiter.perform
    split_ifs with _ hwrite
    · exact ⟨rfl, rfl⟩
    · exact absurd hwrite (by simp [hkind, hkind'])
    · exact absurd hwrite (by simp [hkind, hkind'])
    · exact ⟨rfl, rfl⟩
    · exact ⟨rfl, rfl⟩
    · exact ⟨rfl, rfl⟩

/-! ### Exchanges -/

/-- The core with another clock and counter. -/
def atTime (core : SH2Core) (t executed : Nat) : SH2Core := { core with t := t, executed := executed }

theorem takeBranch_of_restore (h : core.pendingRteRestore = true) (target : Addr) :
    core.takeBranch target =
      { core with sr := core.pendingNewSr, pendingRteRestore := false, pc := target } := by
  simp only [takeBranch]
  rw [if_pos h]

theorem takeBranch_of_noRestore (h : core.pendingRteRestore = false) (target : Addr) :
    core.takeBranch target = { core with pc := target } := by
  simp only [takeBranch]
  rw [if_neg (by simp [h])]

theorem takeBranch_atTime (core : SH2Core) (target : Addr) (t executed : Nat) :
    (core.atTime t executed).takeBranch target = (core.takeBranch target).atTime t executed := by
  cases hrestore : core.pendingRteRestore with
  | true =>
    have hrestore' : (core.atTime t executed).pendingRteRestore = true := hrestore
    rw [takeBranch_of_restore hrestore, takeBranch_of_restore hrestore']
    rfl
  | false =>
    have hrestore' : (core.atTime t executed).pendingRteRestore = false := hrestore
    rw [takeBranch_of_noRestore hrestore, takeBranch_of_noRestore hrestore']
    rfl

theorem finishAccess_atTime (core : SH2Core) (pending : PendingMemOp) (value : Word)
    (t executed : Nat) :
    (core.atTime t executed).finishAccess pending value =
      (core.finishAccess pending value).atTime t executed := by
  obtain ⟨f, hf⟩ := finishAccess_eq pending value
  rw [hf, hf]
  have hbranch : (core.atTime t executed).pendingBranchTarget = core.pendingBranchTarget := rfl
  rw [hbranch]
  split
  · rename_i target _
    have htake := takeBranch_atTime (core.withRegisters (f core.toRegisters)) target t executed
    exact congrArg (fun core : SH2Core => { core with pendingBranchTarget := none }) htake
  · rfl

theorem advancePending_atTime (core : SH2Core) (pending : PendingMemOp) (value : Word)
    (t executed : Nat) :
    (core.atTime t executed).advancePending pending value =
      (core.advancePending pending value).atTime t executed := by
  have hfinish := finishAccess_atTime core pending value t executed
  rw [advancePending, advancePending]
  cases pending.kind with
  | readLong | writeLong | readWord | writeWord | readByte | writeByte | rmwWriteByte =>
    exact hfinish
  | _ => rfl

theorem retire_atTime (core : SH2Core) (t executed : Nat) (trace : TraceLog) :
    ∃ t' executed', ((core.atTime t executed).retire trace).1 = core.atTime t' executed' :=
  ⟨_, _, rfl⟩

/-- The core and the store after an exchange, up to the clock. -/
theorem exchange_pending {pending : PendingMemOp} (hpending : core.pendingMemOp = some pending)
    (horder : core.InOrder arb) :
    ∃ t executed, (core.exchange arb (core.pendingOp seq pending)).1 =
      ({ core with pendingMemOp := none }.advancePending pending
        (arb.answer (core.pendingOp seq pending)).value).atTime t executed := by
  have hvalue := congrArg (·.value) (BusArbiter.commit_answer (horder.asks (asks_pendingOp core seq pending)))
  change (arb.commit (core.pendingOp seq pending)).2.value =
    (arb.answer (core.pendingOp seq pending)).value at hvalue
  have htime := advancePending_atTime { core with pendingMemOp := none } pending
    (arb.answer (core.pendingOp seq pending)).value
    (tickAdd core.t (arb.commit (core.pendingOp seq pending)).2.stall) core.executed
  change ({ core with
      t := tickAdd core.t (arb.commit (core.pendingOp seq pending)).2.stall
      pendingMemOp := none } : SH2Core).advancePending pending _ = _ at htime
  simp only [exchange]
  rw [applyIfetchAndStep_of_pending hpending, hvalue, htime]
  exact retire_atTime _ _ _ _

theorem exchange_memory {op : BusOp} (horder : arb.Ordered (producerSlot op) op.reqTime) :
    (core.exchange arb op).2.memory = (arb.answer op).memory := by
  have h := congrArg (·.memory) (BusArbiter.commit_answer horder)
  exact h

theorem exchange_devices {op : BusOp} (horder : arb.Ordered (producerSlot op) op.reqTime) :
    (core.exchange arb op).2.devices.unlogged = (arb.answer op).devices.unlogged := by
  have h := congrArg (·.devices) (BusArbiter.commit_answer horder)
  exact h

/-! ### The word at `pc` -/

/-- The word a quiet core fetches. -/
def fetched (core : SH2Core) (arb : BusArbiter) : Instr :=
  match core.cachedInstr with
  | some instr => instr
  | none => (arb.answer (core.fetchOp 0)).value.setWidth 16

theorem answer_fetchOp (seq : Nat) : arb.answer (core.fetchOp seq) = arb.answer (core.fetchOp 0) := by
  rw [fetchOp, fetchOp]
  split <;> rfl

theorem fetched_of_missed (h : core.cachedInstr = none) (seq : Nat) :
    core.fetched arb = (arb.answer (core.fetchOp seq)).value.setWidth 16 := by
  rw [fetched, h, answer_fetchOp seq]

theorem fetchOp_kind (core : SH2Core) (seq : Nat) : (core.fetchOp seq).kind = .iFetch := by
  rw [fetchOp]
  split <;> rfl

/-! ### A machine at an ideal state -/

/-- A machine whose core is alike an ideal core, with the memory and the
devices of the ideal state, and that goes on in order. -/
structure At (I : Nat → Prop) (s : SH2Core × BusArbiter) (ideal : SH2Core)
    (memory : CommittedMemory) (devices : Dev.DeviceHub) : Prop where
  core : AlikeCore I s.1 ideal
  memory : s.2.memory = memory
  devices : s.2.devices.unlogged = devices.unlogged
  clear : Clear s.2.trace
  order : s.1.InOrder s.2

variable {I : Nat → Prop} {ideal ideal' : SH2Core} {memory : CommittedMemory}
  {devices : Dev.DeviceHub} {pending : PendingMemOp} {s : SH2Core × BusArbiter}

theorem At.alike (h : At I s ideal memory devices) (heq : AlikeCore I ideal ideal') :
    At I s ideal' memory devices :=
  ⟨h.core.trans heq, h.memory, h.devices, h.clear, h.order⟩

theorem AlikeCore.atTime (core : SH2Core) (t executed : Nat) :
    AlikeCore I (core.atTime t executed) core :=
  ⟨rfl, fun _ _ _ => rfl, fun _ => rfl, rfl, rfl, fun _ _ => rfl⟩

theorem At.exchange (h : At I (core, arb) ideal memory devices)
    (hvector : ideal.pendingExceptionVector = none)
    (hpending : ideal.pendingMemOp = some pending) (seq : Nat) :
    core.step arb seq = core.exchange arb (core.pendingOp seq pending) ∧
      AlikeCore I (core.step arb seq).1
        ({ ideal with pendingMemOp := none }.advancePending pending
          (arb.answer (core.pendingOp seq pending)).value) := by
  have hcore : AlikeCore I core ideal := h.core
  have hpending' : core.pendingMemOp = some pending := hcore.memOp.trans hpending
  have hstep : core.step arb seq = core.exchange arb (core.pendingOp seq pending) :=
    step_pending (hcore.vector.trans hvector) hpending'
  refine ⟨hstep, ?_⟩
  rw [hstep]
  obtain ⟨t, executed, heq⟩ := @exchange_pending core arb seq pending hpending' h.order
  rw [heq]
  exact (AlikeCore.atTime _ t executed).trans (hcore.advance hpending' _)

/-- A push goes to the memory of the ideal state. -/
theorem At.push (h : At I s ideal memory devices)
    (hvector : ideal.pendingExceptionVector = none)
    (hpending : ideal.pendingMemOp = some pending) (hwrite : pending.kind.isWrite = true)
    (hsize : validBusSize pending.size = true) (hram : isMmio pending.physAddr = false)
    (hclock : s.1.t ≤ (s.1.step s.2 seq).1.t) :
    ∃ value, At I (s.1.step s.2 seq)
      ({ ideal with pendingMemOp := none }.advancePending pending value)
      (memory.write pending.physAddr pending.size pending.value) devices := by
  obtain ⟨core, arb⟩ := s
  obtain ⟨hstep, hcore⟩ := h.exchange hvector hpending seq
  have hasks := h.order.asks (asks_pendingOp core seq pending)
  have hrun : arb.trace.shouldHalt = false := h.clear.shouldHalt
  refine ⟨_, hcore, ?_, ?_, h.clear.step h.order, inOrder_step h.order hclock⟩
  · rw [hstep, exchange_memory hasks, answer_ramWrite hrun hram hsize hwrite]
    exact congrArg (fun m : CommittedMemory => m.write _ _ _) h.memory
  · rw [hstep, exchange_devices hasks, answer_ramWrite hrun hram hsize hwrite]
    exact h.devices

/-- A pop is answered from the memory of the ideal state. -/
theorem At.pop (h : At I s ideal memory devices)
    (hvector : ideal.pendingExceptionVector = none)
    (hpending : ideal.pendingMemOp = some pending) (hread : pending.kind.isWrite = false)
    (hclock : s.1.t ≤ (s.1.step s.2 seq).1.t) :
    ∃ value, At I (s.1.step s.2 seq)
        ({ ideal with pendingMemOp := none }.advancePending pending value) memory devices ∧
      (isMmio pending.physAddr = false → validBusSize pending.size = true →
        value = memory.read pending.physAddr pending.size) := by
  obtain ⟨core, arb⟩ := s
  obtain ⟨hstep, hcore⟩ := h.exchange hvector hpending seq
  have hasks := h.order.asks (asks_pendingOp core seq pending)
  have hkind := pendingOp_read core seq hread
  obtain ⟨hmemory, hdevices⟩ := answer_store arb hkind.1 hkind.2
  refine ⟨_, ⟨hcore, ?_, ?_, h.clear.step h.order, inOrder_step h.order hclock⟩,
    fun hram hsize => ?_⟩
  · rw [hstep, exchange_memory hasks, hmemory]
    exact h.memory
  · rw [hstep, exchange_devices hasks, hdevices]
    exact h.devices
  · rw [answer_ramRead h.clear.shouldHalt hram hsize hread]
    exact congrArg (fun m : CommittedMemory => m.read _ _) h.memory

theorem answer_noFill {op : BusOp} (h : op.fillCacheLine = false) : (arb.answer op).lineData = [] := by
  rw [BusArbiter.answer]
  split
  · rfl
  · unfold BusArbiter.perform
    split_ifs with _ _ _ _ hfill
    · rfl
    · rfl
    · rfl
    · rfl
    · rw [h] at hfill
      exact absurd hfill.1 (by simp)
    · rfl

/-- A fill changes the line of `pc` only. -/
theorem AlikeCore.filled (response : BusResponse) (trace : TraceLog)
    (hI : response.lineData ≠ [] → I (core.icache.indexOf (toPhys core.pc))) :
    AlikeCore I (core.fillIcache response trace).1 core := by
  simp only [fillIcache]
  split
  · exact AlikeCore.refl core
  · rename_i hline
    split
    · exact AlikeCore.refl core
    · rename_i hmatch
      rw [not_or, not_not] at hmatch
      refine ⟨rfl, fun _ _ _ => rfl, fun _ => rfl, TinyCache.sameLines_fillLine _ _ _ ?_⟩
      rw [hmatch.1]
      exact hI (by simpa using hline)

/-- An instruction that is executed without data access, whether its fetch hits
or misses. -/
theorem At.instruction (h : At I s ideal memory devices) (hquiet : ideal.Quiet)
    (hdata : dataFormOf (s.1.fetched s.2) = none)
    (hI : s.1.cachedInstr = none → s.1.uncachedFetch = false →
      I (s.1.icache.indexOf (toPhys s.1.pc)))
    (hclock : s.1.t ≤ (s.1.step s.2 seq).1.t) :
    At I (s.1.step s.2 seq) (ideal.executeInstruction (s.1.fetched s.2) {}).1 memory devices := by
  obtain ⟨core, arb⟩ := s
  have hcore : AlikeCore I core ideal := h.core
  have hquiet' : core.Quiet := ⟨hcore.vector.trans hquiet.vector, hcore.memOp.trans hquiet.memOp⟩
  have hnext : ∀ s : SH2Core × BusArbiter, core.step arb seq = s →
      AlikeCore I s.1 (core.executeInstruction (core.fetched arb) {}).1 →
      s.2.memory = arb.memory → s.2.devices.unlogged = arb.devices.unlogged →
      At I (core.step arb seq) (ideal.executeInstruction (core.fetched arb) {}).1 memory devices := by
    intro s hstep hs hmemory hdevices
    refine ⟨?_, ?_, ?_, h.clear.step h.order, inOrder_step h.order hclock⟩
    · rw [hstep]
      exact hs.trans (hcore.executeCore {} {} _)
    · rw [hstep, hmemory]
      exact h.memory
    · rw [hstep, hdevices]
      exact h.devices
  cases hcached : core.cachedInstr with
  | some instr =>
    have hinstr : core.fetched arb = instr := by rw [fetched, hcached]
    rw [hinstr] at hdata hnext ⊢
    exact hnext _ (step_cached hquiet' hcached hdata) ((AlikeCore.refl core).executeCore _ _ _)
      rfl rfl
  | none =>
    have hasks := h.order.asks (asks_fetchOp core seq)
    have hkind := core.fetchOp_kind seq
    have hread : (core.fetchOp seq).kind ≠ .write ∧ (core.fetchOp seq).kind ≠ .mmioWrite := by
      rw [hkind]
      exact ⟨by decide, by decide⟩
    obtain ⟨hmemory, hdevices⟩ := answer_store arb hread.1 hread.2
    refine hnext _ (step_fetch hquiet' hcached) ?_ ?_ ?_
    · have hshown := BusArbiter.commit_answer hasks
      have hvalue := congrArg (·.value) hshown
      have hdata := congrArg (·.lineData) hshown
      change (arb.commit (core.fetchOp seq)).2.value = (arb.answer (core.fetchOp seq)).value at hvalue
      change (arb.commit (core.fetchOp seq)).2.lineData = (arb.answer (core.fetchOp seq)).lineData
        at hdata
      simp only [SH2Core.exchange]
      rw [applyIfetchAndStep_of_none hquiet'.memOp, hvalue, fetched_of_missed hcached seq]
      refine AlikeCore.executeCore ?_ _ _ _
      have hwait : AlikeCore I (core.atTime _ core.executed) core := AlikeCore.atTime core
        (tickAdd core.t (arb.commit (core.fetchOp seq)).2.stall) core.executed
      refine AlikeCore.trans (AlikeCore.filled _ _ fun hline => hI hcached ?_) hwait
      -- only the fetch of a miss has a line filled
      by_contra huncached
      rw [hdata, answer_noFill] at hline
      · exact hline rfl
      · rw [fetchOp, if_pos (by simpa using huncached)]
        rfl
    · rw [exchange_memory hasks, hmemory]
    · rw [exchange_devices hasks, hdevices]

end Saturnis.Cpu.SH2Core
