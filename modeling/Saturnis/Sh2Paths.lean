/-
The two paths of an instruction.

When the fetch of an instruction hits the cache, `produce_until_bus` decodes it
and issues its data access; when the fetch misses, `execute_instruction` gets
the word, which knows no data access but the transfers of system registers.
The two decoders agree on every other word.  A word that `produce_until_bus`
takes for a data access is illegal, a comparison or a conditional branch on the
other path, so there the two agree exactly when both do nothing.

* `TwoPaths` — one instruction, its fetch once hit and once missed;
* `Harmless` — a data access that changes neither a register nor the memory;
* `Idles` — a word that is executed and changes no register;
* `TwoPaths.agree_executed` — the words that are no data access;
* `paths_agree_iff` — when the two paths agree.
-/
import Saturnis.Sh2Access

namespace Saturnis

open Saturnis.Core Saturnis.Mem Saturnis.Bus

namespace Bus.BusArbiter

/-- The arbiter commits the operation: it has not halted, and the operation is valid and in
request order. -/
structure Commits (arb : BusArbiter) (op : BusOp) : Prop where
  running : arb.trace.shouldHalt = false
  ordered : arb.Ordered (producerSlot op) op.reqTime
  valid : validateBusOp op = .none

end Bus.BusArbiter

namespace Cpu.SH2Core

variable {core : SH2Core} {arb : BusArbiter} {seq : Nat} {instr : Instr} {form : DataForm}
  {hit miss : TinyCache} {width : AccessWidth}

def withIcache (core : SH2Core) (icache : TinyCache) : SH2Core := { core with icache := icache }

/-- An instruction in memory that runs with one cache, which answers its fetch, and with
another, which does not.  Both caches have the geometry of the core; the fetch that misses is
committed, and so is in time what either run asks for. -/
structure TwoPaths (core : SH2Core) (hit miss : TinyCache) (arb : BusArbiter) (seq : Nat)
    (instr : Instr) : Prop where
  quiet : core.Quiet
  branch : core.pendingBranchTarget = none
  lineSize : hit.lineSize = 16 ∧ miss.lineSize = 16
  lines : hit.lines.length = 64 ∧ miss.lines.length = 64
  hits : (core.withIcache hit).cachedInstr = some instr
  misses : (core.withIcache miss).cachedInstr = none
  inMemory : (arb.memory.read (toPhys core.pc) 2).setWidth 16 = instr
  committed : arb.Commits ((core.withIcache miss).fetchOp seq)
  clock : ClockRuns ((core.withIcache hit).instructionSteps arb seq) (core.withIcache hit) arb seq
  clock' : ClockRuns ((core.withIcache miss).instructionSteps arb seq) (core.withIcache miss) arb seq

/-- The same registers and the same memory. -/
structure Agree (s s' : SH2Core × BusArbiter) : Prop where
  registers : s.1.toRegisters = s'.1.toRegisters
  memory : SameMemory s.2.memory s'.2.memory

/-- The word is executed and changes no register but `pc`, which goes to the next word.  These
are the words that a hit takes for a data access; `execute_instruction` knows no others of them
but the transfers. -/
def Idles (core : SH2Core) (instr : Instr) : Prop :=
  match opcodeOf instr with
  | .illegal => True
  | .reg .cmpEqImm => core.tFlag = (core.r 0 == instr.signext8)
  | .branch .bt => core.tFlag = false
  | .branch .bf => core.tFlag = true
  -- the branch is delayed
  | .branch .btS | .branch .bfS => True
  -- a transfer goes two bytes too far
  | _ => False

/-! ### Words of both decoders -/

/-- What `execute_instruction` takes a data access for. -/
theorem opcodeOf_dataForm (hform : dataFormOf instr = some form) :
    opcodeOf instr = .illegal ∨ (opcodeOf instr).isTransfer = true ∨
      ((∃ width, form = .storeDispHigh width) ∧
        opcodeOf instr ∈ [.reg .cmpEqImm, .branch .bt, .branch .bf, .branch .btS, .branch .bfS]) := by
  have hrows : ∀ row ∈ executeTable, row.result.isTransfer = true ∨ ∀ other ∈ dataTable,
      row.value &&& other.mask = other.value &&& row.mask →
        (other.result = .storeDispHigh .byte ∨ other.result = .storeDispHigh .word) ∧
          row.result ∈
            [.reg .cmpEqImm, .branch .bt, .branch .bf, .branch .btS, .branch .bfS] := by
    decide +kernel
  by_cases hop : opcodeOf instr = .illegal
  · exact Or.inl hop
  obtain ⟨row, hmem, other, hother, hresult, rfl, hagree⟩ := opcodeOf_dataForm_rows rfl hop hform
  rcases hrows row hmem with htransfer | hoverlap
  · exact Or.inr (Or.inl (hresult ▸ htransfer))
  · obtain ⟨hhigh, hin⟩ := hoverlap other hother hagree
    exact Or.inr (Or.inr ⟨hhigh.elim (fun h => ⟨_, h⟩) fun h => ⟨_, h⟩, hresult ▸ hin⟩)

/-- The low digit of a store in the high layout. -/
theorem storeDispHigh_digit (hform : dataFormOf instr = some (.storeDispHigh width)) :
    instr &&& 0x000F#16 = 0#16 ∨ instr &&& 0x000F#16 = 1#16 := by
  have hrows : ∀ row ∈ dataTable, row.result = .storeDispHigh width →
      row.mask = 0xF00F#16 ∧ (row.value &&& 0x000F#16 = 0#16 ∨ row.value &&& 0x000F#16 = 1#16) := by
    cases width <;> decide
  obtain ⟨row, hmem, hmatches, hresult⟩ := lookup_some hform
  obtain ⟨hmask, hdigit⟩ := hrows row hmem hresult
  rw [Row.matches, hmask, beq_iff_eq] at hmatches
  rw [← hmatches, BitVec.and_assoc] at hdigit
  exact hdigit

/-- With such a digit a conditional branch goes elsewhere than to the next word. -/
theorem target8_ne (hdigit : instr &&& 0x000F#16 = 0#16 ∨ instr &&& 0x000F#16 = 1#16)
    (x : Registers) : x.target8 instr ≠ x.pc + 2 := by
  have hbytes : ∀ byte : BitVec 8, byte &&& 0x0F#8 = 0#8 ∨ byte &&& 0x0F#8 = 1#8 →
      4 + byte.signExtend 32 * 2 ≠ (2 : Word) := by decide +kernel
  have hlow : (instr.setWidth 8) &&& 0x0F#8 = (instr &&& 0x000F#16).setWidth 8 := by
    rw [BitVec.setWidth_and]
    rfl
  have hbyte : (instr.setWidth 8) &&& 0x0F#8 = 0#8 ∨ (instr.setWidth 8) &&& 0x0F#8 = 1#8 := by
    rw [hlow]
    exact hdigit.imp (fun h => by rw [h]; rfl) fun h => by rw [h]; rfl
  intro heq
  rw [Registers.target8, BitVec.add_assoc] at heq
  exact hbytes _ hbyte ((BitVec.add_right_inj _).mp heq)

/-! ### The miss -/

/-- Setting the flag to what it is changes nothing. -/
theorem setTFlag_eq_iff {x : Registers} {value : Bool} {pc : Addr} :
    { x.setTFlag value with pc := pc } = { x with pc := pc } ↔ x.tFlag = value := by
  rw [Registers.tFlag_eq]
  constructor
  · intro h
    have hsr : (x.setTFlag value).sr = x.sr := (congrArg Registers.sr h :)
    rw [← hsr, Registers.getLsbD_setTFlag x value (by decide), if_pos rfl]
  · intro h
    have hsr : (x.setTFlag value).sr = x.sr := by
      refine BitVec.eq_of_getLsbD_eq fun i hi => ?_
      rw [Registers.getLsbD_setTFlag x value hi]
      split
      · rename_i hzero
        rw [← hzero, h]
      · rfl
    show { x with sr := (x.setTFlag value).sr, pc := pc } = _
    rw [hsr]

/-- What an instruction that is executed leaves in the registers. -/
theorem executeInstruction_registers (hbranch : core.pendingBranchTarget = none)
    {op : Opcode} (hop : opcodeOf instr = op) (trace : TraceLog) :
    (core.executeInstruction instr trace).1.toRegisters =
      (core.dispatch op instr trace).1.toRegisters := by
  have hcore : ({ core with pendingBranchTarget := none } : SH2Core) = core := by
    rw [← hbranch]
  rw [executeInstruction_eq, hcore, hbranch, hop]
  show (SH2Core.settle (core.dispatch op instr trace).1 none
    (core.dispatch op instr trace).2.1).toRegisters = _
  cases (core.dispatch op instr trace).2.1 <;> rfl

/-- A data access that is executed leaves the registers alone exactly when the word idles. -/
theorem executeInstruction_idles_iff (hbranch : core.pendingBranchTarget = none)
    (hform : dataFormOf instr = some form) (htransfer : (opcodeOf instr).isTransfer = false)
    (trace : TraceLog) :
    (core.executeInstruction instr trace).1.toRegisters =
      { core.toRegisters with pc := core.pc + 2 } ↔ core.Idles instr := by
  rcases opcodeOf_dataForm hform with hop | hyes | ⟨⟨width, rfl⟩, hin⟩
  · rw [executeInstruction_registers hbranch hop, Idles, hop]
    exact iff_of_true rfl trivial
  · exact absurd hyes (by simp [htransfer])
  have hne := target8_ne (storeDispHigh_digit hform) core.toRegisters
  simp only [List.mem_cons, List.not_mem_nil, or_false] at hin
  rcases hin with hop | hop | hop | hop | hop
  · rw [executeInstruction_registers hbranch hop, Idles, hop]
    exact setTFlag_eq_iff
  · rw [executeInstruction_registers hbranch hop, Idles, hop]
    show (if core.tFlag then _ else _ : Registers) = _ ↔ core.tFlag = false
    cases hflag : core.tFlag with
    | true =>
        exact iff_of_false (fun h => hne (congrArg Registers.pc h)) (by simp)
    | false => exact iff_of_true rfl rfl
  · rw [executeInstruction_registers hbranch hop, Idles, hop]
    show (if !core.tFlag then _ else _ : Registers) = _ ↔ core.tFlag = true
    cases hflag : core.tFlag with
    | true => exact iff_of_true rfl rfl
    | false =>
        exact iff_of_false (fun h => hne (congrArg Registers.pc h)) (by simp)
  · rw [executeInstruction_registers hbranch hop, Idles, hop]
    exact iff_of_true rfl trivial
  · rw [executeInstruction_registers hbranch hop, Idles, hop]
    exact iff_of_true rfl trivial

/-! ### Both paths -/

theorem TwoPaths.cacheable (h : TwoPaths core hit miss arb seq instr) :
    core.uncachedFetch = false :=
  (cachedInstr_eq_some h.hits).1

theorem TwoPaths.inOrder (h : TwoPaths core hit miss arb seq instr) (icache : TinyCache) :
    (core.withIcache icache).InOrder arb := by
  have hasks := asks_fetchOp (core.withIcache miss) seq
  have hordered := h.committed.ordered
  rw [hasks.slot, hasks.reqTime] at hordered
  exact hordered

/-- The fetch that misses is answered with the word in memory. -/
theorem TwoPaths.fetched (h : TwoPaths core hit miss arb seq instr) :
    (core.withIcache miss).fetched arb = instr := by
  have hkind := fetchOp_kind (core.withIcache miss) seq
  have hphys : ((core.withIcache miss).fetchOp seq).physAddr = toPhys core.pc ∧
      ((core.withIcache miss).fetchOp seq).size = 2 := by
    rw [fetchOp]
    split <;> exact ⟨rfl, rfl⟩
  have hram : isMmio (toPhys core.pc) = false := by
    have hcacheable := h.cacheable
    rw [uncachedFetch, Bool.or_eq_false_iff] at hcacheable
    exact hcacheable.2
  have hvalue : (arb.answer ((core.withIcache miss).fetchOp seq)).value =
      arb.memory.read (toPhys core.pc) 2 := by
    rw [BusArbiter.answer, if_neg (by simp [h.committed.running, h.committed.valid]),
      BusArbiter.perform, if_neg (by simp [hkind]), if_neg (by simp [hkind]),
      if_neg (by simp [hkind, hphys.1, hram]), hphys.1, hphys.2]
    simp only
    split <;> rfl
  rw [fetched_of_missed h.misses seq, hvalue]
  exact h.inMemory

theorem TwoPaths.hitAccess (h : TwoPaths core hit miss arb seq instr)
    (hform : dataFormOf instr = some form) : (core.withIcache hit).HitAccess arb seq instr form where
  quiet := ⟨h.quiet.vector, h.quiet.memOp⟩
  branch := h.branch
  running := h.committed.running
  order := h.inOrder hit
  clock := h.clock.1
  cached := h.hits
  form := hform

/-- The step that misses executes the word and leaves the memory alone. -/
theorem TwoPaths.missed (h : TwoPaths core hit miss arb seq instr) :
    ∃ t icache trace, ((core.withIcache miss).step arb seq).1 =
        ({ core with t := t, icache := icache }.executeInstruction instr trace).1 ∧
      ((core.withIcache miss).step arb seq).2.memory = arb.memory := by
  have hquiet : (core.withIcache miss).Quiet := ⟨h.quiet.vector, h.quiet.memOp⟩
  obtain ⟨t, icache, trace, hstep⟩ := step_missed (h.inOrder miss) hquiet h.misses seq
  rw [h.fetched] at hstep
  refine ⟨t, icache, trace, hstep, ?_⟩
  have hkind := fetchOp_kind (core.withIcache miss) seq
  rw [step_fetch hquiet h.misses, exchange_memory h.committed.ordered]
  exact (answer_store arb (by rw [hkind]; decide) (by rw [hkind]; decide)).1

/-- A data access whose fetch misses is executed at once, transfers aside. -/
theorem TwoPaths.miss_idles_iff (h : TwoPaths core hit miss arb seq instr)
    (hform : dataFormOf instr = some form) (htransfer : (opcodeOf instr).isTransfer = false) :
    (((core.withIcache miss).runInstruction arb seq).1.toRegisters =
        { core.toRegisters with pc := core.pc + 2 } ↔ core.Idles instr) ∧
      ((core.withIcache miss).runInstruction arb seq).2.memory = arb.memory := by
  obtain ⟨t, icache, trace, hstep, hmemory⟩ := h.missed
  have hother : opcodeOf instr ≠ .trapa ∧ opcodeOf instr ≠ .rte := by
    rcases opcodeOf_dataForm hform with hop | hyes | ⟨-, hin⟩
    · rw [hop]
      exact ⟨by simp, by simp⟩
    · exact absurd hyes (by simp [htransfer])
    · constructor
      all_goals
        intro hop
        rw [hop] at hin
        exact absurd hin (by simp)
  have hdone : ((core.withIcache miss).step arb seq).1.pendingMemOp = none := by
    rw [hstep, executeInstruction_plain hother.1 hother.2 htransfer]
    exact h.quiet.memOp
  have hbranch : ({ core with t := t, icache := icache } : SH2Core).pendingBranchTarget = none :=
    h.branch
  rw [runInstruction_one hdone, hstep]
  exact ⟨executeInstruction_idles_iff hbranch hform htransfer trace, hmemory⟩

/-- A transfer whose fetch misses goes two bytes too far. -/
theorem TwoPaths.miss_transfer (h : TwoPaths core hit miss arb seq instr)
    (htransfer : (opcodeOf instr).isTransfer = true) :
    ((core.withIcache miss).runInstruction arb seq).1.pc = core.pc + 2 + 2 := by
  obtain ⟨t, icache, trace, hstep, -⟩ := h.missed
  have hbranch : ({ core with t := t, icache := icache } : SH2Core).pendingBranchTarget = none :=
    h.branch
  obtain ⟨pending, hpending, haccess, hleft⟩ := executeInstruction_transfer htransfer
    { core with t := t, icache := icache } trace
  have hnone : ((core.withIcache miss).step arb seq).1.pendingBranchTarget = none ∧
      ((core.withIcache miss).step arb seq).1.pc = core.pc + 2 := by
    rw [hstep, executeInstruction_eq, hbranch]
    cases hop : opcodeOf instr with
    | pushSys source => exact ⟨rfl, rfl⟩
    | popSys target => exact ⟨rfl, rfl⟩
    | _ =>
        rw [hop] at htransfer
        exact absurd htransfer (by simp [Opcode.isTransfer])
  rw [← hstep] at hpending
  have hvector := @step_keeps_vector (core.withIcache miss) arb seq h.quiet.vector
  have hsecond := @step_pending _ ((core.withIcache miss).step arb seq).2 (seq + 1) _ hvector hpending
  rw [runInstruction_two hpending hleft, hsecond,
    (exchange_alone hnone.1 hpending haccess hleft _ _).1, hnone.2]

theorem harmless_withIcache (icache : TinyCache) :
    (core.withIcache icache).Harmless arb instr form ↔ core.Harmless arb instr form := by
  cases form <;> exact Iff.rfl

/-- The two paths of a data access. -/
theorem TwoPaths.agree_access (h : TwoPaths core hit miss arb seq instr)
    (hform : dataFormOf instr = some form) :
    Agree ((core.withIcache hit).runInstruction arb seq)
        ((core.withIcache miss).runInstruction arb seq) ↔
      core.Idles instr ∧ core.Harmless arb instr form := by
  have haccess := h.hitAccess hform
  by_cases htransfer : (opcodeOf instr).isTransfer = true
  · -- The two runs are at different words.
    refine iff_of_false (fun hagree => ?_) fun hboth => ?_
    · have hpc : ((core.withIcache hit).runInstruction arb seq).1.pc =
          ((core.withIcache miss).runInstruction arb seq).1.pc :=
        congrArg Registers.pc hagree.registers
      rw [haccess.pc, h.miss_transfer htransfer] at hpc
      have hne : ∀ pc : Addr, pc + 2 ≠ pc + 2 + 2 := fun pc => by bv_omega
      exact hne core.pc hpc
    · have hidles := hboth.1
      rw [Idles] at hidles
      cases hop : opcodeOf instr with
      | pushSys source => simp [hop] at hidles
      | popSys target => simp [hop] at hidles
      | _ =>
          rw [hop] at htransfer
          exact absurd htransfer (by simp [Opcode.isTransfer])
  rw [Bool.not_eq_true] at htransfer
  obtain ⟨hidles, hmemory⟩ := h.miss_idles_iff hform htransfer
  have hharmless := haccess.undisturbed_iff
  rw [harmless_withIcache] at hharmless
  -- One of the two leaves the registers alone in any case.
  have hone : ((core.withIcache hit).runInstruction arb seq).1.toRegisters =
        { core.toRegisters with pc := core.pc + 2 } ∨ core.Idles instr := by
    rcases opcodeOf_dataForm hform with hop | hyes | ⟨⟨width, rfl⟩, -⟩
    · refine Or.inr ?_
      rw [Idles, hop]
      trivial
    · exact absurd hyes (by simp [htransfer])
    · exact Or.inl (haccess.store rfl).1
  rw [← hharmless, ← hidles]
  rw [← hidles] at hone
  constructor
  · rintro ⟨hregisters, hsame⟩
    rw [hmemory] at hsame
    rcases hone with hhit | hmiss
    · exact ⟨hregisters.symm.trans hhit, hhit, hsame⟩
    · exact ⟨hmiss, hregisters.trans hmiss, hsame⟩
  · rintro ⟨hmiss, hhit, hsame⟩
    refine ⟨hhit.trans hmiss.symm, ?_⟩
    rw [hmemory]
    exact hsame

/-! ### Instructions without a data access -/

/-- The line of the fetch that misses is the one of `pc`. -/
theorem TwoPaths.fill_trace (h : TwoPaths core hit miss arb seq instr) (t : Nat) (trace : TraceLog) :
    ({ core.withIcache miss with t := t }.fillIcache
      (arb.commit ((core.withIcache miss).fetchOp seq)).2 trace).2 = trace := by
  have hshown := BusArbiter.commit_answer h.committed.ordered
  have hbase := congrArg (·.lineBase) hshown
  have hdata := congrArg (·.lineData) hshown
  change (arb.commit _).2.lineBase = (arb.answer _).lineBase at hbase
  change (arb.commit _).2.lineData = (arb.answer _).lineData at hdata
  simp only [fillIcache]
  split
  · rfl
  · rename_i hline
    rw [if_neg]
    have hanswer : arb.answer ((core.withIcache miss).fetchOp seq) =
        arb.perform ((core.withIcache miss).fetchOp seq) 0 := by
      rw [BusArbiter.answer, if_neg (by simp [h.committed.running, h.committed.valid])]
    rw [hdata, hanswer] at hline
    obtain ⟨hlineBase, hlength⟩ := BusArbiter.perform_lineData arb
      ((core.withIcache miss).fetchOp seq) 0 (by simpa using hline)
    have hop : (core.withIcache miss).fetchOp seq = (core.withIcache miss).missOp seq :=
      if_neg (by rw [show (core.withIcache miss).uncachedFetch = false from h.cacheable]; simp)
    have hsize : ((core.withIcache miss).missOp seq).cacheLineSize = miss.lineSize := by
      show miss.lineSize % 256 = miss.lineSize
      rw [h.lineSize.2]
    rw [hbase, hdata, hanswer, hlineBase, hlength, hop, hsize]
    exact fun hmismatch => hmismatch.elim (fun hne => hne rfl) fun hne => hne rfl

/-- After the first step the two runs are alike. -/
theorem TwoPaths.alike (h : TwoPaths core hit miss arb seq instr) (hform : dataFormOf instr = none) :
    Alike (fun _ => False) (fun _ => True) ((core.withIcache miss).step arb seq)
      ((core.withIcache hit).step arb seq) := by
  have hquiet : ∀ icache, (core.withIcache icache).Quiet := fun icache =>
    ⟨h.quiet.vector, h.quiet.memOp⟩
  have hordered := h.committed.ordered
  have hkind := fetchOp_kind (core.withIcache miss) seq
  have hread : ((core.withIcache miss).fetchOp seq).kind ≠ .write ∧
      ((core.withIcache miss).fetchOp seq).kind ≠ .mmioWrite := by
    rw [hkind]
    exact ⟨by decide, by decide⟩
  obtain ⟨hmemory, hdevices⟩ := answer_store arb hread.1 hread.2
  -- The line that is filled is the only difference between the two cores.
  have hcore : AlikeCore (fun _ => True)
      ({ core.withIcache miss with
          t := tickAdd core.t (arb.commit ((core.withIcache miss).fetchOp seq)).2.stall }.fillIcache
        (arb.commit ((core.withIcache miss).fetchOp seq)).2
        (arb.commit ((core.withIcache miss).fetchOp seq)).1.trace).1 (core.withIcache hit) := by
    refine AlikeCore.trans (AlikeCore.filled _ _ fun _ => trivial) ?_
    exact ⟨rfl, fun _ _ _ => rfl, fun _ => rfl, h.lineSize.2.trans h.lineSize.1.symm,
      h.lines.2.trans h.lines.1.symm, fun _ hi => absurd trivial hi⟩
  have hhalt : SameHalt (arb.commit ((core.withIcache miss).fetchOp seq)).1.trace arb.trace := by
    refine ⟨BusArbiter.commit_haltOnFault hordered, ?_⟩
    rw [BusArbiter.commit_shouldHalt hordered, h.committed.valid]
    simp
  have hout := hcore.execute hhalt instr
  have hmissed : (core.withIcache miss).step arb seq =
      (core.withIcache miss).exchange arb ((core.withIcache miss).fetchOp seq) :=
    step_fetch (hquiet miss) h.misses
  have hexchange : (core.withIcache miss).exchange arb ((core.withIcache miss).fetchOp seq) =
      _ := exchange_eq _ _ _
  rw [applyIfetchAndStep_of_none (hquiet miss).memOp, h.fill_trace,
    fetch_value (h.inOrder miss) h.misses, h.fetched] at hexchange
  have hstill : ((core.withIcache miss).exchange arb
      ((core.withIcache miss).fetchOp seq)).2.memory = arb.memory :=
    (exchange_memory hordered).trans hmemory
  have hstill' : ((core.withIcache miss).exchange arb
      ((core.withIcache miss).fetchOp seq)).2.devices.unlogged = arb.devices.unlogged :=
    (exchange_devices hordered).trans (congrArg Dev.DeviceHub.unlogged hdevices)
  rw [hmissed, step_cached (hquiet hit) h.hits hform]
  refine ⟨?_, ⟨?_, ?_, ?_⟩, ?_, ?_⟩
  · rw [hexchange]
    exact hout.core
  · exact congrArg CommittedMemory.size hstill
  · exact fun addr _ => congrArg (fun m : CommittedMemory => m.byteAt addr) hstill
  · exact hstill'
  · rw [hexchange]
    exact hout.halt.haltOnFault
  · rw [hexchange]
    exact hout.halt.shouldHalt

/-- A core that waits for nothing but what is pending stays apart from any line. -/
theorem staysApart_phases {core : SH2Core} {arb : BusArbiter} {seq : Nat} (n : Nat)
    (hvector : core.pendingExceptionVector = none) (hn : n ≤ core.phasesLeft) :
    StaysApart (fun _ => False) (fun _ => True) n core arb seq := by
  induction n generalizing core arb seq with
  | zero => trivial
  | succ n ih =>
      have hpending : core.pendingMemOp ≠ none := by
        intro hnone
        rw [phasesLeft_eq_zero.mpr hnone] at hn
        omega
      have hleft := @phasesLeft_step core arb seq hvector hpending
      refine ⟨⟨fun hquiet => absurd hquiet.memOp hpending, fun _ _ _ _ hfalse => hfalse.elim⟩, ?_⟩
      exact ih (step_keeps_vector hvector) (by omega)

/-- **A word that is no data access** is executed alike on both paths, all its phases. -/
theorem TwoPaths.agree_executed (h : TwoPaths core hit miss arb seq instr)
    (hform : dataFormOf instr = none) :
    Agree ((core.withIcache hit).runInstruction arb seq)
      ((core.withIcache miss).runInstruction arb seq) := by
  have halike := h.alike hform
  have hphases : ((core.withIcache miss).step arb seq).1.phasesLeft =
      ((core.withIcache hit).step arb seq).1.phasesLeft := by
    rw [phasesLeft, phasesLeft, halike.core.memOp]
  have hvector := @step_keeps_vector (core.withIcache hit) arb seq h.quiet.vector
  have hclock := h.clock
  have hclock' := h.clock'
  rw [instructionSteps] at hclock hclock'
  rw [hphases] at hclock'
  have hapart := @staysApart_phases _ ((core.withIcache hit).step arb seq).2 (seq + 1) _ hvector
    (Nat.le_refl ((core.withIcache hit).step arb seq).1.phasesLeft)
  have hsteps := Alike.steps _ halike hapart (inOrder_step (h.inOrder miss) hclock'.1)
    (inOrder_step (h.inOrder hit) hclock.1) hclock'.2 hclock.2
  rw [runInstruction, runInstruction, instructionSteps, instructionSteps, hphases]
  exact ⟨hsteps.core.registers.symm, hsteps.bus.store.size.symm,
    fun addr => (hsteps.bus.store.bytes addr not_false).symm⟩

/-- **The two paths of an instruction agree exactly when it is no data access, or one that is
harmless on the hit and idles on the miss.** -/
theorem paths_agree_iff (h : TwoPaths core hit miss arb seq instr) :
    Agree ((core.withIcache hit).runInstruction arb seq)
        ((core.withIcache miss).runInstruction arb seq) ↔
      ∀ form, dataFormOf instr = some form → core.Idles instr ∧ core.Harmless arb instr form := by
  cases hform : dataFormOf instr with
  | none => exact iff_of_true (h.agree_executed hform) fun form hsome => absurd hsome (by simp)
  | some form =>
      rw [h.agree_access hform]
      constructor
      · rintro hboth other hsome
        rw [← Option.some.inj hsome]
        exact hboth
      · exact fun hall => hall form rfl

/-- Memory that starts with `MOV.L @R2,R1`. -/
def loadBus : BusArbiter := { memory := ⟨[0x61, 0x22] ++ List.replicate 62 0⟩ }

/-- The core at its start, with that value in `R1` and the address of a zero in `R2`. -/
def loadCore (value : Word) : SH2Core := { r := Function.update (fun _ => 0x20) 1 value }

/-- Its first line in the cache. -/
def loadLine : TinyCache :=
  (TinyCache.make 16 64).fillLine 0 ([0x61, 0x22] ++ List.replicate 14 0)

theorem twoPaths_load {value : Word} (h : value = 0 ∨ value = 5) :
    TwoPaths (loadCore value) loadLine (TinyCache.make 16 64) loadBus 0 0x6122#16 := by
  rcases h with rfl | rfl
  all_goals exact ⟨⟨rfl, rfl⟩, rfl, ⟨rfl, rfl⟩, ⟨rfl, rfl⟩, by decide, by decide, by decide,
    ⟨rfl, ⟨by decide, by decide⟩, by decide⟩, by decide +kernel, by decide +kernel⟩

/-- The load finds in `R1` what is in memory. -/
theorem agree_load :
    Agree (((loadCore 0).withIcache loadLine).runInstruction loadBus 0)
      (((loadCore 0).withIcache (TinyCache.make 16 64)).runInstruction loadBus 0) := by
  refine (paths_agree_iff (twoPaths_load (Or.inl rfl))).mpr fun form hform => ?_
  have hload : dataFormOf 0x6122#16 = some (.load .long) := by decide
  obtain rfl := Option.some.inj (hload.symm.trans hform)
  have hidles : opcodeOf 0x6122#16 = .illegal := by decide
  refine ⟨?_, ?_⟩
  · rw [Idles, hidles]
    trivial
  · show (loadCore 0).r 1 = (loadCore 0).loaded loadBus .long 0x20
    decide

/-- On the miss the load is illegal. -/
theorem not_agree_load :
    ¬ ∀ (core : SH2Core) (hit miss : TinyCache) (arb : BusArbiter) (seq : Nat) (instr : Instr),
      core.pendingTrapaImm = none → TwoPaths core hit miss arb seq instr →
      Agree ((core.withIcache hit).runInstruction arb seq)
        ((core.withIcache miss).runInstruction arb seq) := by
  intro hall
  have hagree := hall (loadCore 5) loadLine (TinyCache.make 16 64) loadBus 0 0x6122#16 rfl
    (twoPaths_load (Or.inr rfl))
  have hr := congrArg (fun x : Registers => x.r 1) hagree.registers
  exact absurd hr (by decide +kernel)

end Cpu.SH2Core

end Saturnis
