/-
The run of a BIOS image on two cores.

A `BiosRun` holds the variables of `run_bios_trace`; `iterate` is the body of
its loop, `runBiosTrace` the function for at most `fuel` iterations.  Core 0 is
the master.  `produced` and `responded` list what each core has asked for and
what it has been answered; nothing reads them.

* `Sound` — the counters are behind the clocks, and an operation a core waits
  for is of its present tick; kept by `Sound.prepare` and `Sound.commit`;
* `Paired` — what has been answered to a core is what it has asked for, in that
  order and once each; kept by everything the loop does.
-/
import Saturnis.ArbiterRecords
import Saturnis.Loop
import Saturnis.Sh2Clock
import Saturnis.Sh2Phase

namespace Saturnis.Core

open Saturnis.Core Saturnis.Mem Saturnis.Bus Saturnis.Cpu

/-- The storage of the emulator with the image at its start. -/
def loadImage (image : List Byte) : CommittedMemory :=
  image.zipIdx.foldl (fun mem e => mem.write (BitVec.ofNat 32 e.2) 1 (e.1.setWidth 32))
    (.make (32 * 1024 * 1024))

structure BiosRun where
  core : Fin 2 → SH2Core
  arb : BusArbiter
  seq : Nat := 0
  p : Fin 2 → Option BusOp := fun _ => none
  produced : Fin 2 → List BusOp := fun _ => []
  responded : Fin 2 → List BusOp := fun _ => []

namespace BiosRun

def start (image : List Byte) : BiosRun :=
  { core := fun c => SH2Core.reset { cpuId := c.val } 0 0x0001FFF0#32
    arb := { memory := loadImage image } }

/-- `master.executed_instructions() + slave.executed_instructions()`. -/
def executed (s : BiosRun) : Nat := tickAdd (s.core 0).executed (s.core 1).executed

/-- `produce_until_bus`, unless the core waits for an operation. -/
def produce (s : BiosRun) (c : Fin 2) : BiosRun :=
  match s.p c with
  | some _ => s
  | none =>
    let (core, trace, next) := (s.core c).produceUntilBus s.seq s.arb.trace 16
    { s with
      core := Function.update s.core c core
      arb := { s.arb with trace }
      seq := tickAdd s.seq 1
      p := Function.update s.p c next.op
      produced := Function.update s.produced c (s.produced c ++ next.op.toList) }

/-- The watermark of a core. -/
def mark (s : BiosRun) (c : Fin 2) : Nat :=
  match s.p c with
  | some op => tickAdd op.reqTime 1
  | none => (s.core c).t

def publish (s : BiosRun) : BiosRun :=
  { s with arb := (s.arb.updateProgress 0 (s.mark 0)).updateProgress 1 (s.mark 1) }

/-- The iteration up to the collection of `fetches`. -/
def prepare (s : BiosRun) : BiosRun := ((s.produce 0).produce 1).publish

/-- The entries of `cpus` and `fetches`. -/
def fetches (s : BiosRun) : List (Fin 2 × BusOp) :=
  [0, 1].filterMap fun c => (s.p c).map fun op => (c, op)

def respond (s : BiosRun) (c : Fin 2) (result : CommitResult) : BiosRun :=
  let (core, trace) := (s.core c).applyIfetchAndStep result.response s.arb.trace
  { s with
    core := Function.update s.core c core
    arb := { s.arb with trace }
    p := Function.update s.p c none
    responded := Function.update s.responded c (s.responded c ++ [result.op]) }

def commit (s : BiosRun) : BiosRun :=
  let (arb, committed) := s.arb.commitBatch (s.fetches.map (·.2))
  committed.foldl (fun run result => run.respond (s.fetches.getD result.inputIndex (0, {})).1 result)
    { s with arb }

/-- One iteration of the loop; the flag is set where it ends. -/
def iterate (maxSteps : Nat) (s : BiosRun) : BiosRun × Bool :=
  if s.executed < maxSteps then
    let s := s.prepare
    if s.fetches.isEmpty then (s, maxSteps ≤ s.executed)
    else (s.commit, false)
  else (s, true)

/-- The DMA probe after the loop; the log that is returned as text. -/
def probe (s : BiosRun) : TraceLog :=
  let (arb, _) := s.arb.commitDma
    { sequence := s.seq, kind := .mmioWrite, physAddr := 0x05FE00AC#32, data := 0x31#32 }
  let (arb, _) := arb.commitDma
    { reqTime := 1, sequence := tickAdd s.seq 1, kind := .mmioRead, physAddr := 0x05FE00AC#32 }
  arb.trace

/-- The run after `n` iterations. -/
def after (image : List Byte) (maxSteps n : Nat) : BiosRun :=
  (Loop.step (iterate maxSteps))^[n] (start image)

/-- Iteration `n` is made: the loop has not ended before it, nor does it end there. -/
def Iterates (image : List Byte) (maxSteps n : Nat) : Prop :=
  (∀ m < n, (iterate maxSteps (after image maxSteps m)).2 = false) ∧
    (after image maxSteps n).executed < maxSteps

/-- The ticks of an iteration stay below the modulus: no clock runs back, and no
operation that waits would finish past it. -/
structure TicksBelow (s : BiosRun) : Prop where
  produce : ∀ c, (s.core c).t ≤ (s.prepare.core c).t
  finish : ∀ c op, s.prepare.p c = some op → op.reqTime + s.arb.baseLatency op < tickModulus
  respond : ∀ c, s.prepare.commit.p c ≠ s.prepare.p c →
    (s.prepare.core c).t < (s.prepare.commit.core c).t

/-- What has been answered to a core is what the core has asked for, but for the
operation it still waits for. -/
def Paired (s : BiosRun) : Prop := ∀ c, s.responded c ++ (s.p c).toList = s.produced c

/-- The instructions and phases both cores have retired. -/
def total (s : BiosRun) : Nat := (s.core 0).executed + (s.core 1).executed

end BiosRun

/-- `run_bios_trace`, for at most `fuel` iterations. -/
def runBiosTrace (fuel : Nat) (image : List Byte) (maxSteps : Nat) : Option TraceLog :=
  (Loop.run (BiosRun.iterate maxSteps) fuel (BiosRun.start image)).map BiosRun.probe

/-! ### The arbiter of the run -/

open SH2Core (Clear)

/-- The log does not halt, and the latencies are those of the source. -/
structure Ready (arb : BusArbiter) : Prop where
  clear : Clear arb.trace
  latency : arb.latency = {}

theorem clear_faultResponse {arb : BusArbiter} (h : Clear arb.trace) (op : BusOp) (start : Nat)
    (reason : String) (detail : Word) :
    Clear (arb.faultResponse op start reason detail).1.trace :=
  ⟨(h.addFault ⟨start, op.cpuId, 0, detail, reason⟩).haltOnFault,
    (h.addFault ⟨start, op.cpuId, 0, detail, reason⟩).shouldHalt⟩

theorem Ready.execute {arb : BusArbiter} (h : Ready arb) (op : BusOp) (tie : Bool) :
    Ready (arb.executeCommit op tie).1 := by
  refine ⟨?_, (arb.executeCommit_latency op tie).trans h.latency⟩
  cases hacc : arb.accepts op with
  | true =>
    rw [BusArbiter.executeCommit_of_accepts hacc]
    exact ⟨h.clear.haltOnFault, h.clear.shouldHalt⟩
  | false =>
    obtain ⟨reason, detail, heq⟩ := BusArbiter.executeCommit_of_rejected tie hacc
    rw [heq]
    exact clear_faultResponse h.clear op _ reason detail

theorem Ready.validate {arb : BusArbiter} (h : Ready arb) (op : BusOp) :
    Ready (arb.validateEnqueueContract op).1 := by
  simp only [BusArbiter.validateEnqueueContract]
  split
  · exact ⟨clear_faultResponse h.clear op _ _ _, h.latency⟩
  · exact ⟨h.clear, h.latency⟩

theorem Ready.batch {arb : BusArbiter} (h : Ready arb) (ops : List BusOp) :
    Ready (arb.commitBatch ops).1 := by
  have hreset : Ready arb.resetEnqueued := ⟨h.clear, h.latency⟩
  have henqueued := BusArbiter.enqueue_keeps (fun _ op hr => hr.validate op) hreset 0 ops
  exact BusArbiter.commitRounds_keeps (fun _ op tie hr => hr.execute op tie) henqueued _ _

theorem Ready.updateProgress {arb : BusArbiter} (h : Ready arb) (cpuId : Int) (t : Nat) :
    Ready (arb.updateProgress cpuId t) := by
  have hcore := BusArbiter.core_updateProgress arb cpuId t
  have htrace := BusArbiter.core_trace hcore
  refine ⟨?_, (BusArbiter.core_latency hcore).trans h.latency⟩
  rw [htrace]
  exact h.clear

namespace BiosRun

variable {s : BiosRun} {c d : Fin 2}

/-- The cores are numbered, their counters behind their clocks, and an operation
a core waits for is of its present tick. -/
structure Sound (s : BiosRun) : Prop where
  ready : Ready s.arb
  counted : ∀ c, (s.core c).Counted
  cpuId : ∀ c, (s.core c).cpuId = c.val
  issues : ∀ c op, s.p c = some op → (s.core c).Issues op

theorem sound_start (image : List Byte) : (start image).Sound :=
  ⟨⟨⟨rfl, rfl⟩, rfl⟩, fun _ => ⟨Nat.two_pow_pos 64, Nat.le_refl 0⟩, fun _ => rfl,
    fun _ _ h => absurd h (by simp [start])⟩

/-! ### Producing -/

theorem produce_of_waits {op : BusOp} (h : s.p c = some op) : s.produce c = s := by
  rw [produce, h]

/-- Only the core that produces changes. -/
theorem produce_of_ne (s : BiosRun) (hne : d ≠ c) :
    (s.produce c).core d = s.core d ∧ (s.produce c).p d = s.p d := by
  cases h : s.p c with
  | some op =>
    rw [produce_of_waits h]
    exact ⟨rfl, rfl⟩
  | none =>
    rw [produce, h]
    exact ⟨Function.update_of_ne hne _ _, Function.update_of_ne hne _ _⟩

theorem paired_produce (h : s.Paired) (c : Fin 2) : (s.produce c).Paired := by
  cases hp : s.p c with
  | some op =>
    rw [produce_of_waits hp]
    exact h
  | none =>
    rw [produce, hp]
    intro d
    have hd := h d
    by_cases hdc : d = c
    · rw [hdc, hp] at hd
      simp only [hdc, Function.update_self, ← hd, Option.toList_none, List.append_nil]
    · simp only [Function.update_of_ne hdc]
      exact hd

/-- What `produce` does to the counter of its core. -/
structure Runs (s s' : BiosRun) (c : Fin 2) : Prop where
  executed : (s.core c).executed ≤ (s'.core c).executed
  all : s'.p c = none → (s.core c).executed + 16 = (s'.core c).executed

theorem Sound.produce (hs : s.Sound) (c : Fin 2)
    (hclock : (s.core c).t ≤ ((s.produce c).core c).t) :
    (s.produce c).Sound ∧ s.Runs (s.produce c) c := by
  cases hp : s.p c with
  | some op =>
    -- A CPU whose operation still waits produces nothing.
    rw [produce_of_waits hp]
    exact ⟨hs, Nat.le_refl _, fun hnone => absurd (hp.symm.trans hnone) (by simp)⟩
  | none =>
    obtain ⟨core, trace, next, hcall⟩ : ∃ core trace next,
        (s.core c).produceUntilBus s.seq s.arb.trace 16 = (core, trace, next) := ⟨_, _, _, rfl⟩
    have heq : s.produce c =
        { s with
          core := Function.update s.core c core
          arb := { s.arb with trace }
          seq := tickAdd s.seq 1
          p := Function.update s.p c next.op
          produced := Function.update s.produced c (s.produced c ++ next.op.toList) } := by
      rw [BiosRun.produce, hp, hcall]
    -- The call counts as many phases as it passes, so the two counters agree again.
    have hcounted := hs.counted c
    have hbehind := hcounted.executed
    have hbelow := hcounted.clock
    have hspec := (s.core c).produceUntilBus_call s.seq s.arb.trace 16 hbelow (by omega)
    have hclear := hs.ready.clear.produce (s.core c) s.seq 16
    rw [hcall] at hspec hclear
    obtain ⟨k, hk, hpassed, hall⟩ := hspec.passed
    rw [heq] at hclock ⊢
    simp only [Function.update_self] at hclock
    -- A call of sixteen rounds cannot run the clock around.
    have hfit : 2 * k < tickModulus := Nat.lt_of_le_of_lt (Nat.mul_le_mul_left 2 hk) (by decide)
    obtain ⟨hcounted', hexecuted⟩ := hpassed.counted hcounted hfit hclock
    simp only at hexecuted
    -- The other CPU is as it was.
    refine ⟨⟨⟨hclear, hs.ready.latency⟩, fun d => ?_, fun d => ?_, fun d op hop => ?_⟩, ?_, ?_⟩
    · by_cases hdc : d = c
      · simp only [hdc, Function.update_self]
        exact hcounted'
      · simp only [Function.update_of_ne hdc]
        exact hs.counted d
    · by_cases hdc : d = c
      · simp only [hdc, Function.update_self]
        exact hpassed.cpuId.trans (hs.cpuId c)
      · simp only [Function.update_of_ne hdc]
        exact hs.cpuId d
    · by_cases hdc : d = c
      · simp only [hdc, Function.update_self] at hop ⊢
        exact hspec.issues op hop
      · simp only [Function.update_of_ne hdc] at hop ⊢
        exact hs.issues d op hop
    · simp only [Function.update_self]
      omega
    · simp only [Function.update_self]
      intro hnone
      have := hall hnone
      omega

theorem Sound.publish (hs : s.Sound) : s.publish.Sound :=
  ⟨(hs.ready.updateProgress 0 _).updateProgress 1 _, hs.counted, hs.cpuId, hs.issues⟩

theorem prepare_core (s : BiosRun) (c : Fin 2) :
    s.prepare.core c = ((s.produce 0).produce 1).core c ∧
      s.prepare.p c = ((s.produce 0).produce 1).p c := ⟨rfl, rfl⟩

/-- Both cores have run up to an operation, or through their budget. -/
theorem Sound.prepare (hs : s.Sound) (hclock : ∀ c, (s.core c).t ≤ (s.prepare.core c).t) :
    s.prepare.Sound ∧ ∀ c, s.Runs s.prepare c := by
  have hother := (s.produce 0).produce_of_ne (show (0 : Fin 2) ≠ 1 by decide)
  have hother' := s.produce_of_ne (show (1 : Fin 2) ≠ 0 by decide)
  have hfirst : (s.core 0).t ≤ ((s.produce 0).core 0).t := by
    rw [← hother.1]
    exact hclock 0
  obtain ⟨hsound, hruns⟩ := hs.produce 0 hfirst
  have hsecond : ((s.produce 0).core 1).t ≤ (((s.produce 0).produce 1).core 1).t := by
    rw [hother'.1]
    exact hclock 1
  obtain ⟨hsound', hruns'⟩ := hsound.produce 1 hsecond
  refine ⟨hsound'.publish, fun c => ?_⟩
  match c with
  | 0 =>
    refine ⟨?_, fun hnone => ?_⟩
    · rw [(s.prepare_core 0).1, hother.1]
      exact hruns.executed
    · rw [(s.prepare_core 0).2, hother.2] at hnone
      rw [(s.prepare_core 0).1, hother.1]
      exact hruns.all hnone
  | 1 =>
    refine ⟨?_, fun hnone => ?_⟩
    · rw [← hother'.1]
      exact hruns'.executed
    · rw [← hother'.1]
      exact hruns'.all hnone

theorem Paired.prepare (h : s.Paired) : s.prepare.Paired :=
  paired_produce (paired_produce h 0) 1

/-! ### Committing -/

theorem mem_fetches {x : Fin 2 × BusOp} : x ∈ s.fetches ↔ s.p x.1 = some x.2 := by
  rw [fetches, List.mem_filterMap]
  constructor
  · rintro ⟨c, -, hc⟩
    obtain ⟨op, hop, rfl⟩ := Option.map_eq_some_iff.mp hc
    exact hop
  · intro h
    refine ⟨x.1, ?_, by rw [h]; rfl⟩
    match x.1 with
    | 0 => exact List.mem_cons_self
    | 1 => exact List.mem_cons_of_mem 0 List.mem_cons_self

theorem fetches_nodup (s : BiosRun) : (s.fetches.map (·.1)).Nodup := by
  cases h : s.p 0 <;> cases h' : s.p 1 <;> simp [fetches, h, h']

/-- The results of the batch with the cores they are for. -/
def answered (s : BiosRun) : List (Fin 2 × CommitResult) :=
  (s.arb.commitBatch (s.fetches.map (·.2))).2.map fun result =>
    ((s.fetches.getD result.inputIndex (0, {})).1, result)

/-- The entry of the batch that a result is of. -/
theorem fetches_result {result : CommitResult}
    (h : result ∈ (s.arb.commitBatch (s.fetches.map (·.2))).2) :
    s.fetches[result.inputIndex]? =
      some ((s.fetches.getD result.inputIndex (0, {})).1, result.op) := by
  have hget := BusArbiter.commitBatch_inputIndex s.arb _ result h
  rw [List.getElem?_map] at hget
  obtain ⟨⟨c, op⟩, hc, rfl⟩ := Option.map_eq_some_iff.mp hget
  rw [List.getD_eq_getElem?_getD, hc]
  rfl

theorem mem_answered {a : Fin 2 × CommitResult} (h : a ∈ s.answered) : s.p a.1 = some a.2.op := by
  obtain ⟨result, hresult, rfl⟩ := List.mem_map.mp h
  exact mem_fetches.mp (List.mem_of_getElem? (fetches_result hresult))

/-- No core is answered twice in one iteration. -/
theorem answered_nodup (s : BiosRun) : (s.answered.map (·.1)).Nodup := by
  have hindex := s.arb.commitBatch_index_nodup (s.fetches.map (·.2))
  rw [answered, List.map_map]
  refine List.Nodup.map_on (fun x hx y hy hxy => ?_) (List.Nodup.of_map _ hindex)
  have hgetx : (s.fetches.map (·.1))[x.inputIndex]? =
      some (s.fetches.getD x.inputIndex (0, {})).1 := by
    rw [List.getElem?_map, fetches_result hx]
    rfl
  have hgety : (s.fetches.map (·.1))[y.inputIndex]? =
      some (s.fetches.getD y.inputIndex (0, {})).1 := by
    rw [List.getElem?_map, fetches_result hy]
    rfl
  have hlt := (List.getElem?_eq_some_iff.mp hgetx).1
  refine List.inj_on_of_nodup_map hindex hx hy ?_
  exact (List.getElem?_inj hlt s.fetches_nodup).mp (by rw [hgetx, hgety]; exact congrArg some hxy)

def respondAll (s : BiosRun) (answers : List (Fin 2 × CommitResult)) : BiosRun :=
  answers.foldl (fun run a => run.respond a.1 a.2) s

theorem commit_eq (s : BiosRun) :
    s.commit =
      respondAll { s with arb := (s.arb.commitBatch (s.fetches.map (·.2))).1 } s.answered := by
  rw [respondAll, answered, List.foldl_map]
  rfl

/-- What two runs have of one core. -/
structure SameCore (s s' : BiosRun) (c : Fin 2) : Prop where
  core : s'.core c = s.core c
  p : s'.p c = s.p c
  produced : s'.produced c = s.produced c
  responded : s'.responded c = s.responded c

theorem SameCore.trans {s s' s'' : BiosRun} (h : SameCore s s' c) (h' : SameCore s' s'' c) :
    SameCore s s'' c :=
  ⟨h'.core.trans h.core, h'.p.trans h.p, h'.produced.trans h.produced,
    h'.responded.trans h.responded⟩

theorem respond_of_ne (s : BiosRun) (hne : d ≠ c) (result : CommitResult) :
    SameCore s (s.respond c result) d :=
  ⟨Function.update_of_ne hne _ _, Function.update_of_ne hne _ _, rfl,
    Function.update_of_ne hne _ _⟩

theorem respondAll_of_notMem {answers : List (Fin 2 × CommitResult)} (s : BiosRun)
    (h : c ∉ answers.map (·.1)) : SameCore s (s.respondAll answers) c := by
  induction answers generalizing s with
  | nil => exact ⟨rfl, rfl, rfl, rfl⟩
  | cons a answers ih =>
    rw [List.map_cons, List.mem_cons, not_or] at h
    exact (s.respond_of_ne h.1 a.2).trans (ih _ h.2)

/-- The core of an answer has taken the response and waits no longer. -/
structure Took (s s' : BiosRun) (a : Fin 2 × CommitResult) : Prop where
  core : ∃ trace, s'.core a.1 = ((s.core a.1).applyIfetchAndStep a.2.response trace).1
  p : s'.p a.1 = none
  produced : s'.produced a.1 = s.produced a.1
  responded : s'.responded a.1 = s.responded a.1 ++ [a.2.op]

theorem respondAll_of_mem {answers : List (Fin 2 × CommitResult)} (s : BiosRun)
    (hnodup : (answers.map (·.1)).Nodup) {a : Fin 2 × CommitResult} (h : a ∈ answers) :
    Took s (s.respondAll answers) a := by
  induction answers generalizing s with
  | nil => exact absurd h List.not_mem_nil
  | cons b answers ih =>
    rw [List.map_cons, List.nodup_cons] at hnodup
    rcases List.mem_cons.mp h with rfl | hmem
    · have hsame := respondAll_of_notMem (s.respond a.1 a.2) hnodup.1
      refine ⟨⟨s.arb.trace, hsame.core.trans (Function.update_self _ _ _)⟩,
        hsame.p.trans (Function.update_self _ _ _), hsame.produced,
        hsame.responded.trans (Function.update_self _ _ _)⟩
    · have hne : a.1 ≠ b.1 := fun heq => hnodup.1 (heq ▸ List.mem_map_of_mem hmem)
      have hsame := s.respond_of_ne hne b.2
      obtain ⟨⟨trace, hcore⟩, hp, hproduced, hresponded⟩ := ih (s.respond b.1 b.2) hnodup.2 hmem
      exact ⟨⟨trace, hcore.trans (by rw [hsame.core])⟩, hp, hproduced.trans hsame.produced,
        hresponded.trans (by rw [hsame.responded])⟩

theorem respondAll_ready {answers : List (Fin 2 × CommitResult)} (h : Ready s.arb) :
    Ready (s.respondAll answers).arb := by
  induction answers generalizing s with
  | nil => exact h
  | cons a answers ih =>
    exact ih ⟨h.clear.apply (s.core a.1) a.2.response, h.latency⟩

/-- A core is answered in an iteration, or the iteration leaves it alone. -/
theorem commit_core (s : BiosRun) (c : Fin 2) :
    (∃ a ∈ s.answered, a.1 = c ∧ Took s s.commit a) ∨ SameCore s s.commit c := by
  rw [commit_eq]
  by_cases h : c ∈ s.answered.map (·.1)
  · obtain ⟨a, ha, rfl⟩ := List.mem_map.mp h
    obtain ⟨hcore, hp, hproduced, hresponded⟩ := respondAll_of_mem
      { s with arb := (s.arb.commitBatch (s.fetches.map (·.2))).1 } s.answered_nodup ha
    exact Or.inl ⟨a, ha, rfl, hcore, hp, hproduced, hresponded⟩
  · obtain ⟨hcore, hp, hproduced, hresponded⟩ := respondAll_of_notMem
      { s with arb := (s.arb.commitBatch (s.fetches.map (·.2))).1 } h
    exact Or.inr ⟨hcore, hp, hproduced, hresponded⟩

theorem Paired.commit (h : s.Paired) : s.commit.Paired := by
  intro c
  rcases s.commit_core c with ⟨a, ha, rfl, htook⟩ | hsame
  · have hp := h a.1
    rw [mem_answered ha] at hp
    rw [htook.responded, htook.p, htook.produced, ← hp]
    simp
  · rw [hsame.responded, hsame.p, hsame.produced]
    exact h c

/-- A core that is answered retires once. -/
theorem Sound.commit (hs : s.Sound)
    (hclock : ∀ c, s.commit.p c ≠ s.p c → (s.core c).t < (s.commit.core c).t) :
    s.commit.Sound ∧ (∀ c, (s.core c).executed ≤ (s.commit.core c).executed) ∧
      ∀ a ∈ s.answered, (s.commit.core a.1).executed = (s.core a.1).executed + 1 := by
  -- an answered core's clock went up, so its response was taken and counts one instruction
  have htaken : ∀ a ∈ s.answered, Took s s.commit a → (s.commit.core a.1).Counted ∧
      (s.commit.core a.1).executed = (s.core a.1).executed + 1 ∧
      (s.commit.core a.1).cpuId = (s.core a.1).cpuId := by
    intro a ha htook
    have hlt := hclock a.1 (by rw [htook.p, mem_answered ha]; simp)
    obtain ⟨trace, hcore⟩ := htook.core
    rw [hcore] at hlt ⊢
    obtain ⟨hcounted, hexecuted⟩ := SH2Core.counted_response (hs.counted a.1) a.2.response trace hlt
    exact ⟨hcounted, hexecuted, (SH2Core.applyIfetchAndStep_frame _ _ _).1⟩
  refine ⟨⟨?_, fun c => ?_, fun c => ?_, fun c op hop => ?_⟩, fun c => ?_, fun a ha => ?_⟩
  · rw [commit_eq]
    exact respondAll_ready (hs.ready.batch _)
  · rcases s.commit_core c with ⟨a, ha, rfl, htook⟩ | hsame
    · exact (htaken a ha htook).1
    · rw [hsame.core]
      exact hs.counted c
  · rcases s.commit_core c with ⟨a, ha, rfl, htook⟩ | hsame
    · exact (htaken a ha htook).2.2.trans (hs.cpuId a.1)
    · rw [hsame.core]
      exact hs.cpuId c
  · rcases s.commit_core c with ⟨a, ha, rfl, htook⟩ | hsame
    · exact absurd (htook.p.symm.trans hop) (by simp)
    · rw [hsame.p] at hop
      rw [hsame.core]
      exact hs.issues c op hop
  · rcases s.commit_core c with ⟨a, ha, rfl, htook⟩ | hsame
    · have := (htaken a ha htook).2.1
      omega
    · exact Nat.le_of_eq (by rw [hsame.core])
  · rw [commit_eq] at htaken ⊢
    have htook := respondAll_of_mem
      { s with arb := (s.arb.commitBatch (s.fetches.map (·.2))).1 } s.answered_nodup ha
    exact (htaken a ha ⟨htook.core, htook.p, htook.produced, htook.responded⟩).2.1

end BiosRun

end Saturnis.Core
