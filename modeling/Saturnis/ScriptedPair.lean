/-
The single-threaded driver of two scripted CPUs.

A `ScriptedPair` holds the variables of `run_scripted_pair`; `iterate` is the
body of its loop.  The driver passes one trace to the arbiter and to the CPUs,
so a fault of a CPU goes to the trace of the arbiter.  `served` lists what the
driver has answered; nothing reads it.

* `commit_serves` — a commit of the driver grants or rejects one request after
  the other and answers each at once (`Serve`);
* `Sound` — a CPU whose request is pending stands right behind it; kept by
  everything the driver does.
-/
import Mathlib.Data.Fin.VecNotation
import Mathlib.Logic.Relation
import Saturnis.ArbiterRounds
import Saturnis.Loop
import Saturnis.ScriptedCpu

namespace Saturnis.Core

open Saturnis.Core Saturnis.Mem Saturnis.Dev Saturnis.Bus Saturnis.Cpu

/-- An entry of `pending_ops` with those of `pending_cpu`, `pending_script` and
`pending_token`. -/
abbrev Request := Fin 2 × PendingBusOp

/-- The pending operations, that of CPU 0 first. -/
def requestsOf (pending : Fin 2 → Option PendingBusOp) : List Request :=
  [0, 1].filterMap fun c => (pending c).map fun p => (c, p)

/-- The requests that were committed, with their responses. -/
def answers (requests : List Request) (committed : List CommitResult) :
    List (Request × BusResponse) :=
  committed.map fun result => (requests.getD result.inputIndex (0, {}), result.response)

/-- `produce`, unless the CPU has a pending operation or has finished. -/
def fetchCpu (cpu : ScriptedCPU) (pending : Option PendingBusOp) :
    ScriptedCPU × Option PendingBusOp :=
  if pending.isNone && !cpu.done then cpu.produce else (cpu, pending)

structure ScriptedPair where
  cpu : Fin 2 → ScriptedCPU
  arb : BusArbiter
  pending : Fin 2 → Option PendingBusOp := fun _ => none
  served : List (Request × BusResponse) := []

namespace ScriptedPair

/-- The CPUs as the drivers of the emulator construct them. -/
def start (script : Fin 2 → List ScriptOp) (arb : BusArbiter) : ScriptedPair :=
  { cpu := fun c => .make c.val (script c), arb }

def fetch (s : ScriptedPair) : ScriptedPair :=
  { s with
    cpu := fun c => (fetchCpu (s.cpu c) (s.pending c)).1
    pending := fun c => (fetchCpu (s.cpu c) (s.pending c)).2 }

/-- The watermark a CPU publishes. -/
def mark (s : ScriptedPair) (c : Fin 2) : Nat :=
  match s.pending c with
  | some p => tickAdd p.op.reqTime 1
  | none => (s.cpu c).localTime

def publish (s : ScriptedPair) : ScriptedPair :=
  { s with arb := (s.arb.updateProgress 0 (s.mark 0)).updateProgress 1 (s.mark 1) }

def finished (s : ScriptedPair) : Bool :=
  (s.pending 0).isNone && (s.pending 1).isNone && (s.cpu 0).done && (s.cpu 1).done

def answer (s : ScriptedPair) (request : Request) (response : BusResponse) : ScriptedPair :=
  let (cpu, fault) := (s.cpu request.1).applyResponse request.2.scriptIndex response
    request.2.op.producerToken
  { s with
    cpu := Function.update s.cpu request.1 cpu
    arb :=
      match fault with
      | none => s.arb
      | some event => { s.arb with trace := s.arb.trace.addFault event }
    pending := Function.update s.pending request.1 none
    served := s.served ++ [(request, response)] }

def commit (s : ScriptedPair) (requests : List Request) : ScriptedPair :=
  let (arb, committed) := s.arb.commitBatch (requests.map (·.2.op))
  (answers requests committed).foldl (fun s a => s.answer a.1 a.2) { s with arb }

/-- One round of the loop; the flag is set where it breaks. -/
def iterate (s : ScriptedPair) : ScriptedPair × Bool :=
  let s := s.fetch.publish
  if s.finished then (s, true)
  else if (requestsOf s.pending).isEmpty then (s, false)
  else (s.commit (requestsOf s.pending), false)

end ScriptedPair

/-- The driver, for at most `fuel` rounds. -/
def runScriptedPair (fuel : Nat) (s : ScriptedPair) : Option ScriptedPair :=
  Loop.run ScriptedPair.iterate fuel s

/-! ### Requests -/

theorem mem_requestsOf {pending : Fin 2 → Option PendingBusOp} {x : Request} :
    x ∈ requestsOf pending ↔ pending x.1 = some x.2 := by
  rw [requestsOf, List.mem_filterMap]
  constructor
  · rintro ⟨c, -, hc⟩
    obtain ⟨p, hp, rfl⟩ := Option.map_eq_some_iff.mp hc
    exact hp
  · intro h
    refine ⟨x.1, ?_, by rw [h]; rfl⟩
    match x.1 with
    | 0 => exact List.mem_cons_self
    | 1 => exact List.mem_cons_of_mem _ List.mem_cons_self

/-- The CPUs with a pending operation. -/
def requesters (pending : Fin 2 → Option PendingBusOp) : List (Fin 2) :=
  [0, 1].filter fun c => (pending c).isSome

theorem requesters_nodup (pending : Fin 2 → Option PendingBusOp) : (requesters pending).Nodup :=
  List.Nodup.filter _ (by decide)

theorem mem_requesters {pending : Fin 2 → Option PendingBusOp} {c : Fin 2} :
    c ∈ requesters pending ↔ (pending c).isSome = true := by
  rw [requesters, List.mem_filter]
  refine and_iff_right ?_
  match c with
  | 0 => exact List.mem_cons_self
  | 1 => exact List.mem_cons_of_mem _ List.mem_cons_self

theorem requestsOf_eq (pending : Fin 2 → Option PendingBusOp) :
    requestsOf pending = (requesters pending).map fun c => (c, (pending c).getD {}) := by
  rw [requestsOf, requesters]
  cases h0 : pending 0 <;> cases h1 : pending 1 <;> simp [h0, h1]

/-- The CPU a bus operation comes from. -/
def cpuOf (op : BusOp) : Fin 2 := if op.cpuId = 1 then 1 else 0

theorem cpuOf_eq {op : BusOp} {c : Fin 2} (h : op.cpuId = c.val) : cpuOf op = c := by
  rw [cpuOf, h]
  match c with
  | 0 => rfl
  | 1 => rfl

theorem producerSlot_eq {op : BusOp} {c : Fin 2} (h : op.cpuId = c.val)
    (hauto : op.producer = .auto) : producerSlot op = c.castSucc := by
  rw [producerSlot, BusOp.isDma, hauto, h]
  match c with
  | 0 => rfl
  | 1 => rfl

/-- The operation of a CPU for each of the CPUs `cs`. -/
structure Attributed (cs : List (Fin 2)) (ask : Fin 2 → PendingBusOp) : Prop where
  nodup : cs.Nodup
  cpuId : ∀ c ∈ cs, (ask c).op.cpuId = c.val
  producer : ∀ c ∈ cs, (ask c).op.producer = .auto

namespace Attributed

variable {cs : List (Fin 2)} {ask : Fin 2 → PendingBusOp}

theorem cpuOf_ask (h : Attributed cs ask) {c : Fin 2} (hc : c ∈ cs) : cpuOf (ask c).op = c :=
  cpuOf_eq (h.cpuId c hc)

theorem producerSlot_ask (h : Attributed cs ask) {c : Fin 2} (hc : c ∈ cs) :
    producerSlot (ask c).op = c.castSucc :=
  producerSlot_eq (h.cpuId c hc) (h.producer c hc)

theorem sublist {cs' : List (Fin 2)} (h : Attributed cs ask) (hsub : cs'.Sublist cs) :
    Attributed cs' ask :=
  ⟨h.nodup.sublist hsub, fun c hc => h.cpuId c (hsub.subset hc),
    fun c hc => h.producer c (hsub.subset hc)⟩

theorem slots (h : Attributed cs ask) :
    (cs.map fun c => (ask c).op).Pairwise fun x y => producerSlot x ≠ producerSlot y := by
  refine List.pairwise_map.mpr (h.nodup.imp_of_mem fun {c d} hc hd hne heq => hne ?_)
  rw [h.producerSlot_ask hc, h.producerSlot_ask hd] at heq
  exact Fin.castSucc_injective 2 heq

theorem ops_nodup (h : Attributed cs ask) : (cs.map fun c => (ask c).op).Nodup :=
  h.slots.imp fun {x y} hne heq => hne (by rw [heq])

theorem ordered (h : Attributed cs ask) :
    (cs.map fun c => (ask c).op).Pairwise fun x y =>
      producerSlot x = producerSlot y → x.reqTime ≤ y.reqTime :=
  h.slots.imp fun {_ _} hne heq => absurd heq hne

/-- The answers go to the CPUs the operations come from. -/
theorem answers_eq (h : Attributed cs ask) (arb : BusArbiter) :
    answers (cs.map fun c => (c, ask c)) (arb.commitBatch (cs.map fun c => (ask c).op)).2 =
      (BusArbiter.rounds cs.length arb (cs.map fun c => (ask c).op)).2.map fun r =>
        ((cpuOf r.1, ask (cpuOf r.1)), r.2) := by
  have hres := (BusArbiter.commitBatch_eq_rounds_of_ordered arb h.ordered h.ops_nodup).2
  rw [List.length_map] at hres
  rw [← hres, List.map_map, answers]
  refine List.map_congr_left fun r hr => ?_
  have hget := BusArbiter.commitBatch_inputIndex arb _ r hr
  rw [List.getElem?_map] at hget
  obtain ⟨c, hc, hop⟩ := Option.map_eq_some_iff.mp hget
  have hcpu : cpuOf r.op = c := by rw [← hop, h.cpuOf_ask (List.mem_of_getElem? hc)]
  have hreq : (cs.map fun c => (c, ask c)).getD r.inputIndex (0, {}) = (c, ask c) := by
    rw [List.getD_eq_getElem?_getD, List.getElem?_map, hc]
    rfl
  rw [hreq, Function.comp, hcpu]

end Attributed

namespace Attributed

variable {cs : List (Fin 2)} {ask : Fin 2 → PendingBusOp}

/-- Committing the operation of `c` leaves those of the other CPUs. -/
theorem erase_ask (h : Attributed cs ask) {c : Fin 2} (hc : c ∈ cs) :
    (cs.map fun d => (ask d).op).erase (ask c).op = (cs.erase c).map fun d => (ask d).op := by
  rw [h.ops_nodup.erase_eq_filter, h.nodup.erase_eq_filter, List.filter_map]
  refine congrArg _ (List.filter_congr fun d hd => ?_)
  rw [Bool.eq_iff_iff, Function.comp, bne_iff_ne, bne_iff_ne]
  refine not_congr ⟨fun heq => ?_, fun heq => by rw [heq]⟩
  rw [← h.cpuOf_ask hd, heq, h.cpuOf_ask hc]

end Attributed

/-! ### What `fetch` does -/

@[simp] theorem fetchCpu_some (cpu : ScriptedCPU) (p : PendingBusOp) :
    fetchCpu cpu (some p) = (cpu, some p) := rfl

/-- `produce` on a finished CPU does nothing. -/
@[simp] theorem fetchCpu_none (cpu : ScriptedCPU) : fetchCpu cpu none = cpu.produce := by
  rw [fetchCpu]
  cases h : cpu.done with
  | true => rw [ScriptedCPU.produce_of_done h]; rfl
  | false => rfl

theorem fetchCpu_done {cpu : ScriptedCPU} {pending : Option PendingBusOp}
    (h : (fetchCpu cpu pending).2 = none) : (fetchCpu cpu pending).1.done = true := by
  cases pending with
  | none =>
    rw [fetchCpu_none] at h ⊢
    exact ScriptedCPU.produce_done h
  | some p => exact absurd h (by simp)

theorem fetchCpu_fetchCpu (cpu : ScriptedCPU) (pending : Option PendingBusOp) :
    fetchCpu (fetchCpu cpu pending).1 (fetchCpu cpu pending).2 = fetchCpu cpu pending := by
  cases h : (fetchCpu cpu pending).2 with
  | none =>
    rw [fetchCpu_none, ScriptedCPU.produce_of_done (fetchCpu_done h), ← h]
  | some p => rw [fetchCpu_some, ← h]

namespace ScriptedPair

variable {s s' : ScriptedPair} {c : Fin 2} {p : PendingBusOp} {tie : Bool}

theorem fetch_fetch (s : ScriptedPair) : s.fetch.fetch = s.fetch := by
  simp only [fetch, fetchCpu_fetchCpu]

/-! ### Pending operations -/

/-- The CPUs are numbered, their caches have lines of 16 bytes, and a CPU whose
operation is pending stands right behind it. -/
structure Sound (s : ScriptedPair) : Prop where
  cpuId : ∀ c, (s.cpu c).cpuId = c.val
  lineSize : ∀ c, (s.cpu c).cache.lineSize = 16
  outstanding : ∀ c p, s.pending c = some p → (s.cpu c).Outstanding p

theorem sound_start (script : Fin 2 → List ScriptOp) (arb : BusArbiter) :
    (start script arb).Sound :=
  ⟨fun _ => rfl, fun _ => rfl, fun _ _ h => absurd h (by simp [start])⟩

theorem Sound.fetch (hs : s.Sound) : s.fetch.Sound := by
  refine ⟨fun c => ?_, fun c => ?_, fun c p => ?_⟩
  · change (fetchCpu (s.cpu c) (s.pending c)).1.cpuId = _
    cases hp : s.pending c with
    | none => rw [fetchCpu_none, (s.cpu c).produce_keeps.1, hs.cpuId]
    | some p => exact hs.cpuId c
  · change (fetchCpu (s.cpu c) (s.pending c)).1.cache.lineSize = _
    cases hp : s.pending c with
    | none => rw [fetchCpu_none, (s.cpu c).produce_keeps.2.2, hs.lineSize]
    | some p => exact hs.lineSize c
  · change (fetchCpu (s.cpu c) (s.pending c)).2 = some p →
      (fetchCpu (s.cpu c) (s.pending c)).1.Outstanding p
    cases hp : s.pending c with
    | none =>
      rw [fetchCpu_none]
      exact ScriptedCPU.produce_outstanding
    | some q =>
      intro heq
      exact hs.outstanding c p (hp.trans heq)

theorem Sound.producerSlot (hs : s.Sound) (h : s.pending c = some p) :
    producerSlot p.op = c.castSucc :=
  producerSlot_eq ((hs.outstanding c p h).cpuId.trans (hs.cpuId c)) (hs.outstanding c p h).producer

theorem Sound.attributed (hs : s.Sound) :
    Attributed (requesters s.pending) fun c => (s.pending c).getD {} := by
  have hout : ∀ c ∈ requesters s.pending, (s.cpu c).Outstanding ((s.pending c).getD {}) := by
    intro c hc
    obtain ⟨p, hp⟩ := Option.isSome_iff_exists.mp (mem_requesters.mp hc)
    rw [hp]
    exact hs.outstanding c p hp
  exact ⟨requesters_nodup _, fun c hc => (hout c hc).cpuId.trans (hs.cpuId c),
    fun c hc => (hout c hc).producer⟩

/-! ### Answers -/

theorem answer_pending (s : ScriptedPair) (x : Request) (response : BusResponse) :
    (s.answer x response).pending = Function.update s.pending x.1 none := rfl

theorem answer_cpu (s : ScriptedPair) (x : Request) (response : BusResponse) :
    (s.answer x response).cpu = Function.update s.cpu x.1
      ((s.cpu x.1).applyResponse x.2.scriptIndex response x.2.op.producerToken).1 := rfl

theorem answer_served (s : ScriptedPair) (x : Request) (response : BusResponse) :
    (s.answer x response).served = s.served ++ [(x, response)] := rfl

theorem Sound.answer (hs : s.Sound) (x : Request) (response : BusResponse) :
    (s.answer x response).Sound := by
  have hans := (s.cpu x.1).applyResponse_answered x.2.scriptIndex response x.2.op.producerToken
  refine ⟨fun c => ?_, fun c => ?_, fun c p hp => ?_⟩
  · rw [answer_cpu]
    by_cases hc : c = x.1
    · rw [hc, Function.update_self, hans.cpuId, hs.cpuId]
    · rw [Function.update_of_ne hc, hs.cpuId]
  · rw [answer_cpu]
    by_cases hc : c = x.1
    · rw [hc, Function.update_self, hans.lineSize, hs.lineSize]
    · rw [Function.update_of_ne hc, hs.lineSize]
  · rw [answer_pending] at hp
    rw [answer_cpu]
    by_cases hc : c = x.1
    · rw [hc, Function.update_self] at hp
      exact absurd hp (by simp)
    · rw [Function.update_of_ne hc] at hp ⊢
      exact hs.outstanding c p hp

/-- The arbiter executes the pending operation and the driver answers it. -/
def serve (s : ScriptedPair) (c : Fin 2) (p : PendingBusOp) (tie : Bool) : ScriptedPair :=
  { s with arb := (s.arb.executeCommit p.op tie).1 }.answer (c, p)
    (s.arb.executeCommit p.op tie).2

/-- One answer, or a change of the enqueue bookkeeping. -/
inductive Serve : ScriptedPair → ScriptedPair → Prop
  | serve {s : ScriptedPair} (c : Fin 2) (p : PendingBusOp) (tie : Bool)
      (h : s.pending c = some p) : Serve s (s.serve c p tie)
  | note {s : ScriptedPair} (arb : BusArbiter) (h : arb.resetEnqueued = s.arb.resetEnqueued) :
      Serve s { s with arb }

abbrev Serves : ScriptedPair → ScriptedPair → Prop := Relation.ReflTransGen Serve

theorem answer_of_no_fault {x : Request} {response : BusResponse}
    (h : ((s.cpu x.1).applyResponse x.2.scriptIndex response x.2.op.producerToken).2 = none)
    (arb : BusArbiter) :
    { s with arb }.answer x response =
      { s with
        cpu := Function.update s.cpu x.1
          ((s.cpu x.1).applyResponse x.2.scriptIndex response x.2.op.producerToken).1
        arb
        pending := Function.update s.pending x.1 none
        served := s.served ++ [(x, response)] } := by
  simp only [answer, h]

theorem Sound.answer_eq (hs : s.Sound) (h : s.pending c = some p) (a arb : BusArbiter)
    (tie : Bool) :
    { s with arb }.answer (c, p) (a.executeCommit p.op tie).2 =
      { s.answer (c, p) (a.executeCommit p.op tie).2 with arb } := by
  have hfault := (hs.outstanding c p h).no_fault (hs.lineSize c) a tie p.op.producerToken
  rw [answer_of_no_fault hfault arb]
  rfl

theorem Sound.serve_arb (hs : s.Sound) (h : s.pending c = some p) (tie : Bool) :
    (s.serve c p tie).arb = (s.arb.executeCommit p.op tie).1 := by
  rw [serve, hs.answer_eq h]

theorem Sound.serve (hs : s.Sound) (c : Fin 2) (p : PendingBusOp) (tie : Bool) :
    (s.serve c p tie).Sound :=
  Sound.answer (s := { s with arb := (s.arb.executeCommit p.op tie).1 })
    ⟨hs.cpuId, hs.lineSize, hs.outstanding⟩ _ _

theorem Serve.sound (h : Serve s s') (hs : s.Sound) : s'.Sound := by
  cases h with
  | serve c p tie _ => exact hs.serve c p tie
  | note arb _ => exact ⟨hs.cpuId, hs.lineSize, hs.outstanding⟩

theorem Serves.sound (h : Serves s s') (hs : s.Sound) : s'.Sound := by
  induction h with
  | refl => exact hs
  | tail _ hstep ih => exact hstep.sound ih

/-- The rounds of a batch serve one CPU after the other. -/
theorem serves_rounds (n : Nat) {cs : List (Fin 2)} {ask : Fin 2 → PendingBusOp} (hs : s.Sound)
    (hask : ∀ c ∈ cs, s.pending c = some (ask c)) (hatt : Attributed cs ask) {arb : BusArbiter}
    (harb : arb.resetEnqueued =
      (BusArbiter.rounds n s.arb (cs.map fun c => (ask c).op)).1.resetEnqueued) :
    Serves s
      ((BusArbiter.rounds n s.arb (cs.map fun c => (ask c).op)).2.foldl
        (fun s r => s.answer (cpuOf r.1, ask (cpuOf r.1)) r.2) { s with arb }) := by
  induction n generalizing s cs with
  | zero => exact .single (.note arb harb)
  | succ n ih =>
    cases hround : s.arb.opRound (cs.map fun c => (ask c).op) with
    | none =>
      rw [BusArbiter.rounds_of_none hround] at harb ⊢
      exact .single (.note arb harb)
    | some round =>
      obtain ⟨w, tie⟩ := round
      obtain ⟨c, hc, rfl⟩ := List.mem_map.mp (BusArbiter.mem_candidates.mp
        (BusArbiter.choice_mem (BusArbiter.opRound_eq_some.mp hround).2.1)).1
      have hserve := hs.serve_arb (hask c hc) tie
      have hask' : ∀ d ∈ cs.erase c, (s.serve c (ask c) tie).pending d = some (ask d) := by
        intro d hd
        have hne : d ≠ c := ((hatt.nodup.mem_erase_iff).mp hd).1
        rw [ScriptedPair.serve, answer_pending, Function.update_of_ne hne]
        exact hask d (List.mem_of_mem_erase hd)
      rw [BusArbiter.rounds_of_some hround, hatt.erase_ask hc] at harb ⊢
      rw [List.foldl_cons]
      simp only [hatt.cpuOf_ask hc]
      rw [hs.answer_eq (hask c hc)]
      refine .head (.serve c (ask c) tie (hask c hc)) ?_
      rw [← hserve] at harb ⊢
      exact ih (hs.serve c (ask c) tie) hask' (hatt.sublist List.erase_sublist) harb

theorem pending_eq {c : Fin 2} (hc : c ∈ requesters s.pending) :
    s.pending c = some ((s.pending c).getD {}) := by
  obtain ⟨p, hp⟩ := Option.isSome_iff_exists.mp (mem_requesters.mp hc)
  rw [hp]
  rfl

/-- The bus operations of the requesters. -/
def pendingOps (s : ScriptedPair) : List BusOp :=
  (requesters s.pending).map fun c => ((s.pending c).getD {}).op

theorem requestsOf_ops (s : ScriptedPair) :
    (requestsOf s.pending).map (·.2.op) = s.pendingOps := by
  rw [requestsOf_eq, List.map_map]
  rfl

theorem Sound.commit_eq (hs : s.Sound) :
    s.commit (requestsOf s.pending) =
      (BusArbiter.rounds (requesters s.pending).length s.arb s.pendingOps).2.foldl
        (fun t r => t.answer (cpuOf r.1, (s.pending (cpuOf r.1)).getD {}) r.2)
        { s with arb := (s.arb.commitBatch s.pendingOps).1 } := by
  simp only [commit]
  rw [requestsOf_ops, requestsOf_eq, pendingOps, hs.attributed.answers_eq, List.foldl_map]

theorem Sound.commit_arb (hs : s.Sound) :
    (s.arb.commitBatch s.pendingOps).1.resetEnqueued =
      (BusArbiter.rounds (requesters s.pending).length s.arb s.pendingOps).1.resetEnqueued := by
  have harb := (BusArbiter.commitBatch_eq_rounds_of_ordered s.arb hs.attributed.ordered
    hs.attributed.ops_nodup).1
  rwa [List.length_map] at harb

/-- **A commit of the driver serves pending operations one after the other.** -/
theorem commit_serves (hs : s.Sound) : Serves s (s.commit (requestsOf s.pending)) := by
  rw [hs.commit_eq]
  exact serves_rounds _ hs (fun c hc => pending_eq hc) hs.attributed hs.commit_arb

/-- Where the arbiter finds nothing to commit nothing is served. -/
theorem Sound.commit_of_none (hs : s.Sound) (h : s.arb.opRound s.pendingOps = none) :
    ∃ arb : BusArbiter, arb.resetEnqueued = s.arb.resetEnqueued ∧
      s.commit (requestsOf s.pending) = { s with arb } := by
  have harb := hs.commit_arb
  rw [BusArbiter.rounds_of_none h] at harb
  refine ⟨_, harb, ?_⟩
  rw [hs.commit_eq, BusArbiter.rounds_of_none h]
  rfl

/-! ### A commit, field by field -/

/-- What the arbiter commits of the pending operations. -/
def results (s : ScriptedPair) : List (BusOp × BusResponse) :=
  (BusArbiter.rounds (requesters s.pending).length s.arb s.pendingOps).2

/-- The CPU of a result once it has its response. -/
def answeredCpu (s : ScriptedPair) (c : Fin 2) (response : BusResponse) : ScriptedCPU :=
  ((s.cpu c).applyResponse ((s.pending c).getD {}).scriptIndex response
    ((s.pending c).getD {}).op.producerToken).1

theorem foldl_answer (l : List (BusOp × BusResponse)) (ask : Fin 2 → PendingBusOp)
    (s : ScriptedPair) (hnodup : (l.map fun r => cpuOf r.1).Nodup)
    (hfault : ∀ r ∈ l, ((s.cpu (cpuOf r.1)).applyResponse (ask (cpuOf r.1)).scriptIndex r.2
      (ask (cpuOf r.1)).op.producerToken).2 = none) :
    (l.foldl (fun t r => t.answer (cpuOf r.1, ask (cpuOf r.1)) r.2) s).arb = s.arb ∧
      (∀ r ∈ l, (l.foldl (fun t r => t.answer (cpuOf r.1, ask (cpuOf r.1)) r.2) s).cpu (cpuOf r.1) =
          ((s.cpu (cpuOf r.1)).applyResponse (ask (cpuOf r.1)).scriptIndex r.2
            (ask (cpuOf r.1)).op.producerToken).1 ∧
        (l.foldl (fun t r => t.answer (cpuOf r.1, ask (cpuOf r.1)) r.2) s).pending (cpuOf r.1) =
          none) ∧
      ∀ c, (∀ r ∈ l, cpuOf r.1 ≠ c) →
        (l.foldl (fun t r => t.answer (cpuOf r.1, ask (cpuOf r.1)) r.2) s).cpu c = s.cpu c ∧
        (l.foldl (fun t r => t.answer (cpuOf r.1, ask (cpuOf r.1)) r.2) s).pending c =
          s.pending c := by
  induction l generalizing s with
  | nil => exact ⟨rfl, by simp, fun c _ => ⟨rfl, rfl⟩⟩
  | cons r l ih =>
    rw [List.map_cons, List.nodup_cons] at hnodup
    have hne : ∀ x ∈ l, cpuOf x.1 ≠ cpuOf r.1 := fun x hx heq =>
      hnodup.1 (List.mem_map.mpr ⟨x, hx, heq⟩)
    have hcpu : ∀ c, c ≠ cpuOf r.1 →
        (s.answer (cpuOf r.1, ask (cpuOf r.1)) r.2).cpu c = s.cpu c ∧
          (s.answer (cpuOf r.1, ask (cpuOf r.1)) r.2).pending c = s.pending c := fun c hc =>
      ⟨by rw [answer_cpu, Function.update_of_ne hc], by
        rw [answer_pending, Function.update_of_ne hc]⟩
    -- the later answers are for the other core, so the faults they would raise are those of `s`
    obtain ⟨harb, hmem, hother⟩ := ih (s.answer (cpuOf r.1, ask (cpuOf r.1)) r.2) hnodup.2
      fun x hx => by
        rw [(hcpu _ (hne x hx)).1]
        exact hfault x (List.mem_cons_of_mem r hx)
    rw [List.foldl_cons]
    refine ⟨harb.trans ?_, fun x hx => ?_, fun c hc => ?_⟩
    · have hanswer := answer_of_no_fault (x := (cpuOf r.1, ask (cpuOf r.1)))
        (hfault r List.mem_cons_self) s.arb
      exact (congrArg ScriptedPair.arb hanswer :)
    · -- the first answer survives the later ones, which go to another core
      rcases List.mem_cons.mp hx with rfl | hx
      · obtain ⟨hc, hp⟩ := hother _ hne
        rw [hc, hp, answer_cpu, answer_pending, Function.update_self, Function.update_self]
        exact ⟨rfl, rfl⟩
      · rw [← (hcpu _ (hne x hx)).1]
        exact hmem x hx
    · obtain ⟨hc', hp'⟩ := hother c fun x hx => hc x (List.mem_cons_of_mem r hx)
      have hrc : c ≠ cpuOf r.1 := fun heq => hc r List.mem_cons_self heq.symm
      rw [hc', hp']
      exact hcpu c hrc

theorem foldl_answer_served (l : List (BusOp × BusResponse)) (ask : Fin 2 → PendingBusOp)
    (s : ScriptedPair) :
    (l.foldl (fun t r => t.answer (cpuOf r.1, ask (cpuOf r.1)) r.2) s).served =
      s.served ++ l.map fun r => ((cpuOf r.1, ask (cpuOf r.1)), r.2) := by
  induction l generalizing s with
  | nil => exact (List.append_nil _).symm
  | cons r l ih =>
    rw [List.foldl_cons, ih, answer_served, List.map_cons, List.append_assoc]
    rfl

/-- A result answers a pending operation. -/
theorem Sound.results_mem (hs : s.Sound) {r : BusOp × BusResponse} (hr : r ∈ s.results) :
    s.pending (cpuOf r.1) = some ((s.pending (cpuOf r.1)).getD {}) ∧
      r.1 = ((s.pending (cpuOf r.1)).getD {}).op ∧
      ∃ (a : BusArbiter) (tie : Bool), r.2 = (a.executeCommit r.1 tie).2 := by
  obtain ⟨hmem, hresp⟩ := BusArbiter.rounds_result _ _ _ r hr
  obtain ⟨c, hc, heq⟩ := List.mem_map.mp hmem
  have hcpu : cpuOf r.1 = c := by
    rw [← heq]
    exact hs.attributed.cpuOf_ask hc
  rw [hcpu]
  exact ⟨pending_eq hc, heq.symm, hresp⟩

theorem Sound.results_nodup (hs : s.Sound) : (s.results.map fun r => cpuOf r.1).Nodup := by
  have hops := BusArbiter.rounds_nodup (requesters s.pending).length s.arb
    hs.attributed.ops_nodup
  refine List.pairwise_map.mpr ((List.pairwise_map.mp hops).imp_of_mem fun {x y} hx hy hne heq => ?_)
  have hop := (hs.results_mem hx).2.1
  rw [heq] at hop
  exact hne (hop.trans (hs.results_mem hy).2.1.symm)

/-- What the arbiter answers fits the operation it was asked for, so no
answer of a batch ends in a fault. -/
theorem Sound.results_no_fault (hs : s.Sound) {r : BusOp × BusResponse} (hr : r ∈ s.results) :
    ((s.cpu (cpuOf r.1)).applyResponse ((s.pending (cpuOf r.1)).getD {}).scriptIndex r.2
      ((s.pending (cpuOf r.1)).getD {}).op.producerToken).2 = none := by
  obtain ⟨hp, hop, a, tie, hresp⟩ := hs.results_mem hr
  rw [hresp, congrArg (a.executeCommit · tie) hop]
  exact (hs.outstanding _ _ hp).no_fault (hs.lineSize _) a tie _

/-- **A commit, field by field.** -/
theorem Sound.commit_spec (hs : s.Sound) :
    (s.commit (requestsOf s.pending)).arb.resetEnqueued =
        (BusArbiter.rounds (requesters s.pending).length s.arb s.pendingOps).1.resetEnqueued ∧
      (s.commit (requestsOf s.pending)).served =
        s.served ++ s.results.map (fun r =>
          ((cpuOf r.1, (s.pending (cpuOf r.1)).getD {}), r.2)) ∧
      (∀ r ∈ s.results,
        (s.commit (requestsOf s.pending)).cpu (cpuOf r.1) = s.answeredCpu (cpuOf r.1) r.2 ∧
        (s.commit (requestsOf s.pending)).pending (cpuOf r.1) = none) ∧
      ∀ c, (∀ r ∈ s.results, cpuOf r.1 ≠ c) →
        (s.commit (requestsOf s.pending)).cpu c = s.cpu c ∧
        (s.commit (requestsOf s.pending)).pending c = s.pending c := by
  obtain ⟨harb, hmem, hother⟩ := foldl_answer s.results (fun c => (s.pending c).getD {})
    { s with arb := (s.arb.commitBatch s.pendingOps).1 } hs.results_nodup
    fun r hr => hs.results_no_fault hr
  have hserved := foldl_answer_served s.results (fun c => (s.pending c).getD {})
    { s with arb := (s.arb.commitBatch s.pendingOps).1 }
  rw [hs.commit_eq]
  refine ⟨?_, hserved, hmem, hother⟩
  rw [← hs.commit_arb]
  exact congrArg BusArbiter.resetEnqueued harb

/-- With a candidate, and unless the trace is halted, something is served. -/
theorem Sound.commit_served (hs : s.Sound) (h : s.arb.candidates s.pendingOps ≠ [])
    (hhalt : s.arb.trace.shouldHalt = false) :
    s.served.length < (s.commit (requestsOf s.pending)).served.length := by
  have hpos : 0 < (BusArbiter.rounds (requesters s.pending).length s.arb s.pendingOps).2.length := by
    cases hround : s.arb.opRound s.pendingOps with
    | none =>
      rcases BusArbiter.opRound_eq_none.mp hround with hhalt' | hnil
      · exact absurd (hhalt.symm.trans hhalt') Bool.false_ne_true
      · exact absurd hnil h
    | some round =>
      obtain ⟨w, tie⟩ := round
      have hmem : w ∈ s.pendingOps :=
        (BusArbiter.mem_candidates.mp
          (BusArbiter.choice_mem (BusArbiter.opRound_eq_some.mp hround).2.1)).1
      have hlen : (requesters s.pending).length = (requesters s.pending).length - 1 + 1 := by
        have := List.length_pos_of_mem hmem
        rw [pendingOps, List.length_map] at this
        omega
      rw [hlen, BusArbiter.rounds_of_some hround, List.length_cons]
      exact Nat.succ_pos _
  rw [hs.commit_spec.2.1, List.length_append, List.length_map]
  exact Nat.lt_add_of_pos_right hpos

end ScriptedPair

end Saturnis.Core
