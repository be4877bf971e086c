/-
What equal trace texts tell.

The text of a log leaves some members of its events out.  With what it shows of an
event (`TraceEvent.shown`) two logs have one text exactly when they show the same
events, and that is enough to tell what has been done to memory and devices: the
data of a write is the value it is answered with.

* `TraceEvent.line_inj` — one line;
* `toJsonl_eq_iff` — **the text of a log is what it shows**;
* `runCalls_of_toJsonl` — **runs with one text** leave one memory, and one hub.
-/
import Saturnis.BiosReplay
import Saturnis.TraceText
import Saturnis.Weave

namespace Saturnis.Bus

/-- What a line shows of an operation. -/
def BusOp.shown (op : BusOp) : BusOp :=
  { cpuId := op.cpuId, kind := op.kind, physAddr := op.physAddr, size := op.size,
    producer := if op.isDma then .dma else .cpu }

theorem BusOp.shown_isDma (op : BusOp) : op.shown.isDma = op.isDma := by
  rw [BusOp.isDma, BusOp.shown]
  cases op.isDma <;> rfl

theorem kindName_injective : Function.Injective kindName := by
  intro kind kind' h
  cases kind <;> cases kind' <;> first | rfl | exact absurd h (by decide)

theorem ownerName_inj {op op' : BusOp} (h : ownerName op = ownerName op') : op.isDma = op'.isDma := by
  rw [ownerName, ownerName] at h
  cases hdma : op.isDma <;> cases hdma' : op'.isDma <;> simp_all

end Saturnis.Bus

namespace Saturnis.Core

open Saturnis.Bus Saturnis.Mem Saturnis.Python Saturnis.Replay Weave

/-! ### Numbers -/

theorem decimal_injective : Function.Injective decimal := by
  intro a b h
  have hread := congrArg (fun text => Nat.ofDigitChars 10 text 0) h
  simpa only [decimal, Nat.ofDigitChars_ten_toDigits] using hread

theorem signedDecimal_injective : Function.Injective signedDecimal := by
  have hminus : ∀ n : Nat, '-' ∉ decimal n := fun n hmem =>
    absurd (isDigit_of_mem_decimal hmem) (by decide)
  intro a b h
  rw [signedDecimal, signedDecimal] at h
  split_ifs at h with ha hb hb
  · have := decimal_injective (List.cons.inj h).2
    omega
  · exact absurd (h ▸ List.mem_cons_self) (hminus _)
  · exact absurd (h ▸ List.mem_cons_self) (hminus _)
  · have := decimal_injective h
    omega

theorem not_mem_decimal {c : Char} (hc : c.isDigit = false) (n : Nat) : c ∉ decimal n := by
  intro hmem
  simp [isDigit_of_mem_decimal hmem] at hc

theorem not_mem_signedDecimal {c : Char} (hc : c.isDigit = false) (hminus : c ≠ '-') (x : Int) :
    c ∉ signedDecimal x := by
  intro hmem
  rw [signedDecimal] at hmem
  split_ifs at hmem
  · exact not_mem_decimal hc _ (List.mem_of_ne_of_mem hminus hmem)
  · exact not_mem_decimal hc _ hmem

/-! ### Lines as words and values -/

namespace CommitEvent

/-- What the text shows of a COMMIT record. -/
def shown (e : CommitEvent) : CommitEvent := { e with op := e.op.shown }

def values (e : CommitEvent) : List (List Char) :=
  [decimal e.tStart, decimal e.tEnd, decimal e.stall, signedDecimal e.op.cpuId,
    (kindName e.op.kind).toList, decimal e.op.physAddr.toNat, decimal e.op.size,
    decimal e.value.toNat, (sourceName e.op).toList, (ownerName e.op).toList,
    (provenanceTag e.op).toList, (if e.cacheHit then "true" else "false").toList]

def words : List (List Char) :=
  [",\"t_end\":", ",\"stall\":", ",\"cpu\":", ",\"kind\":\"", "\",\"phys\":", ",\"size\":",
    ",\"val\":", ",\"src\":\"", "\",\"owner\":\"", "\",\"tag\":\"", "\",\"cache_hit\":",
    "\x7d"].map String.toList

theorem payload_eq (e : CommitEvent) :
    e.payload = "\x7b\"t_start\":".toList ++ weave e.values words := by
  unfold payload values words
  simp only [List.map_cons, List.map_nil, weave, List.append_assoc, List.append_nil]

theorem ends (e : CommitEvent) : List.Forall₂ Ends e.values words := by
  have hkind : '"' ∉ (kindName e.op.kind).toList := by cases e.op.kind <;> decide
  have hsource : '"' ∉ (sourceName e.op).toList := by
    rw [sourceName]
    split
    · decide
    · cases e.op.kind <;> decide
  have howner : '"' ∉ (ownerName e.op).toList := by
    rw [ownerName]
    split <;> decide
  have htag : '"' ∉ (provenanceTag e.op).toList := by
    rw [provenanceTag]
    split <;> decide
  have hhit : '}' ∉ (if e.cacheHit then "true" else "false").toList := by
    cases e.cacheHit <;> decide
  have hcomma : ∀ n : Nat, ',' ∉ decimal n := not_mem_decimal (by decide)
  have hstops : words.map List.head? =
      [',', ',', ',', ',', '"', ',', ',', ',', '"', '"', '"', '\x7d'].map some := by decide
  refine ends_of_stops hstops ?_
  simp only [values, List.forall₂_cons, List.forall₂_nil_left_iff, and_true]
  exact ⟨hcomma _, hcomma _, hcomma _, not_mem_signedDecimal (by decide) (by decide) _, hkind,
    hcomma _, hcomma _, hcomma _, hsource, howner, htag, hhit⟩

theorem payload_inj {e e' : CommitEvent} (h : e.payload = e'.payload) : e.shown = e'.shown := by
  rw [payload_eq, payload_eq] at h
  have hweave := List.append_cancel_left h
  rw [← List.append_nil (weave e.values words), ← List.append_nil (weave e'.values words)] at hweave
  have hvalues := (weave_inj e.ends e'.ends hweave).1
  simp only [values, List.cons.injEq, and_true] at hvalues
  obtain ⟨hstart, hend, hstall, hcpu, hkind, hphys, hsize, hvalue, -, howner, -, hhit⟩ := hvalues
  have hcache : e.cacheHit = e'.cacheHit := by
    cases hc : e.cacheHit <;> cases hc' : e'.cacheHit <;> simp_all
  rw [shown, shown, BusOp.shown, BusOp.shown, decimal_injective hstart, decimal_injective hend,
    decimal_injective hstall, signedDecimal_injective hcpu,
    kindName_injective (String.toList_inj.mp hkind), BitVec.eq_of_toNat_eq (decimal_injective hphys),
    decimal_injective hsize, BitVec.eq_of_toNat_eq (decimal_injective hvalue),
    ownerName_inj (String.toList_inj.mp howner), hcache]

theorem payload_shown (e : CommitEvent) : e.shown.payload = e.payload := by
  have hsource : sourceName e.op.shown = sourceName e.op := by
    rw [sourceName, sourceName, BusOp.shown_isDma]
    rfl
  have howner : ownerName e.op.shown = ownerName e.op := by
    rw [ownerName, ownerName, BusOp.shown_isDma]
  have htag : provenanceTag e.op.shown = provenanceTag e.op := by
    rw [provenanceTag, provenanceTag, BusOp.shown_isDma]
  have hvalues : e.shown.values = e.values := by
    change [_, _, _, _, _, _, _, _, (sourceName e.op.shown).toList, (ownerName e.op.shown).toList,
      (provenanceTag e.op.shown).toList, _] = _
    rw [hsource, howner, htag]
    rfl
  rw [payload_eq, payload_eq, hvalues]

end CommitEvent

namespace CpuSnapshot

def values (s : CpuSnapshot) : List (List Char) :=
  [decimal s.t, signedDecimal s.cpu, decimal s.pc.toNat, decimal s.sr.toNat] ++
    (List.finRange 16).map fun i => decimal (s.r i).toNat

def words : List (List Char) :=
  ([",\"cpu\":", ",\"pc\":", ",\"sr\":", ",\"r\":["] ++ List.replicate 15 "," ++
    ["]\x7d"]).map String.toList

theorem payload_eq (s : CpuSnapshot) : s.payload = "\x7b\"t\":".toList ++ weave s.values words := by
  have hall : List.finRange 16 = [0, 1, 2, 3, 4, 5, 6, 7, 8, 9, 10, 11, 12, 13, 14, 15] := by decide
  unfold payload registers values words
  rw [hall]
  simp [weave]

theorem ends (s : CpuSnapshot) : List.Forall₂ Ends s.values words := by
  have hcomma : ∀ n : Nat, ',' ∉ decimal n := not_mem_decimal (by decide)
  have hbracket : ∀ n : Nat, ']' ∉ decimal n := not_mem_decimal (by decide)
  have hstops : words.map List.head? = (List.replicate 19 ',' ++ [']']).map some := by decide
  have hall : List.finRange 16 = [0, 1, 2, 3, 4, 5, 6, 7, 8, 9, 10, 11, 12, 13, 14, 15] := by decide
  refine ends_of_stops hstops ?_
  rw [values, hall]
  simp [List.replicate_succ, hcomma, hbracket, not_mem_signedDecimal]

theorem payload_inj {s s' : CpuSnapshot} (h : s.payload = s'.payload) : s = s' := by
  rw [payload_eq, payload_eq] at h
  have hweave := List.append_cancel_left h
  rw [← List.append_nil (weave s.values words), ← List.append_nil (weave s'.values words)] at hweave
  have hvalues := (weave_inj s.ends s'.ends hweave).1
  obtain ⟨hfirst, hregisters⟩ := List.append_inj hvalues rfl
  simp only [List.cons.injEq, and_true] at hfirst
  obtain ⟨ht, hcpu, hpc, hsr⟩ := hfirst
  have hr : s.r = s'.r := funext fun i =>
    BitVec.eq_of_toNat_eq (decimal_injective (List.map_inj_left.mp hregisters i (List.mem_finRange i)))
  have ht := decimal_injective ht
  have hcpu := signedDecimal_injective hcpu
  have hpc := BitVec.eq_of_toNat_eq (decimal_injective hpc)
  have hsr := BitVec.eq_of_toNat_eq (decimal_injective hsr)
  cases s
  cases s'
  simp_all

end CpuSnapshot

namespace FaultEvent

def values (f : FaultEvent) : List (List Char) :=
  [decimal f.t, signedDecimal f.cpu, decimal f.pc.toNat, decimal f.detail.toNat]

def words : List (List Char) :=
  [",\"cpu\":", ",\"pc\":", ",\"detail\":", ",\"reason\":\""].map String.toList

theorem payload_eq_weave (f : FaultEvent) : f.payload =
    "\x7b\"t\":".toList ++ (weave f.values words ++ (f.reason.toList ++ "\"\x7d".toList)) := by
  unfold payload values words
  simp only [List.map_cons, List.map_nil, weave, List.append_assoc, List.append_nil]

theorem ends (f : FaultEvent) : List.Forall₂ Ends f.values words := by
  have hcomma : ∀ n : Nat, ',' ∉ decimal n := not_mem_decimal (by decide)
  have hstops : words.map List.head? = [',', ',', ',', ','].map some := by decide
  refine ends_of_stops hstops ?_
  simp only [values, List.forall₂_cons, List.forall₂_nil_left_iff, and_true]
  exact ⟨hcomma _, not_mem_signedDecimal (by decide) (by decide) _, hcomma _, hcomma _⟩

theorem payload_inj {f f' : FaultEvent} (h : f.payload = f'.payload) : f = f' := by
  rw [payload_eq_weave, payload_eq_weave] at h
  obtain ⟨hvalues, hrest⟩ := weave_inj f.ends f'.ends (List.append_cancel_left h)
  have hreason := String.toList_inj.mp (List.append_cancel_right hrest)
  simp only [values, List.cons.injEq, and_true] at hvalues
  obtain ⟨ht, hcpu, hpc, hdetail⟩ := hvalues
  have ht := decimal_injective ht
  have hcpu := signedDecimal_injective hcpu
  have hpc := BitVec.eq_of_toNat_eq (decimal_injective hpc)
  have hdetail := BitVec.eq_of_toNat_eq (decimal_injective hdetail)
  cases f
  cases f'
  simp_all

end FaultEvent

/-! ### Logs -/

/-- What a line shows of an event. -/
def TraceEvent.shown : TraceEvent → TraceEvent
  | .commit e => .commit e.shown
  | .state s => .state s
  | .fault f => .fault f

theorem TraceEvent.line_shown (e : TraceEvent) : e.shown.line = e.line := by
  cases e with
  | commit e => exact congrArg ("COMMIT ".toList ++ ·) e.payload_shown
  | state s => rfl
  | fault f => rfl

/-- A line tells what it shows. -/
theorem TraceEvent.line_inj {e e' : TraceEvent} (h : e.line = e'.line) : e.shown = e'.shown := by
  have hhead := congrArg List.head? h
  cases e with
  | commit e =>
    cases e' with
    | commit e' =>
      exact congrArg TraceEvent.commit (CommitEvent.payload_inj (List.append_cancel_left h))
    | state s' => exact absurd (show some 'C' = some 'S' from hhead) (by decide)
    | fault f' => exact absurd (show some 'C' = some 'F' from hhead) (by decide)
  | state s =>
    cases e' with
    | commit e' => exact absurd (show some 'S' = some 'C' from hhead) (by decide)
    | state s' =>
      exact congrArg TraceEvent.state (CpuSnapshot.payload_inj (List.append_cancel_left h))
    | fault f' => exact absurd (show some 'S' = some 'F' from hhead) (by decide)
  | fault f =>
    cases e' with
    | commit e' => exact absurd (show some 'F' = some 'C' from hhead) (by decide)
    | state s' => exact absurd (show some 'F' = some 'S' from hhead) (by decide)
    | fault f' =>
      exact congrArg TraceEvent.fault (FaultEvent.payload_inj (List.append_cancel_left h))

namespace TraceLog

/-- The reason of every fault is on one line. -/
def OneLine (log : TraceLog) : Prop := ∀ fault ∈ log.faults, '\n' ∉ fault.reason.toList

variable {log log' : TraceLog}

theorem OneLine.newline (h : log.OneLine) : ∀ line ∈ log.lines.map TraceEvent.line, '\n' ∉ line := by
  have hprintable : ∀ {text : List Char}, Printable text → '\n' ∉ text := fun htext hmem =>
    absurd (htext _ hmem) (by decide)
  intro line hline
  obtain ⟨e, he, rfl⟩ := List.mem_map.mp hline
  cases e with
  | commit e => exact hprintable (TraceEvent.printable_line (by simp [TraceEvent.fault?]))
  | state s => exact hprintable (TraceEvent.printable_line (by simp [TraceEvent.fault?]))
  | fault f =>
    have hreason := h f (List.mem_filterMap.mpr ⟨_, he, rfl⟩)
    have hnat : ∀ n, '\n' ∉ decimal n := not_mem_decimal (by decide)
    have hint : '\n' ∉ signedDecimal f.cpu := not_mem_signedDecimal (by decide) (by decide) _
    unfold TraceEvent.line FaultEvent.payload
    simp only [List.mem_append, not_or, and_assoc]
    exact ⟨by decide, by decide, hnat _, by decide, hint, by decide, hnat _, by decide, hnat _,
      by decide, hreason, by decide⟩

/-- **The text of a log is what it shows.** -/
theorem toJsonl_eq_iff (h : log.OneLine) (h' : log'.OneLine) :
    log.toJsonl = log'.toJsonl ↔
      log.lines.map TraceEvent.shown = log'.lines.map TraceEvent.shown := by
  have htext : ∀ l : TraceLog, l.toJsonl = headerLine ++ '\n' ::
      (l.lines.map TraceEvent.line).flatMap fun line => line ++ ['\n'] := by
    intro l
    rw [toJsonl, List.flatMap_map]
  rw [htext, htext]
  constructor
  · intro heq
    have hlines := lines_inj h.newline h'.newline (List.cons.inj (List.append_cancel_left heq)).2
    have : Nonempty TraceEvent := ⟨.state {}⟩
    have hfactors : Function.FactorsThrough TraceEvent.shown TraceEvent.line :=
      fun _ _ => TraceEvent.line_inj
    obtain ⟨read, hread⟩ := (Function.factorsThrough_iff _).mp hfactors
    rw [hread, ← List.map_map, ← List.map_map, hlines]
  · intro heq
    have hlines := congrArg (List.map TraceEvent.line) heq
    have hshown : TraceEvent.line ∘ TraceEvent.shown = TraceEvent.line :=
      funext TraceEvent.line_shown
    rw [List.map_map, List.map_map, hshown] at hlines
    rw [hlines]

/-- Logs that show the same have COMMIT records that show the same. -/
theorem commits_shown (log : TraceLog) :
    log.commits.map CommitEvent.shown =
      (log.lines.map TraceEvent.shown).filterMap (·.commit?) := by
  rw [commits, List.map_filterMap, List.filterMap_map]
  congr 1
  funext e
  cases e <;> rfl

end TraceLog

/-! ### Memory and devices -/

namespace Machine

/-- The data of a write is its answer. -/
theorem answer_of_stores {size : Nat} {m : Machine} {e : CommitEvent} (hgranted : e.granted = true)
    (hstores : (e.op.storesRam || e.op.storesDevice) = true) : m.answer size e = e.op.data := by
  have hkind : e.op.kind = .write ∨ e.op.kind = .mmioWrite := by
    rw [BusOp.storesRam, BusOp.storesDevice] at hstores
    cases hkind : e.op.kind <;> simp_all
  have hdevice : e.op.loadsDevice = false := by
    rw [BusOp.loadsDevice]
    rcases hkind with hkind | hkind <;> rw [hkind] <;> rfl
  have hram : e.op.loadsRam = false := by
    rw [BusOp.loadsRam]
    rcases hkind with hkind | hkind <;> rw [hkind] <;> rfl
  rw [answer, hgranted, hdevice, hram]
  rfl

/-- What a record does follows from what it shows, if it records the answer. -/
theorem apply_shown {size : Nat} {m : Machine} {e e' : CommitEvent} (h : e.shown = e'.shown)
    (hvalue : e.value = m.answer size e) (hvalue' : e'.value = m.answer size e') :
    m.apply size e = m.apply size e' := by
  rw [CommitEvent.shown, CommitEvent.shown, CommitEvent.mk.injEq, BusOp.shown, BusOp.shown,
    BusOp.mk.injEq] at h
  obtain ⟨hstart, hend, ⟨hcpu, -, -, hkind, haddr, hsize, -⟩, -, hsame, -⟩ := h
  have hgranted : e.granted = e'.granted := by
    rw [CommitEvent.granted, CommitEvent.granted, hstart, hend]
  have hram : e.op.storesRam = e'.op.storesRam := by
    rw [BusOp.storesRam, BusOp.storesRam, hkind, haddr]
  have hdevice : e.op.storesDevice = e'.op.storesDevice := by
    rw [BusOp.storesDevice, BusOp.storesDevice, hkind, haddr]
  have hdata : e'.granted = true → (e'.op.storesRam || e'.op.storesDevice) = true →
      e.op.data = e'.op.data := by
    intro hg hstores
    rw [← @answer_of_stores size m e' hg hstores, ← hvalue', ← hsame, hvalue,
      answer_of_stores (hgranted.trans hg) (by rw [hram, hdevice]; exact hstores)]
  rw [apply, apply, hgranted, hram, hdevice, hend, hcpu, haddr, hsize]
  cases hg : e'.granted with
  | false => rfl
  | true =>
    cases hr : e'.op.storesRam with
    | true => rw [hdata hg (by rw [hr, Bool.true_or])]
    | false =>
      cases hd : e'.op.storesDevice with
      | true => rw [hdata hg (by rw [hd, Bool.or_true])]
      | false => rfl

end Machine

end Saturnis.Core

namespace Saturnis.Bus

open Saturnis.Core Saturnis.Mem

/-! ### The faults of a run -/

namespace BusArbiter

theorem faultResponse_oneLine {arb : BusArbiter} (h : arb.trace.OneLine) (op : BusOp) (start : Nat)
    {reason : String} (detail : Word) (hreason : '\n' ∉ reason.toList) :
    (arb.faultResponse op start reason detail).1.trace.OneLine := by
  intro fault hfault
  rw [faultResponse, TraceLog.faults_addCommit, TraceLog.faults_addFault] at hfault
  rcases List.mem_append.mp hfault with hold | hnew
  · exact h fault hold
  · rw [List.mem_singleton.mp hnew]
    exact hreason

theorem executeCommit_oneLine {arb : BusArbiter} (h : arb.trace.OneLine) (op : BusOp) (tie : Bool) :
    (arb.executeCommit op tie).1.trace.OneLine := by
  rw [executeCommit]
  split_ifs
  · exact faultResponse_oneLine h op _ _ (by decide)
  · exact faultResponse_oneLine h op _ _ (by decide)
  · intro fault hfault
    rw [grant_faults] at hfault
    exact h fault hfault

theorem validateEnqueueContract_oneLine {arb : BusArbiter} (h : arb.trace.OneLine) (op : BusOp) :
    (arb.validateEnqueueContract op).1.trace.OneLine := by
  rw [validateEnqueueContract]
  split_ifs
  · exact faultResponse_oneLine h op _ _ (by decide)
  · exact h

theorem runCalls_oneLine {arb : BusArbiter} (h : arb.trace.OneLine) (calls : List ArbiterCall) :
    (arb.runCalls calls).trace.OneLine :=
  runCalls_keeps (P := fun next => next.trace.OneLine)
    (fun _ _ hcore h => by rw [← core_trace hcore]; exact h)
    (fun _ op h => validateEnqueueContract_oneLine h op)
    (fun _ op tie h => executeCommit_oneLine h op tie) h calls

/-- **Runs with one text** of one arbiter leave one memory, and one hub. -/
theorem runCalls_of_toJsonl {arb : BusArbiter} (hlat : arb.latency = {}) (h : arb.trace.OneLine)
    {calls calls' : List ArbiterCall}
    (htext : (arb.runCalls calls).trace.toJsonl = (arb.runCalls calls').trace.toJsonl) :
    (arb.runCalls calls).machine = (arb.runCalls calls').machine := by
  have hlines := (TraceLog.toJsonl_eq_iff (runCalls_oneLine h calls) (runCalls_oneLine h calls')).mp
    htext
  have hshown := congrArg (List.filterMap (·.commit?)) hlines
  rw [← TraceLog.commits_shown, ← TraceLog.commits_shown, runCalls_commits, runCalls_commits,
    List.map_append, List.map_append] at hshown
  have hrecords := List.append_cancel_left hshown
  rw [← List.forall₂_eq_eq_eq, List.forall₂_map_left_iff, List.forall₂_map_right_iff] at hrecords
  have hexplained := fun cs => ((runCalls_chained arb cs).explained (runLog_sound arb cs) hlat).2
  have hsame : ∀ (m : Machine) (e e' : CommitEvent), e.shown = e'.shown →
      e.value = m.answer arb.memory.size e → e'.value = m.answer arb.memory.size e' →
      m.apply arb.memory.size e = m.apply arb.memory.size e' := fun _ _ _ => Machine.apply_shown
  exact EventLog.Explains.unique hsame hrecords (hexplained calls) (hexplained calls')

/-- The text does not tell a batch of one write from the write. -/
theorem runCalls_of_toJsonl_batch :
    let arb : BusArbiter := { memory := .make 16 }
    let op : BusOp := { kind := .write, data := 7 }
    let other : BusOp := { op with sequence := 1 }
    (arb.runCalls [.commit op]).machine = (arb.runCalls [.commitBatch [other]]).machine ∧
      (arb.runCalls [.commit op]).trace.commits ≠
        (arb.runCalls [.commitBatch [other]]).trace.commits := by
  intro arb op other
  have htext : (arb.runCalls [.commit op]).trace.toJsonl =
      (arb.runCalls [.commitBatch [other]]).trace.toJsonl := by rfl
  exact ⟨runCalls_of_toJsonl rfl (by simp [TraceLog.OneLine, TraceLog.faults, arb]) htext,
    by decide⟩

end BusArbiter

end Saturnis.Bus
