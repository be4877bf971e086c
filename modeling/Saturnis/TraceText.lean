/-
The text of a trace log.

`add_commit`, `add_state` and `add_fault` write one line each, a tag and a JSON
object; `to_jsonl` puts a header before them and a newline behind every line.

* `TraceEvent.printable_line` — a line has no break within it;
* `FaultEvent.payload_eq` — the object of a fault line has five members.
-/
import Saturnis.Python
import Saturnis.Trace
import Saturnis.TraceLines

namespace Saturnis.Core

open Saturnis.Bus Saturnis.Python Saturnis.Replay

/-- The object of a COMMIT line. -/
def CommitEvent.payload (event : CommitEvent) : List Char :=
  "\x7b\"t_start\":".toList ++ decimal event.tStart ++ ",\"t_end\":".toList ++ decimal event.tEnd ++
    ",\"stall\":".toList ++ decimal event.stall ++ ",\"cpu\":".toList ++
    signedDecimal event.op.cpuId ++ ",\"kind\":\"".toList ++ (kindName event.op.kind).toList ++
    "\",\"phys\":".toList ++ decimal event.op.physAddr.toNat ++ ",\"size\":".toList ++
    decimal event.op.size ++ ",\"val\":".toList ++ decimal event.value.toNat ++
    ",\"src\":\"".toList ++ (sourceName event.op).toList ++ "\",\"owner\":\"".toList ++
    (ownerName event.op).toList ++ "\",\"tag\":\"".toList ++ (provenanceTag event.op).toList ++
    "\",\"cache_hit\":".toList ++ (if event.cacheHit then "true" else "false").toList ++
    "\x7d".toList

/-- The registers, with commas between them. -/
def CpuSnapshot.registers (state : CpuSnapshot) : List Char :=
  (List.finRange 16).flatMap fun i =>
    (if i.val ≠ 0 then [','] else []) ++ decimal (state.r i).toNat

/-- The object of a STATE line. -/
def CpuSnapshot.payload (state : CpuSnapshot) : List Char :=
  "\x7b\"t\":".toList ++ decimal state.t ++ ",\"cpu\":".toList ++ signedDecimal state.cpu ++
    ",\"pc\":".toList ++ decimal state.pc.toNat ++ ",\"sr\":".toList ++ decimal state.sr.toNat ++
    ",\"r\":[".toList ++ state.registers ++ "]\x7d".toList

/-- The object of a FAULT line. -/
def FaultEvent.payload (fault : FaultEvent) : List Char :=
  "\x7b\"t\":".toList ++ decimal fault.t ++ ",\"cpu\":".toList ++ signedDecimal fault.cpu ++
    ",\"pc\":".toList ++ decimal fault.pc.toNat ++ ",\"detail\":".toList ++
    decimal fault.detail.toNat ++ ",\"reason\":\"".toList ++ fault.reason.toList ++
    "\"\x7d".toList

def TraceEvent.line : TraceEvent → List Char
  | .commit event => "COMMIT ".toList ++ event.payload
  | .state snapshot => "STATE ".toList ++ snapshot.payload
  | .fault event => "FAULT ".toList ++ event.payload

def traceVersion : Nat := 1

/-- The first line. -/
def headerLine : List Char := "TRACE \x7b\"version\":".toList ++ decimal traceVersion ++ "\x7d".toList

def TraceLog.toJsonl (log : TraceLog) : List Char :=
  headerLine ++ '\n' :: log.lines.flatMap fun event => event.line ++ ['\n']

/-- One call of `add_commit`, `add_state` or `add_fault`. -/
def TraceLog.add (log : TraceLog) : TraceEvent → TraceLog
  | .commit event => log.addCommit event
  | .state snapshot => log.addState snapshot
  | .fault event => log.addFault event

theorem TraceLog.lines_foldl_add (log : TraceLog) (events : List TraceEvent) :
    (events.foldl TraceLog.add log).lines = log.lines ++ events := by
  induction events generalizing log with
  | nil => exact (List.append_nil _).symm
  | cons event events ih =>
    have hstep : (log.add event).lines = log.lines ++ [event] := by cases event <;> rfl
    rw [List.foldl_cons, ih, hstep, List.append_assoc, List.singleton_append]

/-! ### Lines without breaks -/

theorem printable_decimal (n : Nat) : Printable (decimal n) := by
  intro c hc
  have hdigit := isDigit_of_mem_decimal hc
  simp only [Char.isDigit, Bool.and_eq_true, decide_eq_true_eq] at hdigit
  have hlow : '0'.toNat ≤ c.toNat := hdigit.1
  have hhigh : c.toNat ≤ '9'.toNat := hdigit.2
  have hzero : '0'.toNat = 48 := rfl
  have hnine : '9'.toNat = 57 := rfl
  omega

theorem printable_signedDecimal (x : Int) : Printable (signedDecimal x) := by
  have hminus : Printable ['-'] := by decide
  rw [signedDecimal]
  split
  · exact printable_append.mpr ⟨hminus, printable_decimal _⟩
  · exact printable_decimal _

theorem CommitEvent.printable_payload (event : CommitEvent) : Printable event.payload := by
  have hkind : Printable (kindName event.op.kind).toList := by cases event.op.kind <;> decide
  have howner : Printable (ownerName event.op).toList := by
    rw [ownerName]
    split <;> decide
  have htag : Printable (provenanceTag event.op).toList := by
    rw [provenanceTag]
    split <;> decide
  have hsource : Printable (sourceName event.op).toList := by
    rw [sourceName]
    split
    · decide
    · cases event.op.kind <;> decide
  have hhit : Printable (if event.cacheHit then "true" else "false").toList := by
    cases event.cacheHit <;> decide
  have hnat := printable_decimal
  have hint := printable_signedDecimal
  unfold CommitEvent.payload
  simp only [printable_append, and_assoc]
  exact ⟨by decide, hnat _, by decide, hnat _, by decide, hnat _, by decide, hint _, by decide, hkind,
    by decide, hnat _, by decide, hnat _, by decide, hnat _, by decide, hsource, by decide, howner,
    by decide, htag, by decide, hhit, by decide⟩

theorem CpuSnapshot.printable_payload (state : CpuSnapshot) : Printable state.payload := by
  have hregisters : Printable state.registers := by
    intro c hc
    obtain ⟨i, -, hi⟩ := List.mem_flatMap.mp hc
    have hcomma : Printable (if i.val ≠ 0 then [','] else []) := by split <;> decide
    exact printable_append.mpr ⟨hcomma, printable_decimal _⟩ c hi
  have hnat := printable_decimal
  have hint := printable_signedDecimal
  unfold CpuSnapshot.payload
  simp only [printable_append, and_assoc]
  exact ⟨by decide, hnat _, by decide, hint _, by decide, hnat _, by decide, hnat _, by decide,
    hregisters, by decide⟩

theorem FaultEvent.printable_payload {fault : FaultEvent} (h : Printable fault.reason.toList) :
    Printable fault.payload := by
  have hnat := printable_decimal
  have hint := printable_signedDecimal
  unfold FaultEvent.payload
  simp only [printable_append, and_assoc]
  exact ⟨by decide, hnat _, by decide, hint _, by decide, hnat _, by decide, hnat _, by decide, h,
    by decide⟩

/-- A line is one line, if the reason of a fault is. -/
theorem TraceEvent.printable_line {event : TraceEvent}
    (h : ∀ fault, event.fault? = some fault → Printable fault.reason.toList) :
    Printable event.line := by
  cases event with
  | commit event => exact printable_append.mpr ⟨by decide, event.printable_payload⟩
  | state snapshot => exact printable_append.mpr ⟨by decide, snapshot.printable_payload⟩
  | fault event => exact printable_append.mpr ⟨by decide, FaultEvent.printable_payload (h event rfl)⟩

/-- A line begins with its tag and ends with a brace. -/
theorem TraceEvent.strip_line (event : TraceEvent) : strip event.line = event.line := by
  cases event with
  | commit event =>
    have hlast : (TraceEvent.commit event).line.getLast? = some '}' := by
      unfold TraceEvent.line CommitEvent.payload
      rw [List.getLast?_append, List.getLast?_append]
      rfl
    exact strip_eq (c := 'C') rfl hlast (by decide) (by decide)
  | state snapshot =>
    have hlast : (TraceEvent.state snapshot).line.getLast? = some '}' := by
      unfold TraceEvent.line CpuSnapshot.payload
      rw [List.getLast?_append, List.getLast?_append]
      rfl
    exact strip_eq (c := 'S') rfl hlast (by decide) (by decide)
  | fault event =>
    have hlast : (TraceEvent.fault event).line.getLast? = some '}' := by
      unfold TraceEvent.line FaultEvent.payload
      rw [List.getLast?_append, List.getLast?_append]
      rfl
    exact strip_eq (c := 'F') rfl hlast (by decide) (by decide)

/-- The lines of the text. -/
theorem TraceLog.splitlines_toJsonl {log : TraceLog}
    (h : ∀ event ∈ log.lines, ∀ fault, event.fault? = some fault →
      Printable fault.reason.toList) :
    splitlines log.toJsonl = headerLine :: log.lines.map TraceEvent.line := by
  have htext : log.toJsonl =
      (headerLine :: log.lines.map TraceEvent.line).flatMap fun line => line ++ ['\n'] := by
    rw [TraceLog.toJsonl, List.flatMap_cons, List.append_assoc, List.flatMap_map]
    rfl
  rw [htext, splitlines_flatMap]
  rw [List.forall_mem_cons]
  refine ⟨by decide, fun line hline => ?_⟩
  obtain ⟨event, hevent, rfl⟩ := List.mem_map.mp hline
  exact TraceEvent.printable_line (h event hevent)

/-! ### The object of a fault -/

/-- The members of a fault, as entries. -/
def FaultEvent.entries (fault : FaultEvent) : List Entry :=
  [("t".toList, .number (decimal fault.t)),
    ("cpu".toList, .number (signedDecimal fault.cpu)),
    ("pc".toList, .number (decimal fault.pc.toNat)),
    ("detail".toList, .number (decimal fault.detail.toNat)),
    ("reason".toList, .text fault.reason.toList)]

theorem FaultEvent.payload_eq (fault : FaultEvent) : fault.payload = renderLine fault.entries := by
  unfold FaultEvent.payload
  simp only [List.append_assoc, FaultEvent.entries, renderLine, renderEntries, JsonValue.render,
    quoted_append]
  rfl

end Saturnis.Core
