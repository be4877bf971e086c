/-
The illegal-opcode metrics of the BIOS scripts, and the trace they are read from.

`extract_illegal_ops` goes over the lines of a trace, decodes the object of each
FAULT line and keeps those with the reason ILLEGAL_OP; `build_metrics` counts
their opcodes.  Of `json.loads` only one thing is assumed (`LoadsObjects`): an
object of 64-bit integers and plain texts with distinct keys becomes the
dictionary of its members.  `none` is a call that raises an exception.

* `extractIllegalOps_lines` — the illegal opcodes of a trace are extracted;
* `buildMetrics_exact` — the metrics of some opcodes are exact;
* `metrics_of_trace` — so the metrics of a trace are;
* `loadsObjects_flatLoads` — a reader of flat objects meets the assumption.
-/
import Saturnis.TraceText

namespace Saturnis.Bios

open Saturnis.Core Saturnis.Python Saturnis.Replay

/-! ### Dictionaries -/

/-- `payload.get(key)`, or nothing for a key that is not there. -/
abbrev Dict := List Char → Option Value

/-- A value of a flat object. -/
inductive Scalar
  | int (n : Int)
  | text (chars : List Char)
deriving DecidableEq, Repr

namespace Scalar

def json : Scalar → JsonValue
  | int n => .number (signedDecimal n)
  | text chars => .text chars

def value : Scalar → Value
  | int n => .int n
  | text chars => .str chars

end Scalar

/-- A text that is written between quotes as it is. -/
def PlainText (chars : List Char) : Prop := Printable chars ∧ '"' ∉ chars ∧ '\\' ∉ chars

instance (chars : List Char) : Decidable (PlainText chars) := inferInstanceAs (Decidable (_ ∧ _))

/-- A text of that kind, or an integer of 64 bits. -/
def Scalar.Plain : Scalar → Prop
  | int n => -2 ^ 63 ≤ n ∧ n < 2 ^ 64
  | text chars => PlainText chars

/-- Plain integers and texts, under distinct plain keys. -/
structure FlatObject where
  members : List (List Char × Scalar)
  distinct : (members.map Prod.fst).Nodup
  keys : ∀ m ∈ members, PlainText m.1
  values : ∀ m ∈ members, m.2.Plain

namespace FlatObject

def render (o : FlatObject) : List Char := renderLine (o.members.map fun m => (m.1, m.2.json))

def dict (o : FlatObject) : Dict := fun key => (o.members.lookup key).map Scalar.value

end FlatObject

/-- `json.loads` makes the dictionary of a flat object. -/
def LoadsObjects (loads : List Char → Option Dict) : Prop :=
  ∀ o : FlatObject, loads o.render = some o.dict

/-! ### The scripts -/

structure IllegalOpEvent where
  pc : Int
  opcode : Int
deriving DecidableEq, Repr

def faultTag : List Char := "FAULT ".toList

def parseFaultPayload (loads : List Char → Option Dict) (line : List Char) : Option Dict :=
  if faultTag.isPrefixOf line then loads (line.drop faultTag.length) else none

def extractIllegalOps (loads : List Char → Option Dict) :
    List (List Char) → Option (List IllegalOpEvent)
  | [] => some []
  | raw :: lines =>
    let line := strip raw
    if !faultTag.isPrefixOf line then extractIllegalOps loads lines
    else
      match parseFaultPayload loads line with
      | none => none
      | some payload =>
        if payload "reason".toList ≠ some (.str "ILLEGAL_OP".toList) then
          extractIllegalOps loads lines
        else
          match ((payload "pc".toList).getD (.int 0)).toInt,
            ((payload "detail".toList).getD (.int 0)).toInt, extractIllegalOps loads lines with
          | some pc, some opcode, some events => some (⟨pc, opcode⟩ :: events)
          | _, _, _ => none

structure Metrics where
  formatVersion : Nat
  illegalOpCount : Nat
  firstIllegalOp : IllegalOpEvent
  topIllegalOpcodes : List (Int × Nat)
deriving DecidableEq, Repr

def buildMetrics (illegalOps : List IllegalOpEvent) : Metrics where
  formatVersion := 1
  illegalOpCount := illegalOps.length
  firstIllegalOp := illegalOps.head?.getD ⟨0, 0⟩
  topIllegalOpcodes := sortedItems (counter (illegalOps.map IllegalOpEvent.opcode))

/-! ### The illegal opcodes of a trace -/

/-- The reasons that the code gives. -/
def faultReasons : List String :=
  ["ILLEGAL_OP", "EXCEPTION_ENTRY", "EXCEPTION_RETURN", "SYNTHETIC_RTE_WITHOUT_CONTEXT",
    "CACHE_FILL_MISMATCH", "INVALID_BUS_OP", "NON_MONOTONIC_REQ_TIME",
    "ENQUEUE_NON_MONOTONIC_REQ_TIME"]

/-- A fault as the code records it: one of its reasons, a `Tick` and an `int`. -/
structure KnownFault (fault : FaultEvent) : Prop where
  reason : fault.reason ∈ faultReasons
  t : fault.t < tickModulus
  cpu : -2 ^ 31 ≤ fault.cpu ∧ fault.cpu < 2 ^ 31

/-- The faults of some events are those of the code. -/
def KnownFaults (events : List TraceEvent) : Prop :=
  ∀ event ∈ events, ∀ fault, event.fault? = some fault → KnownFault fault

/-- What should be extracted of a fault. -/
def IllegalOpEvent.ofFault (fault : FaultEvent) : IllegalOpEvent where
  pc := (fault.pc.toNat : Int)
  opcode := (fault.detail.toNat : Int)

/-- The ILLEGAL_OP faults of some events, in their order. -/
def illegalFaults (events : List TraceEvent) : List FaultEvent :=
  (events.filterMap TraceEvent.fault?).filter fun fault => fault.reason = "ILLEGAL_OP"

theorem plainText_reason : ∀ reason ∈ faultReasons, PlainText reason.toList := by decide

theorem plain_word (w : BitVec 32) : (Scalar.int (w.toNat : Int)).Plain := by
  have := w.isLt
  exact ⟨by omega, by omega⟩

/-- The object of a fault. -/
def faultObject (fault : FaultEvent) (h : KnownFault fault) : FlatObject where
  members :=
    [("t".toList, .int (fault.t : Int)), ("cpu".toList, .int fault.cpu),
      ("pc".toList, .int (fault.pc.toNat : Int)), ("detail".toList, .int (fault.detail.toNat : Int)),
      ("reason".toList, .text fault.reason.toList)]
  distinct := by
    show ["t".toList, "cpu".toList, "pc".toList, "detail".toList, "reason".toList].Nodup
    decide
  keys := by
    simp only [List.forall_mem_cons]
    exact ⟨by decide, by decide, by decide, by decide, by decide, by simp⟩
  values := by
    simp only [List.forall_mem_cons]
    obtain ⟨hreason, ht, hcpu⟩ := h
    rw [tickModulus] at ht
    exact ⟨⟨by omega, by omega⟩, ⟨by omega, by omega⟩, plain_word fault.pc,
      plain_word fault.detail, plainText_reason _ hreason, by simp⟩

theorem signedDecimal_natCast (n : Nat) : signedDecimal (n : Int) = decimal n := by
  rw [signedDecimal, if_neg (by omega), Int.natAbs_natCast]

theorem render_faultObject {fault : FaultEvent} (h : KnownFault fault) :
    (faultObject fault h).render = fault.payload := by
  rw [fault.payload_eq, FlatObject.render]
  simp only [faultObject, List.map_cons, List.map_nil, Scalar.json, signedDecimal_natCast]
  rfl

/-! ### Extraction -/

variable {loads : List Char → Option Dict} {lines : List (List Char)}

/-- A line without the tag of a fault is passed over. -/
theorem extractIllegalOps_other {raw : List Char}
    (h : faultTag.isPrefixOf (strip raw) = false) :
    extractIllegalOps loads (raw :: lines) = extractIllegalOps loads lines := by
  rw [extractIllegalOps, h]
  rfl

theorem isPrefixOf_faultLine (fault : FaultEvent) :
    faultTag.isPrefixOf (TraceEvent.fault fault).line = true :=
  List.isPrefixOf_iff_prefix.mpr (List.prefix_append faultTag fault.payload)

theorem parseFaultPayload_line (hloads : LoadsObjects loads) {fault : FaultEvent}
    (h : KnownFault fault) :
    parseFaultPayload loads (TraceEvent.fault fault).line = some (faultObject fault h).dict := by
  have hdrop : (TraceEvent.fault fault).line.drop faultTag.length = fault.payload :=
    List.drop_left
  rw [parseFaultPayload, if_pos (isPrefixOf_faultLine fault), hdrop, ← render_faultObject h, hloads]

/-- What the dictionary of a fault has at the keys that are looked up. -/
theorem dict_faultObject {fault : FaultEvent} (h : KnownFault fault) :
    (faultObject fault h).dict "reason".toList = some (.str fault.reason.toList) ∧
      (faultObject fault h).dict "pc".toList = some (.int (fault.pc.toNat : Int)) ∧
        (faultObject fault h).dict "detail".toList = some (.int (fault.detail.toNat : Int)) :=
  ⟨rfl, rfl, rfl⟩

/-- The line of a fault gives an event exactly if its reason is ILLEGAL_OP. -/
theorem extractIllegalOps_fault (hloads : LoadsObjects loads) {fault : FaultEvent}
    (h : KnownFault fault) :
    extractIllegalOps loads ((TraceEvent.fault fault).line :: lines) =
      if fault.reason = "ILLEGAL_OP" then
        (extractIllegalOps loads lines).map fun events => .ofFault fault :: events
      else extractIllegalOps loads lines := by
  obtain ⟨hreason, hpc, hdetail⟩ := dict_faultObject h
  rw [extractIllegalOps, TraceEvent.strip_line, isPrefixOf_faultLine,
    parseFaultPayload_line hloads h]
  dsimp only
  rw [if_neg (by decide), hreason, hpc, hdetail]
  by_cases hillegal : fault.reason = "ILLEGAL_OP"
  · rw [if_pos hillegal, if_neg (by rw [hillegal]; exact not_not.mpr rfl)]
    cases extractIllegalOps loads lines with
    | none => rfl
    | some events => rfl
  · rw [if_neg hillegal, if_pos]
    intro heq
    exact hillegal (String.toList_inj.mp (Value.str.inj (Option.some_inj.mp heq)))

/-- **The illegal opcodes of a trace are extracted**, in their order. -/
theorem extractIllegalOps_lines (hloads : LoadsObjects loads) {events : List TraceEvent}
    (hfaults : KnownFaults events) :
    extractIllegalOps loads (events.map TraceEvent.line) =
      some ((illegalFaults events).map IllegalOpEvent.ofFault) := by
  induction events with
  | nil => rfl
  | cons event events ih =>
    have hrest := ih fun e he => hfaults e (List.mem_cons_of_mem _ he)
    rw [List.map_cons]
    cases event with
    | commit event =>
      rw [extractIllegalOps_other (by rw [TraceEvent.strip_line]; rfl), hrest]
      rfl
    | state snapshot =>
      rw [extractIllegalOps_other (by rw [TraceEvent.strip_line]; rfl), hrest]
      rfl
    | fault fault =>
      have hknown : KnownFault fault := hfaults _ (List.mem_cons_self ..) fault rfl
      have hcons : illegalFaults (.fault fault :: events) =
          if fault.reason = "ILLEGAL_OP" then fault :: illegalFaults events
          else illegalFaults events := by
        have hfault : (TraceEvent.fault fault).fault? = some fault := rfl
        rw [illegalFaults, List.filterMap_cons_some hfault, List.filter_cons]
        simp only [decide_eq_true_eq]
        rfl
      rw [extractIllegalOps_fault hloads hknown, hrest, hcons]
      split
      · rfl
      · rfl

/-! ### A reader of flat objects -/

/-- The value a text begins with, and what is left of the text. -/
def readScalar : List Char → Value × List Char
  | [] => (.null, [])
  | c :: text =>
    if c = '"' then
      (.str (text.takeWhile fun c => c ≠ '"'), (text.dropWhile fun c => c ≠ '"').tail)
    else if c = '-' then
      (.int (-(Nat.ofDigitChars 10 (text.takeWhile Char.isDigit) 0 : Nat)),
        text.dropWhile Char.isDigit)
    else
      (.int (Nat.ofDigitChars 10 ((c :: text).takeWhile Char.isDigit) 0 : Nat),
        (c :: text).dropWhile Char.isDigit)

/-- The members up to the closing brace, at most that many. -/
def readMembers : Nat → List Char → Option (List (List Char × Value))
  | 0, _ => none
  | _ + 1, [] => none
  | fuel + 1, c :: text =>
    if c = '"' then
      let key := text.takeWhile fun c => c ≠ '"'
      match readScalar ((text.dropWhile fun c => c ≠ '"').drop 2) with
      | (_, []) => none
      | (value, d :: rest) =>
        if d = ',' then (readMembers fuel rest).map fun members => (key, value) :: members
        else some [(key, value)]
    else some []

def flatLoads (text : List Char) : Option Dict :=
  (readMembers text.length text.tail).map fun members key => members.lookup key

/-- From the first quote on. -/
theorem dropWhile_quote {chars : List Char} (h : '"' ∉ chars) (rest : List Char) :
    (chars ++ '"' :: rest).dropWhile (fun c => c ≠ '"') = '"' :: rest := by
  have hall : ∀ c ∈ chars, decide (c ≠ '"') = true :=
    fun c hc => decide_eq_true fun heq => h (heq ▸ hc)
  rw [List.dropWhile_append_of_pos hall, List.dropWhile_cons_of_neg (by simp)]

/-- A decimal up to the next separator, and the rest from it on. -/
theorem span_decimal (n : Nat) {sep : Char} (hsep : sep.isDigit = false) (rest : List Char) :
    (decimal n ++ sep :: rest).takeWhile Char.isDigit = decimal n ∧
      (decimal n ++ sep :: rest).dropWhile Char.isDigit = sep :: rest := by
  have hall : ∀ c ∈ decimal n, c.isDigit = true := fun c hc => isDigit_of_mem_decimal hc
  constructor
  · rw [List.takeWhile_append_of_pos hall, List.takeWhile_cons_of_neg (by simp [hsep]),
      List.append_nil]
  · rw [List.dropWhile_append_of_pos hall, List.dropWhile_cons_of_neg (by simp [hsep])]

theorem readScalar_render {v : Scalar} (hv : v.Plain) {sep : Char} (hsep : sep.isDigit = false)
    (rest : List Char) : readScalar (v.json.render ++ sep :: rest) = (v.value, sep :: rest) := by
  cases v with
  | text chars =>
    rw [Scalar.json, JsonValue.render, quoted_append, readScalar, if_pos rfl,
      takeWhile_quote hv.2.1, dropWhile_quote hv.2.1]
    rfl
  | int n =>
    obtain ⟨htake, hdrop⟩ := span_decimal n.natAbs hsep rest
    have hvalue : Nat.ofDigitChars 10 (decimal n.natAbs) 0 = n.natAbs :=
      Nat.ofDigitChars_ten_toDigits
    rw [Scalar.json, JsonValue.render, signedDecimal, Scalar.value]
    by_cases hn : n < 0
    · rw [if_pos hn, List.cons_append, readScalar, if_neg (by decide), if_pos rfl, htake, hdrop,
        hvalue, show -(n.natAbs : Int) = n by omega]
    · rw [if_neg hn]
      obtain ⟨d, digits, hdigits⟩ := List.exists_cons_of_ne_nil
        (show decimal n.natAbs ≠ [] from Nat.toDigits_ne_nil)
      have hd : d.isDigit = true :=
        isDigit_of_mem_decimal (n := n.natAbs) (hdigits ▸ List.mem_cons_self ..)
      rw [hdigits] at htake hdrop hvalue ⊢
      rw [List.cons_append] at htake hdrop ⊢
      have hminus : d ≠ '-' := by
        rintro rfl
        exact absurd hd (by decide)
      rw [readScalar, if_neg (isDigit_ne hd).1, if_neg hminus, htake, hdrop, hvalue,
        show (n.natAbs : Int) = n by omega]

theorem readMembers_cons (fuel : Nat) {key : List Char} (hkey : '"' ∉ key) {v : Scalar}
    (hv : v.Plain) {sep : Char} (hsep : sep.isDigit = false) (rest : List Char) :
    readMembers (fuel + 1) (quoted key ++ ':' :: (v.json.render ++ sep :: rest)) =
      if sep = ',' then
        (readMembers fuel rest).map fun members => (key, v.value) :: members
      else some [(key, v.value)] := by
  have hvalue : readScalar (('"' :: ':' :: (v.json.render ++ sep :: rest)).drop 2) =
      (v.value, sep :: rest) := readScalar_render hv hsep rest
  rw [quoted_append, readMembers, if_pos rfl, takeWhile_quote hkey, dropWhile_quote hkey]
  dsimp only
  rw [hvalue]

theorem readMembers_renderEntries {fuel : Nat} {members : List (List Char × Scalar)}
    (hkeys : ∀ m ∈ members, PlainText m.1) (hvalues : ∀ m ∈ members, m.2.Plain)
    (hfuel : members.length < fuel) :
    readMembers fuel (renderEntries (members.map fun m => (m.1, m.2.json))) =
      some (members.map fun m => (m.1, m.2.value)) := by
  induction members generalizing fuel with
  | nil =>
    cases fuel with
    | zero => exact absurd hfuel (Nat.lt_irrefl 0)
    | succ fuel => rfl
  | cons m members ih =>
    cases fuel with
    | zero => exact absurd hfuel (Nat.not_lt_zero _)
    | succ fuel =>
      have hread := fun sep hsep rest => @readMembers_cons fuel m.1
        (hkeys m (List.mem_cons_self ..)).2.1 m.2 (hvalues m (List.mem_cons_self ..)) sep hsep rest
      have hrest := ih (fun m' h => hkeys m' (List.mem_cons_of_mem _ h))
        (fun m' h => hvalues m' (List.mem_cons_of_mem _ h)) (Nat.lt_of_succ_lt_succ hfuel)
      cases members with
      | nil => exact hread '}' (by decide) []
      | cons m' members =>
        refine (hread ',' (by decide) _).trans ?_
        rw [if_pos rfl]
        exact congrArg (Option.map _) hrest

theorem length_lt_renderEntries (entries : List Entry) :
    entries.length < (renderEntries entries).length := by
  induction entries with
  | nil => exact Nat.one_pos
  | cons entry entries ih =>
    cases entries with
    | nil =>
      simp only [renderEntries, List.length_append, List.length_cons, List.length_nil]
      omega
    | cons entry' entries =>
      rw [renderEntries]
      simp only [List.length_append, List.length_cons] at ih ⊢
      omega

theorem lookup_map_value (members : List (List Char × Scalar)) (key : List Char) :
    (members.map fun m => (m.1, m.2.value)).lookup key =
      (members.lookup key).map Scalar.value := by
  induction members with
  | nil => rfl
  | cons m members ih =>
    rw [List.map_cons, List.lookup_cons, List.lookup_cons, ih]
    cases key == m.1 with
    | true => rfl
    | false => rfl

theorem loadsObjects_flatLoads : LoadsObjects flatLoads := by
  intro o
  have hlength := length_lt_renderEntries (o.members.map fun m => (m.1, m.2.json))
  rw [List.length_map] at hlength
  have hread := @readMembers_renderEntries o.render.length o.members o.keys o.values
    (Nat.lt_succ_of_lt hlength)
  have htail : o.render.tail = renderEntries (o.members.map fun m => (m.1, m.2.json)) := rfl
  rw [flatLoads, htail, hread, Option.map_some]
  exact congrArg some (funext (lookup_map_value o.members))

/-! ### Metrics -/

/-- The metrics say exactly what there is. -/
structure ExactMetrics (ops : List IllegalOpEvent) (m : Metrics) : Prop where
  total : m.illegalOpCount = ops.length
  first : m.firstIllegalOp = ops.head?.getD ⟨0, 0⟩
  counts : ∀ opcode count, (opcode, count) ∈ m.topIllegalOpcodes ↔
    0 < count ∧ count = (ops.map IllegalOpEvent.opcode).count opcode
  sum : (m.topIllegalOpcodes.map Prod.snd).sum = m.illegalOpCount
  sorted : m.topIllegalOpcodes.Pairwise Before

theorem buildMetrics_exact (ops : List IllegalOpEvent) : ExactMetrics ops (buildMetrics ops) := by
  have hperm := List.mergeSort_perm (counter (ops.map IllegalOpEvent.opcode)) keyLe
  refine ⟨rfl, rfl, fun opcode count => ?_, ?_, ?_⟩
  · exact hperm.mem_iff.trans mem_counter_iff
  · have hsum := sum_counter (ops.map IllegalOpEvent.opcode)
    rw [List.length_map] at hsum
    exact ((hperm.map Prod.snd).sum_eq).trans hsum
  · exact sortedItems_pairwise (counts_counter _).nodup

/-- **The metrics recover the trace**: its illegal opcodes are extracted from the
lines of its text, and counted exactly. -/
theorem metrics_of_trace (hloads : LoadsObjects loads) (haltOnFault : Bool)
    {events : List TraceEvent} (hfaults : KnownFaults events) :
    ∃ ops, extractIllegalOps loads
        (splitlines (events.foldl TraceLog.add { haltOnFault }).toJsonl) = some ops ∧
      ops = (illegalFaults events).map IllegalOpEvent.ofFault ∧
      ExactMetrics ops (buildMetrics ops) := by
  refine ⟨_, ?_, rfl, buildMetrics_exact _⟩
  have hlines : (events.foldl TraceLog.add { haltOnFault }).lines = events :=
    TraceLog.lines_foldl_add _ events
  rw [TraceLog.splitlines_toJsonl, hlines, extractIllegalOps_other (by decide),
    extractIllegalOps_lines hloads hfaults]
  intro event hevent fault hfault
  rw [hlines] at hevent
  exact (plainText_reason _ (hfaults event hevent fault hfault).reason).1

/-- An illegal opcode, met twice, between other events. -/
def sampleEvents : List TraceEvent :=
  [.state {}, .fault { t := 2, pc := 0x1000, detail := 0x1234, reason := "ILLEGAL_OP" },
    .commit {}, .fault { t := 3, pc := 0x1004, detail := 0x1234, reason := "ILLEGAL_OP" },
    .fault { t := 5, pc := 0x2000, detail := 7, reason := "EXCEPTION_ENTRY" }]

theorem metrics_of_trace_sample :
    ∃ ops, extractIllegalOps flatLoads
        (splitlines (sampleEvents.foldl TraceLog.add { haltOnFault := false }).toJsonl) = some ops ∧
      ops = (illegalFaults sampleEvents).map IllegalOpEvent.ofFault ∧
      ExactMetrics ops (buildMetrics ops) := by
  refine metrics_of_trace loadsObjects_flatLoads false ?_
  simp only [KnownFaults, sampleEvents, List.forall_mem_cons, TraceEvent.fault?, Option.some_inj,
    forall_eq', reduceCtorEq, false_imp_iff]
  exact ⟨fun _ => trivial, ⟨by decide, by decide, by decide⟩, fun _ => trivial,
    ⟨by decide, by decide, by decide⟩, ⟨by decide, by decide, by decide⟩, by simp⟩

end Saturnis.Bios
