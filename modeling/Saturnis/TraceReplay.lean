/-
The two loaders of `trace_replay`.

A trace is a file of JSON lines or a BTR1 binary file; both end up as trace
records and the counters of `InputStats`.  A line of text is a list of
characters, a binary file a list of bytes.

`findValueSpan` does not parse JSON: it looks for the first occurrence of the
quoted key, then for the next colon, and takes what is between quotes or up to
a comma or brace.  `BinaryTraceRecordV1.ofBytes` is the host struct the binary
loader reads into, on a little-endian host.
-/
import Mathlib.Data.List.ReduceOption
import Saturnis.LittleEndian

namespace Saturnis.Replay

open LittleEndian

abbrev Byte := BitVec 8

structure TraceRecord where
  seq : BitVec 64 := 0
  master : String := ""
  tickFirstAttempt : BitVec 64 := 0
  tickComplete : BitVec 64 := 0
  addr : BitVec 32 := 0
  addrText : String := ""
  size : Byte := 4
  rw : String := ""
  kind : String := ""
  serviceCycles : BitVec 32 := 0
  retries : BitVec 32 := 0
  sourceLine : Nat := 0
deriving DecidableEq, Repr

structure InputStats where
  totalEvents : Nat := 0
  malformedLines : Nat := 0
  duplicateSeqCount : Nat := 0
  nonMonotonicSeqCount : Nat := 0
deriving DecidableEq, Repr

/-! ### Text -/

/-- The text after the first occurrence of `needle`. -/
def afterFirst (needle : List Char) : List Char → Option (List Char)
  | [] => if needle = [] then some [] else none
  | c :: text =>
    if needle.isPrefixOf (c :: text) then some ((c :: text).drop needle.length)
    else afterFirst needle text

def quoted (text : List Char) : List Char := '"' :: text ++ ['"']

def findValueSpan (line key : List Char) : Option (List Char) :=
  match afterFirst (quoted key) line with
  | none => none
  | some rest =>
    match afterFirst [':'] rest with
    | none => none
    | some rest =>
      match rest.dropWhile fun c => c = ' ' || c = '\t' with
      | [] => none
      | c :: text =>
        if c = '"' then
          if '"' ∈ text then some (text.takeWhile fun c => c ≠ '"') else none
        else some ((c :: text).takeWhile fun c => c ≠ ',' && c ≠ '}')

/-- The value of a digit, letters of either case included. -/
def digitValue (c : Char) : Nat :=
  if '0' ≤ c ∧ c ≤ '9' then c.toNat - '0'.toNat
  else if 'a' ≤ c ∧ c ≤ 'z' then c.toNat - 'a'.toNat + 10
  else if 'A' ≤ c ∧ c ≤ 'Z' then c.toNat - 'A'.toNat + 10
  else 36

/-- `std::from_chars` over the whole text: digits only, at least one, and a
number below `bound`. -/
def fromChars (base bound : Nat) (text : List Char) : Option Nat :=
  if text = [] ∨ text.any (fun c => digitValue c ≥ base) then none
  else
    let value := text.foldl (fun value c => base * value + digitValue c) 0
    if value < bound then some value else none

def parseU64 (text : List Char) : Option (BitVec 64) :=
  (fromChars 10 (2 ^ 64) text).map (BitVec.ofNat 64)

def parseAddr (text : List Char) : Option (BitVec 32) :=
  let trimmed := if ['0', 'x'].isPrefixOf text || ['0', 'X'].isPrefixOf text then text.drop 2 else text
  (fromChars 16 (2 ^ 32) trimmed).map (BitVec.ofNat 32)

/-- `n` hexadecimal digits, the last one that of the low nibble. -/
def hexDigits : Nat → Nat → List Char
  | 0, _ => []
  | n + 1, value =>
    hexDigits n (value / 16) ++ ["0123456789ABCDEF".toList.getD (value % 16) '0']

def toHex32 (value : BitVec 32) : List Char := '0' :: 'x' :: hexDigits 8 value.toNat

/-! ### Records -/

def parseRecord (line : List Char) (sourceLine : Nat) : Option TraceRecord :=
  match findValueSpan line "seq".toList, findValueSpan line "master".toList,
    findValueSpan line "tick_first_attempt".toList, findValueSpan line "tick_complete".toList,
    findValueSpan line "addr".toList, findValueSpan line "size".toList,
    findValueSpan line "rw".toList, findValueSpan line "kind".toList,
    findValueSpan line "service_cycles".toList, findValueSpan line "retries".toList with
  | some seq, some master, some tickFirstAttempt, some tickComplete, some addr, some size,
    some rw, some kind, some serviceCycles, some retries =>
    match parseU64 seq, parseU64 tickFirstAttempt, parseU64 tickComplete, parseAddr addr,
      parseU64 size, parseU64 serviceCycles, parseU64 retries with
    | some parsedSeq, some parsedTfa, some parsedTc, some parsedAddr, some parsedSize,
      some parsedService, some parsedRetries =>
      some
        { seq := parsedSeq
          master := String.ofList master
          tickFirstAttempt := parsedTfa
          tickComplete := parsedTc
          addr := parsedAddr
          addrText := String.ofList addr
          size := parsedSize.setWidth 8
          rw := String.ofList rw
          kind := String.ofList kind
          serviceCycles := parsedService.setWidth 32
          retries := parsedRetries.setWidth 32
          sourceLine }
    | _, _, _, _, _, _, _ => none
  | _, _, _, _, _, _, _, _, _, _ => none

structure BinaryTraceRecordV1 where
  seq : BitVec 64
  tickFirstAttempt : BitVec 64
  tickComplete : BitVec 64
  serviceCycles : BitVec 64
  retries : BitVec 64
  addr : BitVec 32
  size : Byte
  master : Byte
  rw : Byte
  kind : Byte
deriving DecidableEq, Repr

/-- `sizeof(BinaryTraceRecordV1)`. -/
def binaryRecordSize : Nat := 48

def BinaryTraceRecordV1.ofBytes (raw : List Byte) : BinaryTraceRecordV1 where
  seq := BitVec.ofNat 64 (leNat (slice raw 0 8))
  tickFirstAttempt := BitVec.ofNat 64 (leNat (slice raw 8 8))
  tickComplete := BitVec.ofNat 64 (leNat (slice raw 16 8))
  serviceCycles := BitVec.ofNat 64 (leNat (slice raw 24 8))
  retries := BitVec.ofNat 64 (leNat (slice raw 32 8))
  addr := BitVec.ofNat 32 (leNat (slice raw 40 4))
  size := BitVec.ofNat 8 (leNat (slice raw 44 1))
  master := BitVec.ofNat 8 (leNat (slice raw 45 1))
  rw := BitVec.ofNat 8 (leNat (slice raw 46 1))
  kind := BitVec.ofNat 8 (leNat (slice raw 47 1))

def decodeMaster (value : Byte) : Option String :=
  if value = 0 then some "MSH2"
  else if value = 1 then some "SSH2"
  else if value = 2 then some "DMA"
  else none

def decodeRw (value : Byte) : Option String :=
  if value = 0 then some "R" else if value = 1 then some "W" else none

def decodeKind (value : Byte) : Option String :=
  if value = 0 then some "ifetch"
  else if value = 1 then some "read"
  else if value = 2 then some "write"
  else if value = 3 then some "mmio_read"
  else if value = 4 then some "mmio_write"
  else none

/-- The record at an index of a binary file; `none` is a malformed one. -/
def BinaryTraceRecordV1.decode (raw : BinaryTraceRecordV1) (index : Nat) : Option TraceRecord :=
  match decodeMaster raw.master, decodeRw raw.rw, decodeKind raw.kind with
  | some master, some rw, some kind =>
    if raw.size = 1 ∨ raw.size = 2 ∨ raw.size = 4 then
      some
        { seq := raw.seq
          master
          tickFirstAttempt := raw.tickFirstAttempt
          tickComplete := raw.tickComplete
          addr := raw.addr
          addrText := String.ofList (toHex32 raw.addr)
          size := raw.size
          rw
          kind
          serviceCycles := raw.serviceCycles.setWidth 32
          retries := raw.retries.setWidth 32
          sourceLine := index + 1 }
    else none
  | _, _, _ => none

/-! ### Loading -/

/-- What both loaders keep while they read. -/
structure Loading where
  records : List TraceRecord := []
  stats : InputStats := {}
  seenSeqValues : List (BitVec 64) := []
  previousSeq : Option (BitVec 64) := none
deriving DecidableEq, Repr

/-- One line or binary record, parsed or malformed. -/
def Loading.take (l : Loading) : Option TraceRecord → Loading
  | none =>
    { l with
      stats := { l.stats with
        totalEvents := l.stats.totalEvents + 1
        malformedLines := l.stats.malformedLines + 1 } }
  | some rec =>
    { records := l.records ++ [rec]
      stats := { l.stats with
        totalEvents := l.stats.totalEvents + 1
        duplicateSeqCount :=
          l.stats.duplicateSeqCount + if rec.seq ∈ l.seenSeqValues then 1 else 0
        nonMonotonicSeqCount :=
          l.stats.nonMonotonicSeqCount +
            if l.previousSeq.any fun previous => rec.seq ≤ previous then 1 else 0 }
      seenSeqValues := rec.seq :: l.seenSeqValues
      previousSeq := some rec.seq }

/-- The lines `std::getline` returns. -/
def getLines (text : List Char) : List (List Char) := text.splitOn '\n'

/-- The loop over the lines, from a line number on; empty lines do not count. -/
def loadLines : Nat → List (List Char) → Loading → Loading
  | _, [], l => l
  | lineNumber, line :: lines, l =>
    loadLines (lineNumber + 1) lines
      (if line = [] then l else l.take (parseRecord line (lineNumber + 1)))

def loadJsonlRecords (text : List Char) : Bool × Loading :=
  (true, loadLines 0 (getLines text) {})

/-- The loop over the binary records, for at most that many rounds. -/
def loadBinaryLoop : Nat → Nat → List Byte → Loading → Bool × Loading
  | 0, _, _, l => (true, l)
  | fuel + 1, index, input, l =>
    let raw := input.take binaryRecordSize
    if raw.length = 0 then (true, l)
    else if raw.length ≠ binaryRecordSize then (false, l)
    else
      loadBinaryLoop fuel (index + 1) (input.drop binaryRecordSize)
        (l.take ((BinaryTraceRecordV1.ofBytes raw).decode index))

def loadBinaryRecords (input : List Byte) : Bool × Loading :=
  let header := input.take 8
  if header.length ≠ 8 then (false, {})
  else if slice header 0 4 ≠ [0x42#8, 0x54#8, 0x52#8, 0x31#8] then (false, {})
  else if leNat (slice header 4 2) ≠ 1 then (false, {})
  else if leNat (slice header 6 2) ≠ binaryRecordSize then (false, {})
  else loadBinaryLoop (input.length + 1) 0 (input.drop 8) {}

/-! ### What is loaded -/

/-- What a record says, wherever and however it was written. -/
structure TraceFields where
  seq : BitVec 64
  master : String
  tickFirstAttempt : BitVec 64
  tickComplete : BitVec 64
  addr : BitVec 32
  size : Byte
  rw : String
  kind : String
  serviceCycles : BitVec 32
  retries : BitVec 32
deriving DecidableEq, Repr

def TraceRecord.fields (rec : TraceRecord) : TraceFields where
  seq := rec.seq
  master := rec.master
  tickFirstAttempt := rec.tickFirstAttempt
  tickComplete := rec.tickComplete
  addr := rec.addr
  size := rec.size
  rw := rec.rw
  kind := rec.kind
  serviceCycles := rec.serviceCycles
  retries := rec.retries

namespace Loading

/-- Lines or binary records, one after the other. -/
def takeAll (l : Loading) (parsed : List (Option TraceRecord)) : Loading := parsed.foldl take l

theorem takeAll_cons (l : Loading) (parsed : Option TraceRecord) (rest : List (Option TraceRecord)) :
    l.takeAll (parsed :: rest) = (l.take parsed).takeAll rest := rfl

theorem takeAll_records (l : Loading) (parsed : List (Option TraceRecord)) :
    (l.takeAll parsed).records = l.records ++ parsed.reduceOption := by
  induction parsed generalizing l with
  | nil => exact (List.append_nil _).symm
  | cons p parsed ih =>
    rw [takeAll_cons, ih]
    cases p with
    | none => rfl
    | some rec =>
      rw [List.reduceOption_cons_of_some, take, List.append_assoc]
      rfl

/-- Every line or record ends up as a record or as a malformed one. -/
theorem takeAll_malformed (l : Loading) (parsed : List (Option TraceRecord)) :
    (l.takeAll parsed).stats.malformedLines + parsed.reduceOption.length =
      l.stats.malformedLines + parsed.length := by
  induction parsed generalizing l with
  | nil => rfl
  | cons p parsed ih =>
    rw [takeAll_cons]
    have hrest := ih (l.take p)
    cases p with
    | none =>
      have hstep : (l.take none).stats.malformedLines = l.stats.malformedLines + 1 := rfl
      rw [List.reduceOption_cons_of_none, List.length_cons]
      omega
    | some rec =>
      have hstep : (l.take (some rec)).stats.malformedLines = l.stats.malformedLines := rfl
      rw [List.reduceOption_cons_of_some, List.length_cons, List.length_cons]
      omega

end Loading

/-- The decoded records of a binary file. -/
def decodeAll (index : Nat) (chunks : List (List Byte)) : List (Option TraceRecord) :=
  chunks.mapIdx fun i raw => (BinaryTraceRecordV1.ofBytes raw).decode (index + i)

theorem decodeAll_cons (index : Nat) (raw : List Byte) (chunks : List (List Byte)) :
    decodeAll index (raw :: chunks) =
      (BinaryTraceRecordV1.ofBytes raw).decode index :: decodeAll (index + 1) chunks := by
  rw [decodeAll, List.mapIdx_cons, decodeAll]
  simp only [Nat.add_zero, Nat.add_assoc, Nat.add_comm 1]

/-- Whole records are read to the end of the file. -/
theorem loadBinaryLoop_flatten (fuel index : Nat) (chunks : List (List Byte)) (l : Loading)
    (hsize : ∀ raw ∈ chunks, raw.length = binaryRecordSize) (hfuel : chunks.length < fuel) :
    loadBinaryLoop fuel index chunks.flatten l = (true, l.takeAll (decodeAll index chunks)) := by
  induction fuel generalizing index chunks l with
  | zero => omega
  | succ fuel ih =>
    rw [loadBinaryLoop]
    cases chunks with
    | nil => rfl
    | cons raw chunks =>
      have hraw := hsize raw (List.mem_cons_self ..)
      have htake : (raw :: chunks).flatten.take binaryRecordSize = raw := by
        rw [List.flatten_cons, List.take_append_of_le_length hraw.ge, ← hraw, List.take_length]
      have hdrop : (raw :: chunks).flatten.drop binaryRecordSize = chunks.flatten := by
        rw [List.flatten_cons, ← hraw, List.drop_left]
      rw [htake, hdrop, if_neg (by rw [hraw, binaryRecordSize]; omega),
        if_neg (not_not.mpr hraw), decodeAll_cons]
      exact ih (index + 1) chunks _ (fun raw h => hsize raw (List.mem_cons_of_mem _ h))
        (by rw [List.length_cons] at hfuel; omega)

/-- The header of a BTR1 file. -/
def binaryHeader : List Byte := [0x42#8, 0x54#8, 0x52#8, 0x31#8] ++ leBytes 2 1 ++ leBytes 2 48

theorem loadBinaryRecords_header (chunks : List (List Byte))
    (hsize : ∀ raw ∈ chunks, raw.length = binaryRecordSize) :
    loadBinaryRecords (binaryHeader ++ chunks.flatten) =
      (true, Loading.takeAll {} (decodeAll 0 chunks)) := by
  have hlen : chunks.length ≤ chunks.flatten.length := by
    rw [List.length_flatten, List.map_congr_left hsize, List.map_const', List.sum_replicate_nat,
      binaryRecordSize]
    omega
  have htake : (binaryHeader ++ chunks.flatten).take 8 = binaryHeader := rfl
  have hdrop : (binaryHeader ++ chunks.flatten).drop 8 = chunks.flatten := rfl
  rw [loadBinaryRecords, htake, hdrop, if_neg (by decide), if_neg (by decide), if_neg (by decide),
    if_neg (by decide)]
  exact loadBinaryLoop_flatten _ 0 chunks {} hsize (by rw [List.length_append]; omega)

/-- The parsed records of some lines. -/
def parseAll (lineNumber : Nat) (lines : List (List Char)) : List (Option TraceRecord) :=
  lines.mapIdx fun i line => parseRecord line (lineNumber + i + 1)

theorem parseAll_cons (lineNumber : Nat) (line : List Char) (lines : List (List Char)) :
    parseAll lineNumber (line :: lines) =
      parseRecord line (lineNumber + 1) :: parseAll (lineNumber + 1) lines := by
  rw [parseAll, List.mapIdx_cons, parseAll]
  simp only [Nat.add_zero, Nat.add_assoc, Nat.add_comm 1]

/-- Lines that are not empty, with the end of the file behind the last one. -/
theorem loadLines_eq (lineNumber : Nat) (lines : List (List Char)) (l : Loading)
    (hne : ∀ line ∈ lines, line ≠ []) :
    loadLines lineNumber (lines ++ [[]]) l = l.takeAll (parseAll lineNumber lines) := by
  induction lines generalizing lineNumber l with
  | nil => rfl
  | cons line lines ih =>
    rw [List.cons_append, loadLines, if_neg (hne line (List.mem_cons_self ..)), parseAll_cons,
      ih (lineNumber + 1) _ fun line h => hne line (List.mem_cons_of_mem _ h)]
    rfl

end Saturnis.Replay
