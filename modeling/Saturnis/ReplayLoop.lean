/-
The comparative replay of `trace_replay`.

`replay` is `main` between loading and ranking: the records are sorted by
completion tick and sequence number, records of unknown masters are filtered
out, and one loop derives the result of each record and adds it to the
counters.  A `std::map` is a function from keys to what is stored, if anything.

A `ReplayResult` has a field for each member name that the loop spells; the two
`ymir_` members that no statement assigns keep their zeros.
-/
import Saturnis.Busarb
import Saturnis.TraceReplay

namespace Saturnis.Replay

open Saturnis.Busarb

/-! ### Names of regions, buckets and sizes -/

def parseMaster (master : String) : Option BusMasterId :=
  if master = "MSH2" then some .sh2A
  else if master = "SSH2" then some .sh2B
  else if master = "DMA" then some .dma
  else none

/-- The first range that holds the address. -/
def inRange (addr first last : BitVec 32) : Bool := first ≤ addr && addr ≤ last

def regionName (addr : BitVec 32) : String :=
  if addr ≤ 0x00FFFFFF#32 then "BIOS ROM"
  else if inRange addr 0x01000000#32 0x017FFFFF#32 then "SMPC"
  else if inRange addr 0x01800000#32 0x01FFFFFF#32 then "Backup RAM"
  else if inRange addr 0x02000000#32 0x02FFFFFF#32 then "Low WRAM"
  else if inRange addr 0x10000000#32 0x1FFFFFFF#32 then "MINIT/SINIT"
  else if inRange addr 0x20000000#32 0x4FFFFFFF#32 then "A-Bus CS0/CS1"
  else if inRange addr 0x05000000#32 0x057FFFFF#32 then "A-Bus dummy"
  else if inRange addr 0x05800000#32 0x058FFFFF#32 then "CD Block CS2"
  else if inRange addr 0x05A00000#32 0x05BFFFFF#32 then "SCSP"
  else if inRange addr 0x05C00000#32 0x05C7FFFF#32 then "VDP1 VRAM"
  else if inRange addr 0x05C80000#32 0x05CFFFFF#32 then "VDP1 FB"
  else if inRange addr 0x05D00000#32 0x05D7FFFF#32 then "VDP1 regs"
  else if inRange addr 0x05E00000#32 0x05FBFFFF#32 then "VDP2"
  else if inRange addr 0x05FE0000#32 0x05FEFFFF#32 then "SCU regs"
  else if inRange addr 0x06000000#32 0x07FFFFFF#32 then "High WRAM"
  else if inRange addr 0xFFFFFE00#32 0xFFFFFFFF#32 then "SH-2 on-chip regs"
  else "Unmapped"

def isHighWram (addr : BitVec 32) : Bool := inRange addr 0x06000000#32 0x07FFFFFF#32

def classifyCacheBucket (addr serviceCycles : BitVec 32) : String :=
  if !isHighWram addr then "not_applicable"
  else if serviceCycles = 1 then "cache_hit"
  else if serviceCycles = 2 then "uncached_or_through"
  else if serviceCycles = 4 then "cache_miss_half"
  else if serviceCycles = 8 then "cache_miss_full"
  else "anomaly"

def sizeLabel (size : Byte) : String :=
  if size = 1 then "B" else if size = 2 then "W" else if size = 4 then "L" else toString size.toNat

/-! ### The timing model -/

/-- First address, last address, read cycles and write cycles of a region. -/
def regionTimings : List (BitVec 32 × BitVec 32 × Nat × Nat) :=
  [(0x00000000#32, 0x00FFFFFF#32, 2, 2),
    (0x01000000#32, 0x017FFFFF#32, 4, 2),
    (0x01800000#32, 0x01FFFFFF#32, 2, 2),
    (0x02000000#32, 0x02FFFFFF#32, 2, 2),
    (0x10000000#32, 0x1FFFFFFF#32, 4, 2),
    (0x20000000#32, 0x4FFFFFFF#32, 2, 2),
    (0x05000000#32, 0x057FFFFF#32, 8, 2),
    (0x05800000#32, 0x058FFFFF#32, 40, 40),
    (0x05A00000#32, 0x05BFFFFF#32, 40, 2),
    (0x05C00000#32, 0x05C7FFFF#32, 22, 2),
    (0x05C80000#32, 0x05CFFFFF#32, 22, 2),
    (0x05D00000#32, 0x05D7FFFF#32, 14, 2),
    (0x05E00000#32, 0x05FBFFFF#32, 20, 2),
    (0x05FE0000#32, 0x05FEFFFF#32, 4, 2),
    (0x06000000#32, 0x07FFFFFF#32, 2, 2),
    (0xFFFFFE00#32, 0xFFFFFFFF#32, 2, 2)]

def ymirAccessCycles : AccessCycles := fun addr isWrite _ =>
  match regionTimings.find? fun region => inRange addr region.1 region.2.1 with
  | some (_, _, readCycles, writeCycles) => if isWrite then writeCycles else readCycles
  | none => if isWrite then 2 else 4

def estimateLocalWaitCycles (record : TraceRecord) (previousRecord : Option TraceRecord)
    (config : ArbiterConfig) : BitVec 32 :=
  match previousRecord with
  | none => 0
  | some previous =>
    let wait := if previous.addr = record.addr then BitVec.ofNat 32 config.sameAddressContention else 0
    let sh2Tie : Bool :=
      match parseMaster previous.master, parseMaster record.master with
      | some prevMaster, some curMaster =>
        previous.tickFirstAttempt = record.tickFirstAttempt && prevMaster ≠ .dma &&
          curMaster ≠ .dma && prevMaster ≠ curMaster
      | _, _ => false
    if sh2Tie then wait + BitVec.ofNat 32 config.tieTurnaround else wait

/-! ### Sorting and filtering -/

/-- The order of the sort: not later by completion tick, then by sequence number. -/
def notAfter (a b : TraceRecord) : Bool :=
  if a.tickComplete ≠ b.tickComplete then a.tickComplete < b.tickComplete else a.seq ≤ b.seq

/-- `std::stable_sort`. -/
def sortRecords (records : List TraceRecord) : List TraceRecord := records.mergeSort notAfter

abbrev Counts := String → Option Nat

/-- `counts[key] += n`. -/
def Counts.add (counts : Counts) (key : String) (n : Nat) : Counts :=
  Function.update counts key (some ((counts key).getD 0 + n))

structure Filtered where
  records : List TraceRecord := []
  includedMaster : Counts := fun _ => none
  includedRegion : Counts := fun _ => none
  includedSize : Counts := fun _ => none
  includedRw : Counts := fun _ => none
  includedAccessKind : Counts := fun _ => none
  includedMasterRegion : Counts := fun _ => none
  includedCacheBucket : Counts := fun _ => none
  includedMasterRegionAccessKindCacheBucket : Counts := fun _ => none
  excludedReason : Counts := fun _ => none
  knownGapBucket : Counts := fun _ => none

def Filtered.step (f : Filtered) (record : TraceRecord) : Filtered :=
  match parseMaster record.master with
  | none => { f with excludedReason := f.excludedReason.add "invalid_master" 1 }
  | some _ =>
    let region := regionName record.addr
    let bucket := classifyCacheBucket record.addr record.serviceCycles
    { records := f.records ++ [record]
      includedMaster := f.includedMaster.add record.master 1
      includedRegion := f.includedRegion.add region 1
      includedSize := f.includedSize.add (sizeLabel record.size) 1
      includedRw := f.includedRw.add record.rw 1
      includedAccessKind := f.includedAccessKind.add record.kind 1
      includedMasterRegion := f.includedMasterRegion.add (record.master ++ " | " ++ region) 1
      includedCacheBucket := f.includedCacheBucket.add bucket 1
      includedMasterRegionAccessKindCacheBucket :=
        f.includedMasterRegionAccessKindCacheBucket.add
          (record.master ++ " | " ++ region ++ " | " ++ record.kind ++ " | " ++ bucket) 1
      excludedReason := f.excludedReason
      knownGapBucket :=
        if record.size = 1 then f.knownGapBucket.add "byte_access_wait_check_gap_candidate" 1
        else f.knownGapBucket }

/-! ### Replaying -/

structure ReplayResult where
  record : TraceRecord := {}
  observedServiceCycles : BitVec 32 := 0
  observedRetries : BitVec 32 := 0
  ymirServiceCycles : BitVec 32 := 0
  ymirRetries : BitVec 32 := 0
  ymirElapsed : BitVec 32 := 0
  ymirWait : BitVec 32 := 0
  ymirWaitMetricKind : String := ""
  cacheBucket : String := ""
  arbiterPredictedService : BitVec 32 := 0
  arbiterPredictedWait : BitVec 32 := 0
  arbiterPredictedTotal : BitVec 32 := 0
  baseLatency : BitVec 32 := 0
  contentionStall : BitVec 32 := 0
  totalPredicted : BitVec 32 := 0
  normalizedDeltaWait : Int := 0
  normalizedDeltaTotal : Int := 0
  cumulativeDriftWait : Int := 0
  cumulativeDriftTotal : Int := 0
  classification : String := ""
  knownGapReason : String := ""
deriving DecidableEq, Repr

structure ObservedBucketStats where
  sampleSize : Nat := 0
  observedWaitNonzeroCount : Nat := 0
  observedElapsedValues : List Int := []
  observedWaitValues : List Int := []
deriving DecidableEq, Repr

def ObservedBucketStats.add (stats : ObservedBucketStats) (elapsed wait : BitVec 32) :
    ObservedBucketStats where
  sampleSize := stats.sampleSize + 1
  observedWaitNonzeroCount := stats.observedWaitNonzeroCount + if wait > 0 then 1 else 0
  observedElapsedValues := stats.observedElapsedValues ++ [(elapsed.toNat : Int)]
  observedWaitValues := stats.observedWaitValues ++ [(wait.toNat : Int)]

/-- What the trace itself says about a record. -/
def observe (record : TraceRecord) : ReplayResult :=
  let r : ReplayResult :=
    { record
      observedServiceCycles := record.serviceCycles
      observedRetries := record.retries }
  let exactTicks := record.tickComplete ≥ record.tickFirstAttempt
  let elapsed :=
    if exactTicks then (record.tickComplete - record.tickFirstAttempt).setWidth 32
    else r.ymirRetries * r.ymirServiceCycles + r.ymirServiceCycles
  { r with
    ymirElapsed := elapsed
    ymirWaitMetricKind :=
      if exactTicks then "exact_tick_elapsed_exclusive" else "proxy_retries_x_service"
    ymirWait := if elapsed > r.ymirServiceCycles then elapsed - r.ymirServiceCycles else 0
    cacheBucket := classifyCacheBucket record.addr r.ymirServiceCycles }

/-- The request that is committed for a record. -/
def requestOf (master : BusMasterId) (record : TraceRecord) : BusRequest where
  masterId := master
  addr := record.addr
  isWrite := record.rw = "W"
  sizeBytes := record.size.toNat
  nowTick := record.tickFirstAttempt.toNat

/-- What the model says about a record, with the bus free before and after it. -/
def compareModel (r : ReplayResult) (previousRecord : Option TraceRecord) (before after : Nat) :
    ReplayResult :=
  let record := r.record
  let wait := estimateLocalWaitCycles record previousRecord {}
  let service := BitVec.ofNat 32
    (max 1 (ymirAccessCycles record.addr (record.rw = "W") record.size.toNat))
  let total := wait + service
  let deltaWait : Int := (wait.toNat : Int) - (r.ymirWait.toNat : Int)
  let arbiterStart := BitVec.ofNat 64 (max before record.tickFirstAttempt.toNat)
  let driftWait := (arbiterStart - record.tickFirstAttempt).toInt
  let driftTotal := (BitVec.ofNat 64 after - (record.tickComplete + 1)).toInt
  let knownByteGap := record.size = 1 ∧ r.ymirRetries = 0 ∧ deltaWait > 0
  { r with
    arbiterPredictedWait := wait
    arbiterPredictedService := service
    arbiterPredictedTotal := total
    baseLatency := service
    contentionStall := wait
    totalPredicted := total
    normalizedDeltaWait := deltaWait
    normalizedDeltaTotal := (total.toNat : Int) - (r.ymirElapsed.toNat : Int)
    cumulativeDriftWait := driftWait
    cumulativeDriftTotal := driftTotal
    classification :=
      if knownByteGap then "known_ymir_wait_model_gap"
      else if driftWait = 0 ∧ driftTotal = 0 then "agreement"
      else "mismatch"
    knownGapReason := if knownByteGap then "byte_access_wait_check_gap" else "" }

/-- Everything the loop adds up. -/
structure Replayed where
  arbiter : Arbiter := .fresh ymirAccessCycles
  previousRecord : Option TraceRecord := none
  results : List ReplayResult := []
  knownGapCount : Nat := 0
  knownGapByteAccessCount : Nat := 0
  cumulativeAgreementCount : Nat := 0
  cumulativeMismatchCount : Nat := 0
  normalizedAgreementCount : Nat := 0
  normalizedMismatchCount : Nat := 0
  histogram : Counts := fun _ => none
  normalizedByMaster : Counts := fun _ => none
  normalizedByRegion : Counts := fun _ => none
  normalizedBySize : Counts := fun _ => none
  normalizedMismatchByMasterRegionAccessKind : Counts := fun _ => none
  sampleSizeByMasterRegionAccessKind : Counts := fun _ => none
  normalizedDeltaByAccessKind : String → Option (List Int) := fun _ => none
  observedBucketStats : String → Option ObservedBucketStats := fun _ => none
  normalizedWaitDeltas : List Int := []

namespace Replayed

/-- The bucket of the observed figures of a record. -/
def observeBucket (s : Replayed) (r : ReplayResult) : Replayed :=
  let key := r.record.master ++ " | " ++ regionName r.record.addr ++ " | " ++ r.record.kind ++
    " | " ++ r.cacheBucket
  { s with
    observedBucketStats := Function.update s.observedBucketStats key
      (some (((s.observedBucketStats key).getD {}).add r.ymirElapsed r.ymirWait)) }

/-- The counters of a comparison. -/
def count (s : Replayed) (r : ReplayResult) : Replayed :=
  let record := r.record
  let region := regionName record.addr
  let gap := r.classification = "known_ymir_wait_model_gap"
  let missed := if r.normalizedDeltaWait = 0 then 0 else 1
  let mk := record.master ++ " | " ++ region ++ " | " ++ record.kind
  { s with
    knownGapCount := s.knownGapCount + if gap then 1 else 0
    knownGapByteAccessCount := s.knownGapByteAccessCount + if gap then 1 else 0
    cumulativeAgreementCount :=
      s.cumulativeAgreementCount + if r.classification = "agreement" then 1 else 0
    cumulativeMismatchCount :=
      s.cumulativeMismatchCount + if r.classification = "mismatch" then 1 else 0
    normalizedAgreementCount :=
      s.normalizedAgreementCount + if r.normalizedDeltaWait = 0 then 1 else 0
    normalizedMismatchCount := s.normalizedMismatchCount + missed
    histogram := s.histogram.add (region ++ " | " ++ r.classification) 1
    normalizedByMaster := s.normalizedByMaster.add record.master missed
    normalizedByRegion := s.normalizedByRegion.add region missed
    normalizedBySize := s.normalizedBySize.add (toString record.size.toNat) missed
    sampleSizeByMasterRegionAccessKind := s.sampleSizeByMasterRegionAccessKind.add mk 1
    normalizedMismatchByMasterRegionAccessKind :=
      if r.normalizedDeltaWait ≠ 0 then s.normalizedMismatchByMasterRegionAccessKind.add mk 1
      else s.normalizedMismatchByMasterRegionAccessKind
    normalizedDeltaByAccessKind := Function.update s.normalizedDeltaByAccessKind record.kind
      (some ((s.normalizedDeltaByAccessKind record.kind).getD [] ++ [r.normalizedDeltaWait]))
    normalizedWaitDeltas := s.normalizedWaitDeltas ++ [r.normalizedDeltaWait] }

/-- One record, with or without the comparison against the model.  The filter
leaves no record of an unknown master. -/
def step (includeModelComparison : Bool) (s : Replayed) (record : TraceRecord) : Replayed :=
  match parseMaster record.master with
  | none => s
  | some master =>
    let observed := observe record
    let s := s.observeBucket observed
    if includeModelComparison then
      let arbiter := s.arbiter.commitGrant (requestOf master record)
        record.tickFirstAttempt.toNat false
      let r := compareModel observed s.previousRecord s.arbiter.busFreeTick arbiter.busFreeTick
      let s := s.count r
      { s with
        arbiter
        previousRecord := some record
        results := s.results ++ [r] }
    else
      let r := { observed with
        classification := if observed.ymirWait > 0 then "wait_nonzero" else "wait_zero" }
      { s with
        histogram := s.histogram.add (regionName record.addr ++ " | " ++ r.classification) 1
        cumulativeAgreementCount := s.cumulativeAgreementCount + 1
        results := s.results ++ [r] }

end Replayed

/-- What is reported of a replay. -/
structure Report where
  filtered : Filtered
  replayed : Replayed
  totalEvents : Nat
  includedEvents : Nat
  excludedEvents : Nat

/-- What is reported of the filtered records, with the counters of the loader
that are reported as events. -/
def report (includeModelComparison : Bool) (malformedLines nonemptyLines : Nat)
    (filtered : Filtered) : Report where
  filtered := { filtered with
    excludedReason := filtered.excludedReason.add "malformed_line" malformedLines }
  replayed := filtered.records.foldl (Replayed.step includeModelComparison) {}
  totalEvents := nonemptyLines
  includedEvents := filtered.records.length
  excludedEvents :=
    if nonemptyLines ≥ filtered.records.length then nonemptyLines - filtered.records.length else 0

/-- `main`, from the loaded records on. -/
def replay (includeModelComparison : Bool) (malformedLines nonemptyLines : Nat)
    (records : List TraceRecord) : Report :=
  report includeModelComparison malformedLines nonemptyLines
    ((sortRecords records).foldl Filtered.step {})

end Saturnis.Replay
