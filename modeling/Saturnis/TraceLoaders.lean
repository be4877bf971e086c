/-
One trace in two formats.

The same field tuples are rendered as JSON lines and as the BTR1 records that
the test encoder packs.  Both loaders take records of the same positions, with
the same fields and the same counters (`Agree`), exactly when every tuple has
documented enumerators and a size of 1, 2 or 4 (`agree_iff`): `parse_record`
checks none of these, and the binary loader skips a record that fails.
Documented values come back from the layout of the test encoder, which is that
of the host struct (`recovers_layouts`).

Cycles and retries beyond 32 bits are no difference, both loaders truncate them.
-/
import Saturnis.TraceFormat
import Saturnis.TraceLines

namespace Saturnis.Replay

open LittleEndian

/-! ### The records of the test encoder -/

namespace FieldTuple

/-- `struct.pack("<QQQQQI4B", …)`. -/
def encode (t : FieldTuple) : List Byte :=
  leBytes 8 t.seq.toNat ++ (leBytes 8 t.tickFirstAttempt.toNat ++
    (leBytes 8 t.tickComplete.toNat ++ (leBytes 8 t.serviceCycles.toNat ++
      (leBytes 8 t.retries.toNat ++ (leBytes 4 t.addr.toNat ++
        [t.size, t.master, t.rw, t.kind])))))

theorem length_encode (t : FieldTuple) : t.encode.length = binaryRecordSize := by
  simp [encode, binaryRecordSize]

/-- The fields have the values that the format document names. -/
def Documented (t : FieldTuple) : Prop :=
  (∃ m : Master, t.master = m.code) ∧ (∃ d : Rw, t.rw = d.code) ∧
    (∃ k : AccessKind, t.kind = k.code) ∧ ∃ s : AccessSize, t.size = s.code

/-- The host struct has the layout of the test encoder. -/
theorem ofBytes_encode (t : FieldTuple) :
    BinaryTraceRecordV1.ofBytes t.encode =
      ⟨t.seq, t.tickFirstAttempt, t.tickComplete, t.serviceCycles, t.retries, t.addr, t.size,
        t.master, t.rw, t.kind⟩ := by
  have hbyte : ∀ b : Byte, BitVec.ofNat 8 (leNat [b]) = b := by
    intro b
    rw [leNat_cons, leNat_nil, Nat.mul_zero, Nat.add_zero, BitVec.ofNat_toNat, BitVec.setWidth_eq]
  have hslices : slice t.encode 0 8 = leBytes 8 t.seq.toNat ∧
      slice t.encode 8 8 = leBytes 8 t.tickFirstAttempt.toNat ∧
      slice t.encode 16 8 = leBytes 8 t.tickComplete.toNat ∧
      slice t.encode 24 8 = leBytes 8 t.serviceCycles.toNat ∧
      slice t.encode 32 8 = leBytes 8 t.retries.toNat ∧
      slice t.encode 40 4 = leBytes 4 t.addr.toNat ∧
      slice t.encode 44 1 = [t.size] ∧ slice t.encode 45 1 = [t.master] ∧
      slice t.encode 46 1 = [t.rw] ∧ slice t.encode 47 1 = [t.kind] := by
    refine ⟨?_, ?_, ?_, ?_, ?_, ?_, ?_, ?_, ?_, ?_⟩
    all_goals
      simp [encode, slice, List.drop_append, List.drop_eq_nil_of_le, List.take_of_length_le]
  obtain ⟨hseq, htfa, htc, hservice, hretries, haddr, hsize, hmaster, hrw, hkind⟩ := hslices
  rw [BinaryTraceRecordV1.ofBytes, hseq, htfa, htc, hservice, hretries, haddr, hsize, hmaster, hrw,
    hkind, hbyte, hbyte, hbyte, hbyte]
  simp only [leNat_leBytes_toNat _ (show 2 ^ 64 = 256 ^ 8 by norm_num),
    leNat_leBytes_toNat _ (show 2 ^ 32 = 256 ^ 4 by norm_num), BitVec.ofNat_toNat,
    BitVec.setWidth_eq]

end FieldTuple

def binaryFile (ts : List FieldTuple) : List Byte :=
  binaryHeader ++ (ts.map FieldTuple.encode).flatten

theorem loadBinaryRecords_binaryFile (ts : List FieldTuple) :
    loadBinaryRecords (binaryFile ts) =
      (true, Loading.takeAll {} (decodeAll 0 (ts.map FieldTuple.encode))) := by
  refine loadBinaryRecords_header _ fun raw hraw => ?_
  obtain ⟨t, -, rfl⟩ := List.mem_map.mp hraw
  exact t.length_encode

/-! ### Documented records in the layout of the test encoder -/

/-- The field values as the host struct has them, cycles and retries widened. -/
def DocumentedRecord.tuple (r : DocumentedRecord) : FieldTuple :=
  ⟨r.seq, r.tickFirstAttempt, r.tickComplete, r.serviceCycles.setWidth 64, r.retries.setWidth 64,
    r.addr, r.size.code, r.master.code, r.rw.code, r.kind.code⟩

/-- The loader reads exactly the records of a file in the layout of the host
struct, in order, and skips none. -/
def RecoversStruct (rs : List DocumentedRecord) : Prop :=
  ∃ l, loadBinaryRecords (binaryFile (rs.map DocumentedRecord.tuple)) = (true, l) ∧
    l.records.map TraceRecord.fields = rs.map DocumentedRecord.fields ∧
      l.stats.malformedLines = 0

theorem decode_tuple (r : DocumentedRecord) (index : Nat) :
    ((BinaryTraceRecordV1.ofBytes r.tuple.encode).decode index).map TraceRecord.fields =
      some r.fields := by
  rw [FieldTuple.ofBytes_encode, decode_fields_eq_some_iff]
  refine ⟨r.master, r.rw, r.kind, r.size, rfl, rfl, rfl, rfl, ?_⟩
  have hwidth : ∀ x : BitVec 32, (x.setWidth 64).setWidth 32 = x := fun x => by
    rw [BitVec.setWidth_setWidth_of_le x (by decide), BitVec.setWidth_eq]
  change r.fields = ⟨_, _, _, _, _, _, _, _, (r.serviceCycles.setWidth 64).setWidth 32,
    (r.retries.setWidth 64).setWidth 32⟩
  rw [hwidth, hwidth]
  rfl

theorem decodeAll_tuples (rs : List DocumentedRecord) (index : Nat) :
    (decodeAll index ((rs.map DocumentedRecord.tuple).map FieldTuple.encode)).map
      (Option.map TraceRecord.fields) = (rs.map DocumentedRecord.fields).map some := by
  induction rs generalizing index with
  | nil => rfl
  | cons r rs ih =>
    rw [List.map_cons, List.map_cons, decodeAll_cons, List.map_cons, List.map_cons, List.map_cons,
      ih, decode_tuple]

/-- **A file in the layout of the host struct comes back**; one in the layout of
the document does where the fields that the two layouts mix up coincide. -/
theorem recovers_layouts (rs : List DocumentedRecord) :
    RecoversStruct rs ∧ (Recovers rs ↔ ∀ r ∈ rs, r.Coincides) := by
  have hsize : ∀ raw ∈ (rs.map DocumentedRecord.tuple).map FieldTuple.encode,
      raw.length = binaryRecordSize := by
    intro raw hraw
    obtain ⟨t, -, rfl⟩ := List.mem_map.mp hraw
    exact t.length_encode
  have hlen : ((rs.map DocumentedRecord.tuple).map FieldTuple.encode).length =
      (rs.map DocumentedRecord.fields).length := by
    simp only [List.length_map]
  exact ⟨(loads_fields_iff hsize hlen).mpr (decodeAll_tuples rs 0), recovers_iff rs⟩

/-! ### Agreement -/

/-- Both loaders succeed, take the records of the same positions, with the same
fields, and count the same. -/
structure Agree (names : Names) (ts : List FieldTuple) : Prop where
  jsonl : (loadJsonlRecords (jsonlFile names ts)).1 = true
  binary : (loadBinaryRecords (binaryFile ts)).1 = true
  accepted : (loadJsonlRecords (jsonlFile names ts)).2.records.map (·.sourceLine) =
    (loadBinaryRecords (binaryFile ts)).2.records.map (·.sourceLine)
  fields : (loadJsonlRecords (jsonlFile names ts)).2.records.map (·.fields) =
    (loadBinaryRecords (binaryFile ts)).2.records.map (·.fields)
  stats : (loadJsonlRecords (jsonlFile names ts)).2.stats =
    (loadBinaryRecords (binaryFile ts)).2.stats

/-- A record up to the text of its address. -/
def TraceRecord.numbered (rec : TraceRecord) : Nat × TraceFields := (rec.sourceLine, rec.fields)

/-- Two loaders that have taken the same records, up to address texts. -/
structure Alike (a b : Loading) : Prop where
  records : a.records.map TraceRecord.numbered = b.records.map TraceRecord.numbered
  stats : a.stats = b.stats
  seenSeqValues : a.seenSeqValues = b.seenSeqValues
  previousSeq : a.previousSeq = b.previousSeq

theorem Alike.take {a b : Loading} (h : Alike a b) {p q : Option TraceRecord}
    (hpq : p.map TraceRecord.numbered = q.map TraceRecord.numbered) :
    Alike (a.take p) (b.take q) := by
  cases p with
  | none =>
    rw [Option.map_none, eq_comm, Option.map_eq_none_iff] at hpq
    subst hpq
    exact ⟨h.records, by rw [Loading.take, Loading.take, h.stats], h.seenSeqValues, h.previousSeq⟩
  | some r =>
    obtain ⟨r', rfl, hr⟩ := Option.map_eq_some_iff.mp hpq.symm
    have hseq : r.seq = r'.seq := by
      have hfields : r'.fields = r.fields := congrArg Prod.snd hr
      exact (congrArg TraceFields.seq hfields).symm
    refine ⟨?_, ?_, ?_, ?_⟩
    · show (a.records ++ [r]).map _ = (b.records ++ [r']).map _
      rw [List.map_append, List.map_append, h.records, List.map_singleton, List.map_singleton, hr]
    · show InputStats.mk _ _ _ _ = InputStats.mk _ _ _ _
      rw [h.stats, h.seenSeqValues, h.previousSeq, hseq]
    · show r.seq :: a.seenSeqValues = r'.seq :: b.seenSeqValues
      rw [h.seenSeqValues, hseq]
    · exact congrArg some hseq

theorem Alike.takeAll {a b : Loading} (h : Alike a b) {ps qs : List (Option TraceRecord)}
    (hpq : ps.map (Option.map TraceRecord.numbered) = qs.map (Option.map TraceRecord.numbered)) :
    Alike (a.takeAll ps) (b.takeAll qs) := by
  induction ps generalizing a b qs with
  | nil =>
    rw [List.map_nil, eq_comm, List.map_eq_nil_iff] at hpq
    subst hpq
    exact h
  | cons p ps ih =>
    obtain ⟨q, qs', rfl, hq, hqs⟩ := List.map_eq_cons_iff.mp hpq.symm
    exact ih (h.take hq.symm) hqs.symm

/-! ### One tuple -/

variable {names : Names} {t : FieldTuple}

/-- A documented tuple is the same record in both formats. -/
theorem numbered_of_documented (h : t.Documented) (index : Nat) :
    (parseRecord (t.line names) (index + 1)).map TraceRecord.numbered =
      ((BinaryTraceRecordV1.ofBytes t.encode).decode index).map TraceRecord.numbered := by
  obtain ⟨⟨m, hm⟩, ⟨d, hd⟩, ⟨k, hk⟩, ⟨s, hs⟩⟩ := h
  have hmaster := decodeMaster_eq_some_iff.mpr ⟨m, hm, rfl⟩
  have hrw := decodeRw_eq_some_iff.mpr ⟨d, hd, rfl⟩
  have hkind := decodeKind_eq_some_iff.mpr ⟨k, hk, rfl⟩
  rw [parseRecord_line, FieldTuple.ofBytes_encode, BinaryTraceRecordV1.decode]
  dsimp only
  rw [hmaster, hrw, hkind, names.master_eq _ _ hmaster, names.rw_eq _ _ hrw,
    names.kind_eq _ _ hkind, String.ofList_toList, String.ofList_toList, String.ofList_toList]
  dsimp only
  rw [if_pos (size_valid_iff.mpr ⟨s, hs⟩)]

theorem documented_of_isSome {index : Nat}
    (h : ((BinaryTraceRecordV1.ofBytes t.encode).decode index).isSome = true) : t.Documented := by
  obtain ⟨r, hr⟩ := Option.isSome_iff_exists.mp h
  have hfields : ((BinaryTraceRecordV1.ofBytes t.encode).decode index).map TraceRecord.fields =
      some r.fields := by rw [hr, Option.map_some]
  rw [FieldTuple.ofBytes_encode] at hfields
  obtain ⟨m, d, k, s, hm, hd, hk, hs, -⟩ := decode_fields_eq_some_iff.mp hfields
  exact ⟨⟨m, hm⟩, ⟨d, hd⟩, ⟨k, hk⟩, ⟨s, hs⟩⟩

/-! ### All tuples -/

theorem numbered_all {ts : List FieldTuple} (names : Names) (h : ∀ t ∈ ts, t.Documented)
    (index : Nat) :
    (parseAll index (ts.map (FieldTuple.line names))).map (Option.map TraceRecord.numbered) =
      (decodeAll index (ts.map FieldTuple.encode)).map (Option.map TraceRecord.numbered) := by
  induction ts generalizing index with
  | nil => rfl
  | cons t ts ih =>
    rw [List.map_cons, List.map_cons, parseAll_cons, decodeAll_cons, List.map_cons, List.map_cons,
      numbered_of_documented (h t (List.mem_cons_self ..)),
      ih fun t ht => h t (List.mem_cons_of_mem _ ht)]

theorem parseAll_isSome (ts : List FieldTuple) (index : Nat) :
    ∀ p ∈ parseAll index (ts.map (FieldTuple.line names)), p.isSome = true := by
  induction ts generalizing index with
  | nil => exact fun p hp => absurd hp List.not_mem_nil
  | cons t ts ih =>
    rw [List.map_cons, parseAll_cons, parseRecord_line, List.forall_mem_cons]
    exact ⟨rfl, ih (index + 1)⟩

theorem documented_of_decodeAll {ts : List FieldTuple} (index : Nat)
    (h : ∀ p ∈ decodeAll index (ts.map FieldTuple.encode), p.isSome = true) :
    ∀ t ∈ ts, t.Documented := by
  induction ts generalizing index with
  | nil => exact fun t ht => absurd ht List.not_mem_nil
  | cons t ts ih =>
    rw [List.map_cons, decodeAll_cons, List.forall_mem_cons] at h
    rw [List.forall_mem_cons]
    exact ⟨documented_of_isSome h.1, ih (index + 1) h.2⟩

/-- **The two loaders agree** exactly on tuples of documented values. -/
theorem agree_iff (names : Names) (ts : List FieldTuple) :
    Agree names ts ↔ ∀ t ∈ ts, t.Documented := by
  have hjsonl := loadJsonlRecords_jsonlFile names ts
  have hbinary := loadBinaryRecords_binaryFile ts
  constructor
  · intro h
    refine documented_of_decodeAll 0 (List.reduceOption_length_eq_iff.mp ?_)
    -- no line is malformed, so no binary record is
    have hstats := h.stats
    rw [hjsonl, hbinary] at hstats
    have hlines := Loading.takeAll_malformed {} (parseAll 0 (ts.map (FieldTuple.line names)))
    have hrecords := Loading.takeAll_malformed {} (decodeAll 0 (ts.map FieldTuple.encode))
    rw [List.reduceOption_length_eq_iff.mpr (parseAll_isSome ts 0)] at hlines
    have hmal := congrArg InputStats.malformedLines hstats
    have hzero : (({} : Loading).stats).malformedLines = 0 := rfl
    dsimp only at hmal
    omega
  · intro h
    have hempty : Alike {} {} := ⟨rfl, rfl, rfl, rfl⟩
    have halike := hempty.takeAll (numbered_all names h 0)
    refine ⟨by rw [hjsonl], by rw [hbinary], ?_, ?_, ?_⟩
    · rw [hjsonl, hbinary]
      have hlines := congrArg (List.map Prod.fst) halike.records
      rw [List.map_map, List.map_map] at hlines
      exact hlines
    · rw [hjsonl, hbinary]
      have hfields := congrArg (List.map Prod.snd) halike.records
      rw [List.map_map, List.map_map] at hfields
      exact hfields
    · rw [hjsonl, hbinary]
      exact halike.stats

theorem plain_getD {o : Option String} (h : ∀ text, o = some text → Plain text.toList) :
    Plain (o.getD "?").toList := by
  cases o with
  | none => decide
  | some text => exact h text rfl

/-- Undocumented enumerators are written as a question mark. -/
def Names.documented : Names where
  master value := ((decodeMaster value).getD "?").toList
  rw value := ((decodeRw value).getD "?").toList
  kind value := ((decodeKind value).getD "?").toList
  master_eq value text h := by rw [h, Option.getD_some]
  rw_eq value text h := by rw [h, Option.getD_some]
  kind_eq value text h := by rw [h, Option.getD_some]
  master_plain value := by
    refine plain_getD fun text h => ?_
    obtain ⟨m, -, rfl⟩ := decodeMaster_eq_some_iff.mp h
    cases m <;> decide
  rw_plain value := by
    refine plain_getD fun text h => ?_
    obtain ⟨d, -, rfl⟩ := decodeRw_eq_some_iff.mp h
    cases d <;> decide
  kind_plain value := by
    refine plain_getD fun text h => ?_
    obtain ⟨k, -, rfl⟩ := decodeKind_eq_some_iff.mp h
    cases k <;> decide

/-- A record of size 3 is taken from a JSON line and skipped in a binary file. -/
theorem not_agree_size_three :
    ¬ ∀ (names : Names) (ts : List FieldTuple), Agree names ts := by
  intro h
  have hstats := (h .documented [⟨1, 10, 12, 2, 0, 0x06004000, 3, 0, 0, 0⟩]).stats
  exact absurd (congrArg InputStats.malformedLines hstats) (by decide)

end Saturnis.Replay
