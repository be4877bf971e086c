/-
BTR1 files as the format document lays them out, and the loader that reads them.

The document and the host struct of the loader are both 48 bytes, and they agree
on the first three fields.  From byte 24 on the struct has 64-bit cycles and
retries where the document has 32-bit `addr`, `service_cycles` and `retries`,
and it looks for `addr`, `size`, `master`, `rw` and `kind` where the document
has the two reserved words.

* `ofBytes_encode` — what the loader sees in a documented record;
* `recovers_iff` — a file comes back exactly when every record of it has the
  same value in the fields that are taken for each other;
* `recovers_iff_nil` — with zero reserved words, no record comes back.
-/
import Mathlib.Tactic.SplitIfs
import Saturnis.TraceReplay

namespace Saturnis.Replay

open LittleEndian

/-! ### The documented values -/

inductive Master
  | msh2 | ssh2 | dma
deriving DecidableEq, Repr

inductive Rw
  | r | w
deriving DecidableEq, Repr

inductive AccessKind
  | ifetch | read | write | mmioRead | mmioWrite
deriving DecidableEq, Repr

inductive AccessSize
  | one | two | four
deriving DecidableEq, Repr

def Master.code : Master → Byte
  | msh2 => 0
  | ssh2 => 1
  | dma => 2

def Master.text : Master → String
  | msh2 => "MSH2"
  | ssh2 => "SSH2"
  | dma => "DMA"

def Rw.code : Rw → Byte
  | r => 0
  | w => 1

def Rw.text : Rw → String
  | r => "R"
  | w => "W"

def AccessKind.code : AccessKind → Byte
  | ifetch => 0
  | read => 1
  | write => 2
  | mmioRead => 3
  | mmioWrite => 4

def AccessKind.text : AccessKind → String
  | ifetch => "ifetch"
  | read => "read"
  | write => "write"
  | mmioRead => "mmio_read"
  | mmioWrite => "mmio_write"

def AccessSize.code : AccessSize → Byte
  | one => 1
  | two => 2
  | four => 4

theorem decodeMaster_eq_some_iff {value : Byte} {text : String} :
    decodeMaster value = some text ↔ ∃ m : Master, value = m.code ∧ text = m.text := by
  constructor
  · intro h
    unfold decodeMaster at h
    split_ifs at h with h0 h1 h2
    · exact ⟨.msh2, h0, (Option.some_inj.mp h).symm⟩
    · exact ⟨.ssh2, h1, (Option.some_inj.mp h).symm⟩
    · exact ⟨.dma, h2, (Option.some_inj.mp h).symm⟩
  · rintro ⟨m, rfl, rfl⟩
    cases m <;> rfl

theorem decodeRw_eq_some_iff {value : Byte} {text : String} :
    decodeRw value = some text ↔ ∃ d : Rw, value = d.code ∧ text = d.text := by
  constructor
  · intro h
    unfold decodeRw at h
    split_ifs at h with h0 h1
    · exact ⟨.r, h0, (Option.some_inj.mp h).symm⟩
    · exact ⟨.w, h1, (Option.some_inj.mp h).symm⟩
  · rintro ⟨d, rfl, rfl⟩
    cases d <;> rfl

theorem decodeKind_eq_some_iff {value : Byte} {text : String} :
    decodeKind value = some text ↔ ∃ k : AccessKind, value = k.code ∧ text = k.text := by
  constructor
  · intro h
    unfold decodeKind at h
    split_ifs at h with h0 h1 h2 h3 h4
    · exact ⟨.ifetch, h0, (Option.some_inj.mp h).symm⟩
    · exact ⟨.read, h1, (Option.some_inj.mp h).symm⟩
    · exact ⟨.write, h2, (Option.some_inj.mp h).symm⟩
    · exact ⟨.mmioRead, h3, (Option.some_inj.mp h).symm⟩
    · exact ⟨.mmioWrite, h4, (Option.some_inj.mp h).symm⟩
  · rintro ⟨k, rfl, rfl⟩
    cases k <;> rfl

theorem Master.code_of_text {m m' : Master} (h : m.text = m'.text) : m.code = m'.code := by
  cases m <;> cases m' <;> first | rfl | exact absurd h (by decide)

theorem Rw.code_of_text {d d' : Rw} (h : d.text = d'.text) : d.code = d'.code := by
  cases d <;> cases d' <;> first | rfl | exact absurd h (by decide)

theorem AccessKind.code_of_text {k k' : AccessKind} (h : k.text = k'.text) : k.code = k'.code := by
  cases k <;> cases k' <;> first | rfl | exact absurd h (by decide)

theorem size_valid_iff {value : Byte} :
    (value = 1 ∨ value = 2 ∨ value = 4) ↔ ∃ s : AccessSize, value = s.code := by
  constructor
  · rintro (h | h | h)
    · exact ⟨.one, h⟩
    · exact ⟨.two, h⟩
    · exact ⟨.four, h⟩
  · rintro ⟨s, rfl⟩
    cases s <;> decide

/-- The fields of a decoded record. -/
theorem decode_fields_eq_some_iff {raw : BinaryTraceRecordV1} {index : Nat} {f : TraceFields} :
    (raw.decode index).map TraceRecord.fields = some f ↔
      ∃ (m : Master) (d : Rw) (k : AccessKind) (s : AccessSize),
        raw.master = m.code ∧ raw.rw = d.code ∧ raw.kind = k.code ∧ raw.size = s.code ∧
          f = ⟨raw.seq, m.text, raw.tickFirstAttempt, raw.tickComplete, raw.addr, s.code, d.text,
            k.text, raw.serviceCycles.setWidth 32, raw.retries.setWidth 32⟩ := by
  constructor
  · intro h
    rw [BinaryTraceRecordV1.decode] at h
    split at h
    · rename_i master rw kind hmaster hrw hkind
      obtain ⟨m, hm, rfl⟩ := decodeMaster_eq_some_iff.mp hmaster
      obtain ⟨d, hd, rfl⟩ := decodeRw_eq_some_iff.mp hrw
      obtain ⟨k, hk, rfl⟩ := decodeKind_eq_some_iff.mp hkind
      split at h
      · rename_i hsize
        obtain ⟨s, hs⟩ := size_valid_iff.mp hsize
        exact ⟨m, d, k, s, hm, hd, hk, hs, by rw [← Option.some_inj.mp h, ← hs]; rfl⟩
      · exact absurd h (by simp)
    · exact absurd h (by simp)
  · rintro ⟨m, d, k, s, hm, hd, hk, hs, rfl⟩
    rw [BinaryTraceRecordV1.decode, decodeMaster_eq_some_iff.mpr ⟨m, hm, rfl⟩,
      decodeRw_eq_some_iff.mpr ⟨d, hd, rfl⟩, decodeKind_eq_some_iff.mpr ⟨k, hk, rfl⟩]
    dsimp only
    rw [if_pos (size_valid_iff.mpr ⟨s, hs⟩), ← hs]
    rfl

/-! ### Documented files -/

/-- A record with the fields of the document, in its order. -/
structure DocumentedRecord where
  seq : BitVec 64
  tickFirstAttempt : BitVec 64
  tickComplete : BitVec 64
  addr : BitVec 32
  serviceCycles : BitVec 32
  retries : BitVec 32
  master : Master
  rw : Rw
  size : AccessSize
  kind : AccessKind
  reserved0 : BitVec 32 := 0
  reserved1 : BitVec 32 := 0
deriving DecidableEq, Repr

namespace DocumentedRecord

def fields (r : DocumentedRecord) : TraceFields :=
  ⟨r.seq, r.master.text, r.tickFirstAttempt, r.tickComplete, r.addr, r.size.code, r.rw.text,
    r.kind.text, r.serviceCycles, r.retries⟩

/-- The 48 bytes of a record. -/
def encode (r : DocumentedRecord) : List Byte :=
  leBytes 8 r.seq.toNat ++ (leBytes 8 r.tickFirstAttempt.toNat ++
    (leBytes 8 r.tickComplete.toNat ++ (leBytes 4 r.addr.toNat ++
      (leBytes 4 r.serviceCycles.toNat ++ (leBytes 4 r.retries.toNat ++
        ([r.master.code, r.rw.code, r.size.code, r.kind.code] ++
          (leBytes 4 r.reserved0.toNat ++ leBytes 4 r.reserved1.toNat)))))))

theorem length_encode (r : DocumentedRecord) : r.encode.length = binaryRecordSize := by
  simp [encode, binaryRecordSize]

/-- The record has the same value in fields that the loader takes for each
other: `addr` is read as `service_cycles`, `reserved0` as `addr`, and the bytes
of `reserved1` as `size`, `master`, `rw` and `kind`. -/
def Coincides (r : DocumentedRecord) : Prop :=
  r.serviceCycles = r.addr ∧ r.reserved0 = r.addr ∧
    leBytes 4 r.reserved1.toNat = [r.size.code, r.master.code, r.rw.code, r.kind.code]

instance (r : DocumentedRecord) : Decidable r.Coincides := inferInstanceAs (Decidable (_ ∧ _))

end DocumentedRecord

def documentedFile (rs : List DocumentedRecord) : List Byte :=
  binaryHeader ++ (rs.map DocumentedRecord.encode).flatten

/-- The loader reads exactly the records of the file, in order, and skips none. -/
def Recovers (rs : List DocumentedRecord) : Prop :=
  ∃ l, loadBinaryRecords (documentedFile rs) = (true, l) ∧
    l.records.map TraceRecord.fields = rs.map DocumentedRecord.fields ∧
      l.stats.malformedLines = 0

theorem leNat_leBytes_toNat {w n : Nat} (x : BitVec w) (hn : 2 ^ w = 256 ^ n) :
    leNat (leBytes n x.toNat) = x.toNat :=
  leNat_leBytes (hn ▸ x.isLt)

/-- The fields of the struct, as bytes of the documented record. -/
theorem slice_encode (r : DocumentedRecord) :
    slice r.encode 0 8 = leBytes 8 r.seq.toNat ∧
      slice r.encode 8 8 = leBytes 8 r.tickFirstAttempt.toNat ∧
      slice r.encode 16 8 = leBytes 8 r.tickComplete.toNat ∧
      slice r.encode 24 8 = leBytes 4 r.addr.toNat ++ leBytes 4 r.serviceCycles.toNat ∧
      slice r.encode 32 8 =
        leBytes 4 r.retries.toNat ++ [r.master.code, r.rw.code, r.size.code, r.kind.code] ∧
      slice r.encode 40 4 = leBytes 4 r.reserved0.toNat ∧
      slice r.encode 44 4 = leBytes 4 r.reserved1.toNat := by
  refine ⟨?_, ?_, ?_, ?_, ?_, ?_, ?_⟩
  all_goals
    simp [DocumentedRecord.encode, slice, List.drop_append, List.take_append,
      List.drop_eq_nil_of_le, List.take_of_length_le]

/-- What the loader sees in a documented record. -/
theorem ofBytes_encode (r : DocumentedRecord) {b0 b1 b2 b3 : Byte}
    (hbytes : leBytes 4 r.reserved1.toNat = [b0, b1, b2, b3]) :
    BinaryTraceRecordV1.ofBytes r.encode =
      { seq := r.seq
        tickFirstAttempt := r.tickFirstAttempt
        tickComplete := r.tickComplete
        serviceCycles := BitVec.ofNat 64 (r.addr.toNat + 2 ^ 32 * r.serviceCycles.toNat)
        retries := BitVec.ofNat 64 (r.retries.toNat +
          2 ^ 32 * leNat [r.master.code, r.rw.code, r.size.code, r.kind.code])
        addr := r.reserved0
        size := b0
        master := b1
        rw := b2
        kind := b3 } := by
  obtain ⟨hseq, htfa, htc, hservice, hretries, haddr, hlast⟩ := slice_encode r
  have hbyte : ∀ b : Byte, BitVec.ofNat 8 (leNat [b]) = b := by
    intro b
    rw [leNat_cons, leNat_nil, Nat.mul_zero, Nat.add_zero, BitVec.ofNat_toNat, BitVec.setWidth_eq]
  -- the last four bytes are those of `reserved1`
  have hreserved : ∀ i < 4, slice r.encode (44 + i) 1 = slice [b0, b1, b2, b3] i 1 := by
    intro i hi
    rw [← hbytes, ← hlast]
    exact (slice_slice (by omega)).symm
  have hsize : slice r.encode 44 1 = [b0] := hreserved 0 (by omega)
  have hmaster : slice r.encode 45 1 = [b1] := hreserved 1 (by omega)
  have hrw : slice r.encode 46 1 = [b2] := hreserved 2 (by omega)
  have hkind : slice r.encode 47 1 = [b3] := hreserved 3 (by omega)
  rw [BinaryTraceRecordV1.ofBytes, hseq, htfa, htc, hservice, hretries, haddr, hsize, hmaster, hrw,
    hkind, hbyte, hbyte, hbyte, hbyte, leNat_append, leNat_append, length_leBytes, length_leBytes]
  simp only [leNat_leBytes_toNat _ (show 2 ^ 64 = 256 ^ 8 by norm_num),
    leNat_leBytes_toNat _ (show 2 ^ 32 = 256 ^ 4 by norm_num), BitVec.ofNat_toNat,
    BitVec.setWidth_eq]
  rfl

/-- The low word of two is the first. -/
theorem setWidth_ofNat_add (x : BitVec 32) (y : Nat) :
    (BitVec.ofNat 64 (x.toNat + 2 ^ 32 * y)).setWidth 32 = x := by
  have hx := x.isLt
  rw [← BitVec.toNat_inj, BitVec.toNat_setWidth, BitVec.toNat_ofNat]
  omega

/-- The loader reads a documented record as itself where the fields it takes
for each other coincide. -/
theorem decode_encode_iff (r : DocumentedRecord) (index : Nat) :
    ((BinaryTraceRecordV1.ofBytes r.encode).decode index).map TraceRecord.fields = some r.fields ↔
      r.Coincides := by
  obtain ⟨b0, b1, b2, b3, hbytes⟩ : ∃ b0 b1 b2 b3, leBytes 4 r.reserved1.toNat = [b0, b1, b2, b3] :=
    ⟨_, _, _, _, rfl⟩
  rw [ofBytes_encode r hbytes, decode_fields_eq_some_iff, DocumentedRecord.Coincides, hbytes]
  dsimp only
  rw [setWidth_ofNat_add, setWidth_ofNat_add, DocumentedRecord.fields]
  constructor
  · rintro ⟨m, d, k, s, rfl, rfl, rfl, rfl, hfields⟩
    simp only [TraceFields.mk.injEq] at hfields
    obtain ⟨-, hmaster, -, -, haddr, hsize, hrw, hkind, hservice, -⟩ := hfields
    refine ⟨hservice, haddr.symm, ?_⟩
    rw [hsize, Master.code_of_text hmaster, Rw.code_of_text hrw, AccessKind.code_of_text hkind]
  · rintro ⟨hservice, haddr, hlast⟩
    simp only [List.cons.injEq, and_true] at hlast
    obtain ⟨rfl, rfl, rfl, rfl⟩ := hlast
    exact ⟨r.master, r.rw, r.kind, r.size, rfl, rfl, rfl, rfl, by rw [haddr, hservice]⟩

/-- A list of optional records holds exactly some records, and nothing else. -/
theorem map_reduceOption_eq_iff {α β : Type*} (f : α → β) {os : List (Option α)} {l : List β}
    (hlen : os.length = l.length) :
    os.reduceOption.map f = l ↔ os.map (Option.map f) = l.map some := by
  induction os generalizing l with
  | nil =>
    rw [List.eq_nil_of_length_eq_zero hlen.symm]
    exact ⟨fun _ => rfl, fun _ => rfl⟩
  | cons o os ih =>
    obtain ⟨y, l, rfl⟩ : ∃ y l', l = y :: l' := List.exists_cons_of_length_eq_add_one hlen.symm
    have hlen' : os.length = l.length := Nat.succ.inj hlen
    cases o with
    | none =>
      rw [List.reduceOption_cons_of_none]
      constructor
      · intro h
        -- too few records are left
        have hle := os.reduceOption_length_le
        have hcount := congrArg List.length h
        rw [List.length_map, List.length_cons] at hcount
        omega
      · intro h
        exact absurd (List.cons.inj h).1 (by simp)
    | some x =>
      rw [List.reduceOption_cons_of_some, List.map_cons, List.map_cons, List.map_cons,
        List.cons.injEq, List.cons.injEq, ih hlen', Option.map_some, Option.some_inj]

theorem decodeAll_fields_iff (rs : List DocumentedRecord) (index : Nat) :
    (decodeAll index (rs.map DocumentedRecord.encode)).map (Option.map TraceRecord.fields) =
      (rs.map DocumentedRecord.fields).map some ↔ ∀ r ∈ rs, r.Coincides := by
  induction rs generalizing index with
  | nil => exact ⟨fun _ r hr => absurd hr List.not_mem_nil, fun _ => rfl⟩
  | cons r rs ih =>
    rw [List.map_cons, decodeAll_cons, List.map_cons, List.map_cons, List.map_cons, List.cons.injEq,
      ih, decode_encode_iff, List.forall_mem_cons]

/-- A file of whole records comes back as some fields exactly when each record does. -/
theorem loads_fields_iff {chunks : List (List Byte)} {fs : List TraceFields}
    (hsize : ∀ raw ∈ chunks, raw.length = binaryRecordSize) (hlen : chunks.length = fs.length) :
    (∃ l, loadBinaryRecords (binaryHeader ++ chunks.flatten) = (true, l) ∧
        l.records.map TraceRecord.fields = fs ∧ l.stats.malformedLines = 0) ↔
      (decodeAll 0 chunks).map (Option.map TraceRecord.fields) = fs.map some := by
  have hload := loadBinaryRecords_header chunks hsize
  have hdecoded : (decodeAll 0 chunks).length = fs.length := by
    rw [decodeAll, List.length_mapIdx, hlen]
  have hrecords : (Loading.takeAll {} (decodeAll 0 chunks)).records =
      (decodeAll 0 chunks).reduceOption :=
    (Loading.takeAll_records _ _).trans (List.nil_append _)
  have hiff := map_reduceOption_eq_iff TraceRecord.fields hdecoded
  constructor
  · rintro ⟨l, hl, hfields, -⟩
    rw [hload] at hl
    rw [← (Prod.mk.inj hl).2, hrecords] at hfields
    exact hiff.mp hfields
  · intro h
    refine ⟨_, hload, by rw [hrecords]; exact hiff.mpr h, ?_⟩
    have hmal := Loading.takeAll_malformed {} (decodeAll 0 chunks)
    have hcount := congrArg List.length (hiff.mpr h)
    rw [List.length_map] at hcount
    have hzero : (({} : Loading).stats).malformedLines = 0 := rfl
    omega

/-- **A documented file comes back** exactly when the fields that the loader
takes for each other coincide in every record. -/
theorem recovers_iff (rs : List DocumentedRecord) : Recovers rs ↔ ∀ r ∈ rs, r.Coincides := by
  have hsize : ∀ raw ∈ rs.map DocumentedRecord.encode, raw.length = binaryRecordSize := by
    intro raw hraw
    obtain ⟨r, -, rfl⟩ := List.mem_map.mp hraw
    exact r.length_encode
  exact (loads_fields_iff hsize (by rw [List.length_map, List.length_map])).trans
    (decodeAll_fields_iff rs 0)

/-- With zero reserved words every record is taken for one of size 0 and skipped. -/
theorem recovers_iff_nil {rs : List DocumentedRecord} (hzero : ∀ r ∈ rs, r.reserved1 = 0) :
    Recovers rs ↔ rs = [] := by
  rw [recovers_iff]
  constructor
  · intro h
    refine List.eq_nil_iff_forall_not_mem.mpr fun r hr => ?_
    obtain ⟨-, -, hlast⟩ := h r hr
    rw [hzero r hr] at hlast
    have hsize := (List.cons.inj hlast).1
    cases hs : r.size <;> rw [hs] at hsize <;> exact absurd hsize (by decide)
  · rintro rfl
    exact fun r hr => absurd hr List.not_mem_nil

/-- The record of the document's example, with zero reserved words, is skipped. -/
theorem not_recovers_documented_example :
    ¬ ∀ rs : List DocumentedRecord, Recovers rs := by
  intro h
  have hnil := (recovers_iff_nil (by simp)).mp
    (h [⟨1, 1042, 1044, 0x06004000, 2, 0, .msh2, .r, .four, .ifetch, 0, 0⟩])
  exact absurd hnil (by simp)

end Saturnis.Replay
