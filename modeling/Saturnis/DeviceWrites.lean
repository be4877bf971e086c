/-
What one MMIO write does to the device state.

`DeviceHub.store` tells the registers apart in the order of the source.  The
cases of `Stored` are its branches; the lemmas after it say, field by field of
the hub, which writes move the field and to what.

* `MmioWrite.bits` — the written bits at their register position;
* `MmioWrite.Pulses` — the write makes VDP1 signal a completion;
* `perform_scuInterruptPending`, `perform_scuInterruptSourcePending`,
  `perform_vdp1CommandPending` — the latched bits after a write;
* `perform_smpc_of_ne`, `perform_vdp1LastCommand_of_ne`, `perform_vdp1IrqLevel_of_ne`,
  `perform_counters` — the fields that keep their value unless their register
  is written.
-/
import Saturnis.Devices
import Saturnis.BitLanes

namespace Saturnis.Dev

open Saturnis.Mem BitLanes

/-- The arguments of one call of `DeviceHub.write`. -/
structure MmioWrite where
  t : Nat
  cpu : Int
  addr : Addr
  size : Nat
  value : Word

namespace MmioWrite

/-- The word register the write addresses. -/
def register (w : MmioWrite) : Addr := DeviceHub.wordAddr w.addr

def lanes (w : MmioWrite) : Word := sizeMask w.size <<< laneShift w.addr w.size

/-- The written bits at their register position, zero outside the lanes. -/
def bits (w : MmioWrite) : Word := (w.value <<< laneShift w.addr w.size) &&& w.lanes

theorem bits_within (w : MmioWrite) : Within w.bits w.lanes :=
  within_and _ _

/-- The write selects bit `i` of one of the 16-bit set and clear registers. -/
def SelectsBit (w : MmioWrite) (i : Nat) : Prop :=
  i < 16 ∧ w.bits.getLsbD i = true

/-- The write makes VDP1 signal a completion, given whether a command is pending. -/
def Pulses (w : MmioWrite) (commandPending : Prop) : Prop :=
  w.bits.getLsbD 0 = true ∧
    (w.register = kVdp1EventTriggerAddr ∨
      (w.register = kVdp1CommandCompleteAddr ∧ commandPending))

/-- The write sets bit `i` of the SCU source bits. -/
def SetsSource (w : MmioWrite) (commandPending : Prop) (i : Nat) : Prop :=
  (w.register = kScuIstSourceSetAddr ∧ w.SelectsBit i) ∨
    (i = 5 ∧ (w.Pulses commandPending ∨
      (w.register = kVdp1ScuIrqBridgeAddr ∧ w.bits.getLsbD 0 = true)))

/-- The write clears bit `i` of the SCU source bits. -/
def ClearsSource (w : MmioWrite) (i : Nat) : Prop :=
  ((w.register = kScuIstSourceClearAddr ∨ w.register = kScuIstClearAddr) ∧ w.SelectsBit i) ∨
    (i = 5 ∧ w.register = kVdp1ScuIrqBridgeAddr ∧ ¬ w.bits.getLsbD 0 = true)

/-- The write submits a VDP1 command. -/
def StartsCommand (w : MmioWrite) : Prop :=
  w.register = kVdp1CommandAddr ∧ w.bits &&& 0xFF#32 ≠ 0

/-- The write ends a pending VDP1 command. -/
def EndsCommand (w : MmioWrite) : Prop :=
  (w.register = kVdp1CommandAddr ∧ w.bits &&& 0xFF#32 = 0) ∨
    (w.bits.getLsbD 0 = true ∧
      (w.register = kVdp1EventTriggerAddr ∨ w.register = kVdp1CommandCompleteAddr))

theorem getLsbD_lowHalf (w : MmioWrite) (i : Nat) :
    (w.bits &&& 0x0000FFFF#32).getLsbD i = true ↔ w.SelectsBit i := by
  have hmask : (0x0000FFFF#32 : Word).getLsbD i = decide (i < 16) :=
    Nat.testBit_two_pow_sub_one 16 i
  rw [BitVec.getLsbD_and, hmask, Bool.and_eq_true, decide_eq_true_eq, and_comm]
  rfl

end MmioWrite

theorem MmioWrite.Pulses.register_eq {w : MmioWrite} {commandPending : Prop}
    (h : w.Pulses commandPending) :
    w.register = kVdp1EventTriggerAddr ∨ w.register = kVdp1CommandCompleteAddr :=
  h.2.imp_right And.left

/-- The registers through which a write can move the SCU source bits. -/
def sourceRegisters : List Addr :=
  [kScuIstClearAddr, kScuIstSourceSetAddr, kScuIstSourceClearAddr, kVdp1ScuIrqBridgeAddr,
    kVdp1EventTriggerAddr, kVdp1CommandCompleteAddr]

theorem MmioWrite.SetsSource.register_mem {w : MmioWrite} {commandPending : Prop} {i : Nat}
    (h : w.SetsSource commandPending i) :
    w.register ∈ [kScuIstSourceSetAddr, kVdp1ScuIrqBridgeAddr, kVdp1EventTriggerAddr,
      kVdp1CommandCompleteAddr] := by
  rcases h with ⟨hreg, -⟩ | ⟨-, hpulse | ⟨hreg, -⟩⟩
  · rw [hreg]; decide
  · rcases hpulse.register_eq with hreg | hreg
    all_goals rw [hreg]; decide
  · rw [hreg]; decide

theorem MmioWrite.ClearsSource.register_mem {w : MmioWrite} {i : Nat}
    (h : w.ClearsSource i) :
    w.register ∈ [kScuIstSourceClearAddr, kScuIstClearAddr, kVdp1ScuIrqBridgeAddr] := by
  rcases h with ⟨hreg | hreg, -⟩ | ⟨-, hreg, -⟩
  all_goals rw [hreg]; decide

/-- No write both sets and clears a source bit. -/
theorem MmioWrite.SetsSource.not_clears {w : MmioWrite} {commandPending : Prop} {i : Nat}
    (hsets : w.SetsSource commandPending i) : ¬ w.ClearsSource i := by
  intro hclears
  have hclearing := hclears.register_mem
  rcases hsets with ⟨hreg, -⟩ | ⟨-, hpulse | ⟨hreg, hbit⟩⟩
  · rw [hreg] at hclearing
    exact absurd hclearing (by decide)
  · rcases hpulse.register_eq with hreg | hreg
    all_goals
      rw [hreg] at hclearing
      exact absurd hclearing (by decide)
  · -- The bridge sets for a one and clears for a zero.
    rcases hclears with ⟨hclear | hclear, -⟩ | ⟨-, -, hlow⟩
    · exact absurd (hreg.symm.trans hclear) (by decide)
    · exact absurd (hreg.symm.trans hclear) (by decide)
    · exact hlow hbit

/-- A write to any other register leaves the source bits alone. -/
theorem MmioWrite.source_untouched (w : MmioWrite) {commandPending p : Prop} {i : Nat}
    (hreg : w.register ∉ sourceRegisters) :
    p ↔ w.SetsSource commandPending i ∨ (p ∧ ¬ w.ClearsSource i) := by
  have hsets : ¬ w.SetsSource commandPending i := fun hsets => by
    have hmem := hsets.register_mem
    simp only [sourceRegisters, List.mem_cons, List.not_mem_nil, or_false] at hmem hreg
    tauto
  have hclears : ¬ w.ClearsSource i := fun hclears => by
    have hmem := hclears.register_mem
    simp only [sourceRegisters, List.mem_cons, List.not_mem_nil, or_false] at hmem hreg
    tauto
  simp only [hsets, hclears, false_or, not_false_eq_true, and_true]

/-- The registers through which a write can start or end a VDP1 command. -/
def commandRegisters : List Addr :=
  [kVdp1CommandAddr, kVdp1EventTriggerAddr, kVdp1CommandCompleteAddr]

/-- A write to any other register leaves the pending command alone. -/
theorem MmioWrite.command_untouched (w : MmioWrite) {p : Prop}
    (hreg : w.register ∉ commandRegisters) :
    p ↔ w.StartsCommand ∨ (p ∧ ¬ w.EndsCommand) := by
  simp only [commandRegisters, List.mem_cons, List.not_mem_nil, or_false, not_or] at hreg
  simp only [MmioWrite.StartsCommand, MmioWrite.EndsCommand, hreg, false_and, and_false, or_self,
    false_or, not_false_eq_true, and_true]

theorem getLsbD_vdp1ScuIrqMask (i : Nat) : kVdp1ScuIrqMask.getLsbD i = true ↔ i = 5 := by
  have htwoPow : kVdp1ScuIrqMask = BitVec.twoPow 32 5 := rfl
  rw [htwoPow, BitVec.getLsbD_twoPow, Bool.and_eq_true, decide_eq_true_eq, decide_eq_true_eq]
  omega

theorem and_one_ne_zero (x : Word) : x &&& 0x1#32 ≠ 0 ↔ x.getLsbD 0 = true := by
  rw [BitVec.and_one_eq_setWidth_ofBool_getLsbD]
  cases x.getLsbD 0 <;> decide

/-- The registers that the source handles before the plain ones. -/
def eventRegisters : List Addr :=
  [kScuIstAddr, kScuIstClearAddr, kScuIstSourceSetAddr, kScuIstSourceClearAddr, kSmpcCommandAddr,
    kVdp1ScuIrqBridgeAddr, kVdp1CommandAddr, kVdp1EventTriggerAddr, kVdp1CommandCompleteAddr]

theorem sourceRegisters_subset : sourceRegisters ⊆ eventRegisters := by
  decide

theorem commandRegisters_subset : commandRegisters ⊆ eventRegisters := by
  decide

/-- The writable bits of a register, all of them where it has no specification. -/
def writableMask (wordAddr : Addr) : Word :=
  ((registerSpec wordAddr).map (·.writableMask)).getD 0xFFFFFFFF#32

/-- The branches of `DeviceHub.store`, with the hub each leaves. -/
inductive Stored (d : DeviceHub) (w : MmioWrite) : DeviceHub → Prop
  | istSet (hreg : w.register = kScuIstAddr) :
      Stored d w
        { d with scuInterruptPending := d.scuInterruptPending ||| (w.bits &&& 0x0000FFFF#32) }
  | istClear (hreg : w.register = kScuIstClearAddr) :
      Stored d w
        { d with
          scuInterruptPending := d.scuInterruptPending &&& ~~~(w.bits &&& 0x0000FFFF#32)
          scuInterruptSourcePending :=
            d.scuInterruptSourcePending &&& ~~~(w.bits &&& 0x0000FFFF#32) }
  | sourceSet (hreg : w.register = kScuIstSourceSetAddr) :
      Stored d w
        { d with
          scuInterruptSourcePending :=
            d.scuInterruptSourcePending ||| (w.bits &&& 0x0000FFFF#32) }
  | sourceClear (hreg : w.register = kScuIstSourceClearAddr) :
      Stored d w
        { d with
          scuInterruptSourcePending :=
            d.scuInterruptSourcePending &&& ~~~(w.bits &&& 0x0000FFFF#32) }
  | smpcCommand (hreg : w.register = kSmpcCommandAddr) :
      Stored d w
        { d with
          smpcLastCommand := w.bits &&& 0x000000FF#32
          smpcCommandResult := 0xA5000000#32 ||| (w.bits &&& 0x000000FF#32) }
  | raise (hreg : w.register = kVdp1ScuIrqBridgeAddr) (hlevel : w.bits.getLsbD 0 = true) :
      Stored d w
        { d with
          vdp1IrqLevel := w.bits &&& 0x1#32
          scuInterruptSourcePending := d.scuInterruptSourcePending ||| kVdp1ScuIrqMask }
  | lower (hreg : w.register = kVdp1ScuIrqBridgeAddr) (hlevel : ¬ w.bits.getLsbD 0 = true) :
      Stored d w
        { d with
          vdp1IrqLevel := w.bits &&& 0x1#32
          scuInterruptSourcePending := d.scuInterruptSourcePending &&& ~~~kVdp1ScuIrqMask }
  | vdp1Command (hreg : w.register = kVdp1CommandAddr) :
      Stored d w
        { d with
          vdp1LastCommand := w.bits &&& 0xFF#32
          vdp1CommandPending := decide (w.bits &&& 0xFF#32 ≠ 0) }
  | pulse (hpulse : w.Pulses (d.vdp1CommandPending = true)) :
      Stored d w d.signalVdp1Completion
  | noPulse
      (hreg : w.register = kVdp1EventTriggerAddr ∨ w.register = kVdp1CommandCompleteAddr)
      (hpulse : ¬ w.Pulses (d.vdp1CommandPending = true)) :
      Stored d w d
  | readOnly (hreg : w.register ∉ eventRegisters)
      (hmask : w.lanes &&& writableMask w.register = 0) : Stored d w d
  | plain (hreg : w.register ∉ eventRegisters) :
      Stored d w
        { d with
          mmioRegs := Function.update d.mmioRegs w.register
            (some ((readPersistedOrZero d.mmioRegs w.register &&&
                ~~~(w.lanes &&& writableMask w.register)) |||
              (w.bits &&& (w.lanes &&& writableMask w.register)))) }

namespace DeviceHub

/-- The write, as its arguments in one value. -/
def perform (d : DeviceHub) (w : MmioWrite) : DeviceHub :=
  d.write w.t w.cpu w.addr w.size w.value

/-- The hub after a sequence of writes to a fresh one. -/
def performAll (ws : List MmioWrite) : DeviceHub :=
  ws.foldl DeviceHub.perform {}

theorem stored_store (d : DeviceHub) (w : MmioWrite) :
    Stored d w (d.store w.addr w.size w.value) := by
  by_cases hist : w.register = kScuIstAddr
  · have hstore : d.store w.addr w.size w.value = _ := if_pos hist
    rw [hstore]
    exact .istSet hist
  have hrest₁ : d.store w.addr w.size w.value = _ := if_neg hist
  by_cases hclear : w.register = kScuIstClearAddr
  · rw [hrest₁.trans (if_pos hclear)]
    exact .istClear hclear
  have hrest₂ := hrest₁.trans (if_neg hclear)
  by_cases hset : w.register = kScuIstSourceSetAddr
  · rw [hrest₂.trans (if_pos hset)]
    exact .sourceSet hset
  have hrest₃ := hrest₂.trans (if_neg hset)
  by_cases hsource : w.register = kScuIstSourceClearAddr
  · rw [hrest₃.trans (if_pos hsource)]
    exact .sourceClear hsource
  have hrest₄ := hrest₃.trans (if_neg hsource)
  by_cases hsmpc : w.register = kSmpcCommandAddr
  · rw [hrest₄.trans (if_pos hsmpc)]
    exact .smpcCommand hsmpc
  have hrest₅ := hrest₄.trans (if_neg hsmpc)
  by_cases hbridge : w.register = kVdp1ScuIrqBridgeAddr
  · have hstore := hrest₅.trans (if_pos hbridge)
    -- The level is the written bit 0, masked a second time before it is tested.
    have hlevel : w.bits &&& 0x1#32 &&& 0x1#32 ≠ 0 ↔ w.bits.getLsbD 0 = true := by
      rw [BitVec.and_assoc, BitVec.and_self]
      exact and_one_ne_zero w.bits
    by_cases hraise : w.bits.getLsbD 0 = true
    · have hsource : (if w.bits &&& 0x1#32 &&& 0x1#32 ≠ 0
          then d.scuInterruptSourcePending ||| kVdp1ScuIrqMask
          else d.scuInterruptSourcePending &&& ~~~kVdp1ScuIrqMask) = _ :=
        if_pos (hlevel.mpr hraise)
      have hbranch := Stored.raise (d := d) hbridge hraise
      rw [← hsource] at hbranch
      exact hstore ▸ hbranch
    · have hsource : (if w.bits &&& 0x1#32 &&& 0x1#32 ≠ 0
          then d.scuInterruptSourcePending ||| kVdp1ScuIrqMask
          else d.scuInterruptSourcePending &&& ~~~kVdp1ScuIrqMask) = _ :=
        if_neg (mt hlevel.mp hraise)
      have hbranch := Stored.lower (d := d) hbridge hraise
      rw [← hsource] at hbranch
      exact hstore ▸ hbranch
  have hrest₆ := hrest₅.trans (if_neg hbridge)
  by_cases hcommand : w.register = kVdp1CommandAddr
  · rw [hrest₆.trans (if_pos hcommand)]
    exact .vdp1Command hcommand
  have hrest₇ := hrest₆.trans (if_neg hcommand)
  by_cases htrigger : w.register = kVdp1EventTriggerAddr
  · have hstore := hrest₇.trans (if_pos htrigger)
    by_cases hbit : w.bits.getLsbD 0 = true
    · rw [hstore.trans (if_pos ((and_one_ne_zero w.bits).mpr hbit))]
      exact .pulse ⟨hbit, Or.inl htrigger⟩
    · rw [hstore.trans (if_neg (mt (and_one_ne_zero w.bits).mp hbit))]
      exact .noPulse (Or.inl htrigger) fun hpulse => hbit hpulse.1
  have hrest₈ := hrest₇.trans (if_neg htrigger)
  by_cases hcomplete : w.register = kVdp1CommandCompleteAddr
  · have hstore := hrest₈.trans (if_pos hcomplete)
    by_cases hbit : w.bits.getLsbD 0 = true ∧ d.vdp1CommandPending = true
    · rw [hstore.trans (if_pos ⟨(and_one_ne_zero w.bits).mpr hbit.1, hbit.2⟩)]
      exact .pulse ⟨hbit.1, Or.inr ⟨hcomplete, hbit.2⟩⟩
    · rw [hstore.trans (if_neg fun hboth =>
        hbit ⟨(and_one_ne_zero w.bits).mp hboth.1, hboth.2⟩)]
      refine .noPulse (Or.inr hcomplete) fun hpulse => ?_
      rcases hpulse.2 with hreg | ⟨-, hpending⟩
      · exact htrigger hreg
      · exact hbit ⟨hpulse.1, hpending⟩
  have hrest₉ := hrest₈.trans (if_neg hcomplete)
  have hplain : w.register ∉ eventRegisters := by
    simp only [eventRegisters, List.mem_cons, List.not_mem_nil, or_false, not_or]
    exact ⟨hist, hclear, hset, hsource, hsmpc, hbridge, hcommand, htrigger, hcomplete⟩
  by_cases hmask : w.lanes &&& writableMask w.register = 0
  · rw [hrest₉.trans (if_pos hmask)]
    exact .readOnly hplain hmask
  · rw [hrest₉.trans (if_neg hmask)]
    exact .plain hplain

/-- The hub a write leaves, the logged write aside. -/
theorem stored_perform (d : DeviceHub) (w : MmioWrite) :
    Stored { d with writes := d.writes ++ [MmioWriteLog.mk w.t w.cpu w.addr w.value] } w
      (d.perform w) :=
  stored_store _ w

theorem perform_scuInterruptPending (d : DeviceHub) (w : MmioWrite) (i : Nat) :
    (d.perform w).scuInterruptPending.getLsbD i = true ↔
      (w.register = kScuIstAddr ∧ w.SelectsBit i) ∨
        (d.scuInterruptPending.getLsbD i = true ∧
          ¬ (w.register = kScuIstClearAddr ∧ w.SelectsBit i)) := by
  have hstored := stored_perform d w
  generalize d.perform w = d' at hstored ⊢
  have hlow := w.getLsbD_lowHalf i
  cases hstored with
  | istSet hreg =>
      rw [BitVec.getLsbD_or, Bool.or_eq_true, hlow, hreg]
      simp [kScuIstAddr, kScuIstClearAddr, or_comm]
  | istClear hreg =>
      rw [getLsbD_andNot, hlow, hreg]
      simp [kScuIstAddr, kScuIstClearAddr]
  | sourceSet hreg => simp [hreg, kScuIstAddr, kScuIstClearAddr, kScuIstSourceSetAddr]
  | sourceClear hreg => simp [hreg, kScuIstAddr, kScuIstClearAddr, kScuIstSourceClearAddr]
  | smpcCommand hreg => simp [hreg, kScuIstAddr, kScuIstClearAddr, kSmpcCommandAddr]
  | raise hreg => simp [hreg, kScuIstAddr, kScuIstClearAddr, kVdp1ScuIrqBridgeAddr]
  | lower hreg => simp [hreg, kScuIstAddr, kScuIstClearAddr, kVdp1ScuIrqBridgeAddr]
  | vdp1Command hreg => simp [hreg, kScuIstAddr, kScuIstClearAddr, kVdp1CommandAddr]
  | pulse hpulse =>
      rcases hpulse.register_eq with hreg | hreg
      all_goals simp [hreg, signalVdp1Completion, kScuIstAddr, kScuIstClearAddr,
        kVdp1EventTriggerAddr, kVdp1CommandCompleteAddr]
  | noPulse hreg =>
      rcases hreg with hreg | hreg
      all_goals simp [hreg, kScuIstAddr, kScuIstClearAddr, kVdp1EventTriggerAddr,
        kVdp1CommandCompleteAddr]
  | readOnly hreg => simp_all [eventRegisters]
  | plain hreg => simp_all [eventRegisters]

theorem perform_scuInterruptSourcePending (d : DeviceHub) (w : MmioWrite) (i : Nat) :
    (d.perform w).scuInterruptSourcePending.getLsbD i = true ↔
      w.SetsSource (d.vdp1CommandPending = true) i ∨
        (d.scuInterruptSourcePending.getLsbD i = true ∧ ¬ w.ClearsSource i) := by
  have hstored := stored_perform d w
  generalize d.perform w = d' at hstored ⊢
  have hlow := w.getLsbD_lowHalf i
  cases hstored with
  | istSet hreg => exact w.source_untouched (by rw [hreg]; decide)
  | istClear hreg =>
      -- The status bits go, and with them the source bits.
      have hsets : ¬ w.SetsSource (d.vdp1CommandPending = true) i := fun hsets =>
        absurd (hreg ▸ hsets.register_mem) (by decide)
      have hclears : w.ClearsSource i ↔ w.SelectsBit i := by
        simp [MmioWrite.ClearsSource, hreg, kScuIstClearAddr, kScuIstSourceClearAddr,
          kVdp1ScuIrqBridgeAddr]
      exact getLsbD_andNot_iff (hlow.trans hclears.symm) hsets
  | sourceSet hreg =>
      have hclears : ¬ w.ClearsSource i := fun hclears =>
        absurd (hreg ▸ hclears.register_mem) (by decide)
      have hsets : w.SetsSource (d.vdp1CommandPending = true) i ↔ w.SelectsBit i := by
        simp [MmioWrite.SetsSource, MmioWrite.Pulses, hreg, kScuIstSourceSetAddr,
          kVdp1EventTriggerAddr, kVdp1CommandCompleteAddr, kVdp1ScuIrqBridgeAddr]
      exact getLsbD_or_iff (hlow.trans hsets.symm) hclears
  | sourceClear hreg =>
      have hsets : ¬ w.SetsSource (d.vdp1CommandPending = true) i := fun hsets =>
        absurd (hreg ▸ hsets.register_mem) (by decide)
      have hclears : w.ClearsSource i ↔ w.SelectsBit i := by
        simp [MmioWrite.ClearsSource, hreg, kScuIstSourceClearAddr, kVdp1ScuIrqBridgeAddr]
      exact getLsbD_andNot_iff (hlow.trans hclears.symm) hsets
  | smpcCommand hreg => exact w.source_untouched (by rw [hreg]; decide)
  | raise hreg hlevel =>
      -- The bridge sets bit 5 alone.
      have hsets : w.SetsSource (d.vdp1CommandPending = true) i ↔ i = 5 := by
        simp [MmioWrite.SetsSource, MmioWrite.Pulses, hreg, hlevel, kScuIstSourceSetAddr,
          kVdp1EventTriggerAddr, kVdp1CommandCompleteAddr, kVdp1ScuIrqBridgeAddr]
      have hclears : ¬ w.ClearsSource i := by
        simp [MmioWrite.ClearsSource, hreg, hlevel, kScuIstSourceClearAddr, kScuIstClearAddr,
          kVdp1ScuIrqBridgeAddr]
      exact getLsbD_or_iff ((getLsbD_vdp1ScuIrqMask i).trans hsets.symm) hclears
  | lower hreg hlevel =>
      have hsets : ¬ w.SetsSource (d.vdp1CommandPending = true) i := by
        rintro (⟨hset, -⟩ | ⟨-, hpulse | ⟨-, hbit⟩⟩)
        · exact absurd (hset.symm.trans hreg) (by decide)
        · exact hlevel hpulse.1
        · exact hlevel hbit
      have hclears : w.ClearsSource i ↔ i = 5 := by
        constructor
        · rintro (⟨hclear | hclear, -⟩ | ⟨hfive, -⟩)
          · exact absurd (hclear.symm.trans hreg) (by decide)
          · exact absurd (hclear.symm.trans hreg) (by decide)
          · exact hfive
        · exact fun hfive => Or.inr ⟨hfive, hreg, hlevel⟩
      exact getLsbD_andNot_iff ((getLsbD_vdp1ScuIrqMask i).trans hclears.symm) hsets
  | vdp1Command hreg => exact w.source_untouched (by rw [hreg]; decide)
  | pulse hpulse =>
      have hclears : ¬ w.ClearsSource i := fun hclears => by
        rcases hpulse.register_eq with hreg | hreg
        all_goals exact absurd (hreg ▸ hclears.register_mem) (by decide)
      have hsets : w.SetsSource (d.vdp1CommandPending = true) i ↔ i = 5 := by
        constructor
        · rintro (⟨hreg, -⟩ | ⟨hfive, -⟩)
          · rcases hpulse.register_eq with hpulse | hpulse
            all_goals exact absurd (hreg.symm.trans hpulse) (by decide)
          · exact hfive
        · exact fun hfive => Or.inr ⟨hfive, Or.inl hpulse⟩
      -- A completion sets the bit of the bridge.
      show (d.scuInterruptSourcePending ||| kVdp1ScuIrqMask).getLsbD i = true ↔ _
      exact getLsbD_or_iff ((getLsbD_vdp1ScuIrqMask i).trans hsets.symm) hclears
  | noPulse hreg hpulse =>
      have hsets : ¬ w.SetsSource (d.vdp1CommandPending = true) i := by
        rintro (⟨hset, -⟩ | ⟨-, hset | ⟨hset, -⟩⟩)
        · rcases hreg with hreg | hreg
          all_goals exact absurd (hset.symm.trans hreg) (by decide)
        · exact hpulse hset
        · rcases hreg with hreg | hreg
          all_goals exact absurd (hset.symm.trans hreg) (by decide)
      have hclears : ¬ w.ClearsSource i := fun hclears => by
        rcases hreg with hreg | hreg
        all_goals exact absurd (hreg ▸ hclears.register_mem) (by decide)
      simp only [hsets, hclears, false_or, not_false_eq_true, and_true]
  | readOnly hreg => exact w.source_untouched fun hmem => hreg (sourceRegisters_subset hmem)
  | plain hreg => exact w.source_untouched fun hmem => hreg (sourceRegisters_subset hmem)

theorem perform_vdp1CommandPending (d : DeviceHub) (w : MmioWrite) :
    (d.perform w).vdp1CommandPending = true ↔
      w.StartsCommand ∨ (d.vdp1CommandPending = true ∧ ¬ w.EndsCommand) := by
  have hstored := stored_perform d w
  generalize d.perform w = d' at hstored ⊢
  cases hstored with
  | vdp1Command hreg =>
      have hends : w.EndsCommand ↔ w.bits &&& 0xFF#32 = 0 := by
        simp [MmioWrite.EndsCommand, hreg, kVdp1CommandAddr, kVdp1EventTriggerAddr,
          kVdp1CommandCompleteAddr]
      have hstarts : w.StartsCommand ↔ w.bits &&& 0xFF#32 ≠ 0 := by
        simp [MmioWrite.StartsCommand, hreg]
      rw [decide_eq_true_eq, hstarts, hends]
      by_cases hzero : w.bits &&& 0xFF#32 = 0
      · simp only [hzero, ne_eq, not_true_eq_false, and_false, or_false]
      · simp only [hzero, ne_eq, not_false_eq_true, true_or]
  | pulse hpulse =>
      have hstarts : ¬ w.StartsCommand := fun hstarts => by
        rcases hpulse.register_eq with hreg | hreg
        all_goals exact absurd (hstarts.1.symm.trans hreg) (by decide)
      have hends : w.EndsCommand := Or.inr ⟨hpulse.1, hpulse.register_eq⟩
      show false = true ↔ _
      simp only [Bool.false_eq_true, hstarts, hends, not_true_eq_false, and_false, or_false]
  | noPulse hreg hpulse =>
      have hstarts : ¬ w.StartsCommand := fun hstarts => by
        rcases hreg with hreg | hreg
        all_goals exact absurd (hstarts.1.symm.trans hreg) (by decide)
      simp only [hstarts, false_or, iff_self_and]
      -- A completion that finds a command pending would have been a pulse.
      rintro hpending (⟨hcommand, -⟩ | ⟨hbit, hreg⟩)
      · rcases hreg with hreg | hreg
        all_goals exact absurd (hcommand.symm.trans hreg) (by decide)
      · exact hpulse ⟨hbit, hreg.imp_right fun hreg => ⟨hreg, hpending⟩⟩
  | istSet hreg => exact w.command_untouched (by rw [hreg]; decide)
  | istClear hreg => exact w.command_untouched (by rw [hreg]; decide)
  | sourceSet hreg => exact w.command_untouched (by rw [hreg]; decide)
  | sourceClear hreg => exact w.command_untouched (by rw [hreg]; decide)
  | smpcCommand hreg => exact w.command_untouched (by rw [hreg]; decide)
  | raise hreg => exact w.command_untouched (by rw [hreg]; decide)
  | lower hreg => exact w.command_untouched (by rw [hreg]; decide)
  | readOnly hreg => exact w.command_untouched fun hmem => hreg (commandRegisters_subset hmem)
  | plain hreg => exact w.command_untouched fun hmem => hreg (commandRegisters_subset hmem)

/-- The SMPC command byte and its result move with a write to the command register only. -/
theorem perform_smpc_of_ne (d : DeviceHub) (w : MmioWrite) (h : w.register ≠ kSmpcCommandAddr) :
    (d.perform w).smpcLastCommand = d.smpcLastCommand ∧
      (d.perform w).smpcCommandResult = d.smpcCommandResult := by
  have hstored := stored_perform d w
  generalize d.perform w = d' at hstored ⊢
  cases hstored with
  | smpcCommand hreg => exact absurd hreg h
  | _ => exact ⟨rfl, rfl⟩

/-- What a write leaves in the registers of the commands and of the level. -/
theorem stored_written {d d' : DeviceHub} {w : MmioWrite} (h : Stored d w d') :
    (w.register = kSmpcCommandAddr → d'.smpcLastCommand = w.bits &&& 0xFF#32 ∧
        d'.smpcCommandResult = 0xA5000000#32 ||| (w.bits &&& 0xFF#32)) ∧
      (w.register = kVdp1CommandAddr → d'.vdp1LastCommand = w.bits &&& 0xFF#32) ∧
      (w.register = kVdp1ScuIrqBridgeAddr → d'.vdp1IrqLevel = w.bits &&& 0x1#32) := by
  -- Every branch is about one register, and the last two about none of the three.
  have hapart : ∀ {reg : Addr}, w.register = reg → reg ≠ kSmpcCommandAddr →
      reg ≠ kVdp1CommandAddr → reg ≠ kVdp1ScuIrqBridgeAddr → ∀ {p q r : Prop},
        (w.register = kSmpcCommandAddr → p) ∧ (w.register = kVdp1CommandAddr → q) ∧
          (w.register = kVdp1ScuIrqBridgeAddr → r) := by
    rintro reg rfl hsmpc hcommand hbridge p q r
    exact ⟨fun heq => absurd heq hsmpc, fun heq => absurd heq hcommand,
      fun heq => absurd heq hbridge⟩
  have hevent : w.register ∉ eventRegisters → w.register ≠ kSmpcCommandAddr ∧
      w.register ≠ kVdp1CommandAddr ∧ w.register ≠ kVdp1ScuIrqBridgeAddr := by
    intro hnot
    refine ⟨fun heq => hnot ?_, fun heq => hnot ?_, fun heq => hnot ?_⟩
    all_goals
      rw [heq]
      decide
  cases h with
  | smpcCommand hreg =>
      exact ⟨fun _ => ⟨rfl, rfl⟩, fun heq => absurd (heq.symm.trans hreg) (by decide),
        fun heq => absurd (heq.symm.trans hreg) (by decide)⟩
  | vdp1Command hreg =>
      exact ⟨fun heq => absurd (heq.symm.trans hreg) (by decide), fun _ => rfl,
        fun heq => absurd (heq.symm.trans hreg) (by decide)⟩
  | raise hreg | lower hreg =>
      exact ⟨fun heq => absurd (heq.symm.trans hreg) (by decide),
        fun heq => absurd (heq.symm.trans hreg) (by decide), fun _ => rfl⟩
  | pulse hpulse =>
      rcases hpulse.register_eq with hreg | hreg
      all_goals exact hapart hreg (by decide) (by decide) (by decide)
  | noPulse hreg =>
      rcases hreg with hreg | hreg
      all_goals exact hapart hreg (by decide) (by decide) (by decide)
  | readOnly hreg | plain hreg =>
      obtain ⟨hsmpc, hcommand, hbridge⟩ := hevent hreg
      exact hapart rfl hsmpc hcommand hbridge
  | _ hreg => exact hapart hreg (by decide) (by decide) (by decide)

theorem perform_smpc_of_eq (d : DeviceHub) (w : MmioWrite) (h : w.register = kSmpcCommandAddr) :
    (d.perform w).smpcLastCommand = w.bits &&& 0xFF#32 ∧
      (d.perform w).smpcCommandResult = 0xA5000000#32 ||| (w.bits &&& 0xFF#32) :=
  (stored_written (stored_perform d w)).1 h

theorem perform_vdp1LastCommand_of_eq (d : DeviceHub) (w : MmioWrite)
    (h : w.register = kVdp1CommandAddr) :
    (d.perform w).vdp1LastCommand = w.bits &&& 0xFF#32 :=
  (stored_written (stored_perform d w)).2.1 h

theorem perform_vdp1IrqLevel_of_bridge (d : DeviceHub) (w : MmioWrite)
    (h : w.register = kVdp1ScuIrqBridgeAddr) :
    (d.perform w).vdp1IrqLevel = w.bits &&& 0x1#32 :=
  (stored_written (stored_perform d w)).2.2 h

theorem perform_vdp1LastCommand_of_ne (d : DeviceHub) (w : MmioWrite)
    (h : w.register ≠ kVdp1CommandAddr) :
    (d.perform w).vdp1LastCommand = d.vdp1LastCommand := by
  have hstored := stored_perform d w
  generalize d.perform w = d' at hstored ⊢
  cases hstored with
  | vdp1Command hreg => exact absurd hreg h
  | _ => rfl

/-- Without a pulse the completion counters stand still. -/
theorem perform_counters (d : DeviceHub) (w : MmioWrite)
    (h : ¬ w.Pulses (d.vdp1CommandPending = true)) :
    (d.perform w).vdp1EventCounter = d.vdp1EventCounter ∧
      (d.perform w).vdp1CompletedCounter = d.vdp1CompletedCounter := by
  have hstored := stored_perform d w
  generalize d.perform w = d' at hstored ⊢
  cases hstored with
  | pulse hpulse => exact absurd hpulse h
  | _ => exact ⟨rfl, rfl⟩

theorem perform_vdp1IrqLevel_of_ne (d : DeviceHub) (w : MmioWrite)
    (hbridge : w.register ≠ kVdp1ScuIrqBridgeAddr)
    (hpulse : ¬ w.Pulses (d.vdp1CommandPending = true)) :
    (d.perform w).vdp1IrqLevel = d.vdp1IrqLevel := by
  have hstored := stored_perform d w
  generalize d.perform w = d' at hstored ⊢
  cases hstored with
  | pulse hsignal => exact absurd hsignal hpulse
  | raise hreg => exact absurd hreg hbridge
  | lower hreg => exact absurd hreg hbridge
  | _ => rfl

/-- A read of the whole register. -/
theorem read_word (d : DeviceHub) (t : Nat) (cpu : Int) {addr : Addr}
    (hword : wordAddr addr = addr) : d.read t cpu addr 4 = d.registerValue addr := by
  have hmask : sizeMask 4 = BitVec.allOnes 32 := rfl
  have hshift : laneShift addr 4 = 0 := rfl
  unfold read
  rw [hword, hmask, hshift, BitVec.ushiftRight_zero, BitVec.and_allOnes]

theorem wordAddr_register (w : MmioWrite) : wordAddr w.register = w.register := by
  unfold MmioWrite.register wordAddr
  rw [BitVec.and_assoc, BitVec.and_self]

end DeviceHub

end Saturnis.Dev
