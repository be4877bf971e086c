/-
Byte lanes of the device registers.

A register with an event (the two command registers, the VDP1 bridge, the VDP1
trigger and the VDP1 completion) is controlled by its low bits, `eventControl`.
The command registers and the bridge take the written bits as they are, with
zeros outside the lanes, so a narrow write that misses the control bits stores
zero there: it submits command 0, or lowers the interrupt.  Every other register
keeps to its lanes.

* `MmioWrite.covers_or_misses` — the lanes hold the control bits or none of them;
* `LanesIsolated` — nothing readable outside the lanes moves, and no side effect
  happens without its control bits;
* `lanesIsolated_iff` — the writes for which this is so.
-/
import Mathlib.Tactic.IntervalCases
import Saturnis.DeviceWrites

namespace Saturnis.Dev

open Saturnis.Mem BitLanes

/-- The bits of a register that control its event, none for a register without one. -/
def eventControl (reg : Addr) : Word :=
  if reg = kSmpcCommandAddr ∨ reg = kVdp1CommandAddr then 0xFF#32
  else if reg = kVdp1ScuIrqBridgeAddr ∨ reg = kVdp1EventTriggerAddr ∨
      reg = kVdp1CommandCompleteAddr then 0x1#32
  else 0

namespace MmioWrite

/-- The written lanes contain the control bits of the register's event. -/
def Triggers (w : MmioWrite) : Prop :=
  eventControl w.register ≠ 0 ∧ Covers w.lanes (eventControl w.register)

instance (w : MmioWrite) : Decidable w.Triggers :=
  inferInstanceAs (Decidable (_ ∧ _))

/-- The lanes hold the low byte, or nothing of it. -/
theorem covers_or_misses (w : MmioWrite) :
    Covers w.lanes 0xFF#32 ∨ w.lanes &&& 0xFF#32 = 0 := by
  unfold lanes sizeMask laneShift
  by_cases hbyte : w.size = 1
  · rw [if_pos hbyte, if_pos hbyte]
    have hlow : (w.addr &&& 0x3#32).toNat < 4 := by
      rw [BitVec.toNat_and]
      exact Nat.lt_of_le_of_lt Nat.and_le_right (by decide)
    generalize (w.addr &&& 0x3#32).toNat = low at hlow ⊢
    interval_cases low
    all_goals decide
  · rw [if_neg hbyte, if_neg hbyte]
    by_cases hhalf : w.size = 2
    · rw [if_pos hhalf, if_pos hhalf]
      have hlow : (w.addr &&& 0x2#32).toNat < 3 := by
        rw [BitVec.toNat_and]
        exact Nat.lt_of_le_of_lt Nat.and_le_right (by decide)
      generalize (w.addr &&& 0x2#32).toNat = low at hlow ⊢
      interval_cases low
      all_goals decide
    · rw [if_neg hhalf, if_neg hhalf]
      decide

theorem covers_eventControl (w : MmioWrite) (h : Covers w.lanes 0xFF#32) :
    Covers w.lanes (eventControl w.register) := by
  unfold eventControl
  split
  · exact h
  · split
    · -- Bit 0 lies in the low byte.
      calc w.lanes &&& 0x1#32 = (w.lanes &&& 0xFF#32) &&& 0x1#32 := by
            rw [BitVec.and_assoc]; rfl
        _ = 0xFF#32 &&& 0x1#32 := by rw [h]
    · exact BitVec.and_zero

/-- An event register that the write does not trigger gets zeros for its control bits. -/
theorem misses_of_not_triggers (w : MmioWrite) (hcontrol : eventControl w.register ≠ 0)
    (h : ¬ w.Triggers) : w.bits &&& 0xFF#32 = 0 := by
  have hmiss : ¬ Covers w.lanes 0xFF#32 := fun hcovers =>
    h ⟨hcontrol, w.covers_eventControl hcovers⟩
  exact w.bits_within.and_eq_zero (w.covers_or_misses.resolve_left hmiss)

theorem low_of_not_triggers (w : MmioWrite) (hcontrol : eventControl w.register ≠ 0)
    (h : ¬ w.Triggers) : w.bits &&& 0x1#32 = 0 := by
  calc w.bits &&& 0x1#32 = (w.bits &&& 0xFF#32) &&& 0x1#32 := by
        rw [BitVec.and_assoc]; rfl
    _ = 0 := by rw [w.misses_of_not_triggers hcontrol h]; rfl

/-- A set bit 0 triggers the event of its register. -/
theorem triggers_of_low (w : MmioWrite) (hcontrol : eventControl w.register ≠ 0)
    (hlow : w.bits.getLsbD 0 = true) : w.Triggers := by
  by_contra hquiet
  exact (and_one_ne_zero w.bits).mpr hlow (w.low_of_not_triggers hcontrol hquiet)

theorem Pulses.triggers {w : MmioWrite} {commandPending : Prop} (h : w.Pulses commandPending) :
    w.Triggers := by
  refine w.triggers_of_low ?_ h.1
  rcases h.register_eq with hreg | hreg
  all_goals rw [hreg]; decide

end MmioWrite

/-- A write keeps to its lanes: the readable bits of the register outside them
stay, and a side effect needs the bits that control it. -/
structure LanesIsolated (d : DeviceHub) (w : MmioWrite) : Prop where
  readable : ¬ w.Triggers → ∀ t cpu, AgreeOff w.lanes
    ((d.perform w).read t cpu w.register 4) (d.read t cpu w.register 4)
  smpcSubmission :
    ¬ ((d.perform w).smpcLastCommand = d.smpcLastCommand ∧
      (d.perform w).smpcCommandResult = d.smpcCommandResult) →
    w.register = kSmpcCommandAddr ∧ w.Triggers
  vdp1Submission : (d.perform w).vdp1LastCommand ≠ d.vdp1LastCommand →
    w.register = kVdp1CommandAddr ∧ w.Triggers
  vdp1Pending : (d.perform w).vdp1CommandPending ≠ d.vdp1CommandPending →
    w.register ∈ commandRegisters ∧ w.Triggers
  pulse :
    ¬ ((d.perform w).vdp1EventCounter = d.vdp1EventCounter ∧
      (d.perform w).vdp1CompletedCounter = d.vdp1CompletedCounter) →
    w.register ∈ [kVdp1EventTriggerAddr, kVdp1CommandCompleteAddr] ∧ w.Triggers
  irqLevel : (d.perform w).vdp1IrqLevel ≠ d.vdp1IrqLevel →
    w.register ∈ [kVdp1ScuIrqBridgeAddr, kVdp1EventTriggerAddr, kVdp1CommandCompleteAddr] ∧
      w.Triggers
  pending : ∀ i, (d.perform w).scuInterruptPending.getLsbD i ≠ d.scuInterruptPending.getLsbD i →
    w.register ∈ [kScuIstAddr, kScuIstClearAddr] ∧ w.lanes.getLsbD i = true
  source : ∀ i,
    (d.perform w).scuInterruptSourcePending.getLsbD i ≠ d.scuInterruptSourcePending.getLsbD i →
    (w.register ∈ [kScuIstClearAddr, kScuIstSourceSetAddr, kScuIstSourceClearAddr] ∧
        w.lanes.getLsbD i = true) ∨
      (i = 5 ∧ w.register ∈
          [kVdp1ScuIrqBridgeAddr, kVdp1EventTriggerAddr, kVdp1CommandCompleteAddr] ∧
        w.Triggers)

/-- A write to a command register or to the bridge holds the control bits, or
finds there what storing zeros leaves. -/
structure HoldsControl (d : DeviceHub) (w : MmioWrite) : Prop where
  smpc : w.register = kSmpcCommandAddr →
    w.Triggers ∨ (d.smpcLastCommand = 0 ∧ d.smpcCommandResult = 0xA5000000#32)
  bridge : w.register = kVdp1ScuIrqBridgeAddr →
    w.Triggers ∨ (d.vdp1IrqLevel = 0 ∧ d.scuInterruptSourcePending.getLsbD 5 = false)
  vdp1 : w.register = kVdp1CommandAddr →
    w.Triggers ∨ (d.vdp1LastCommand = 0 ∧ d.vdp1CommandPending = false)

namespace DeviceHub

/-- The read-only registers that show the device state. -/
def statusRegisters : List Addr :=
  [kSmpcCommandResultAddr, kVdp1EventStatusAddr, kVdp1CommandStatusAddr]

theorem registerValue_of_plain (d : DeviceHub) {reg : Addr} (hevent : reg ∉ eventRegisters)
    (hstatus : reg ∉ statusRegisters) :
    d.registerValue reg =
      materializeRegisterValue (registerSpec reg) (readPersistedOrZero d.mmioRegs reg) := by
  simp only [eventRegisters, statusRegisters, List.mem_cons, List.not_mem_nil, or_false,
    not_or] at hevent hstatus
  simp only [registerValue, hevent, hstatus, if_false]

theorem readPersistedOrZero_update (regs : RegisterMap) (reg : Addr) (value : Word) :
    readPersistedOrZero (Function.update regs reg (some value)) reg = value := by
  unfold readPersistedOrZero
  rw [Function.update_self, Option.getD_some]

/-- Merging the written bits into a persisted register. -/
theorem materialize_merge (reg : Addr) (lanes bits persisted : Word) :
    AgreeOff lanes
      (materializeRegisterValue (registerSpec reg)
        ((persisted &&& ~~~(lanes &&& writableMask reg)) |||
          (bits &&& (lanes &&& writableMask reg))))
      (materializeRegisterValue (registerSpec reg) persisted) := by
  have hmerge := agreeOff_merge lanes (writableMask reg) persisted bits
  unfold materializeRegisterValue
  cases registerSpec reg with
  | none => exact hmerge
  | some spec => exact (hmerge.and spec.writableMask).or_left _

/-- Off the lanes a register reads the same after a write that does not trigger its event,
unless a command register or the bridge lost its bits. -/
theorem registerValue_perform (d : DeviceHub) (w : MmioWrite) (hholds : HoldsControl d w)
    (hquiet : ¬ w.Triggers) :
    AgreeOff w.lanes ((d.perform w).registerValue w.register) (d.registerValue w.register) := by
  have hstored := stored_perform d w
  generalize d.perform w = d' at hstored ⊢
  cases hstored with
  | istSet hreg =>
      rw [hreg]
      -- The status shows the new bits, all of them within the lanes.
      exact ((agreeOff_or (w.bits_within.and _) _).or _).and _
  | istClear hreg => rw [hreg]; exact AgreeOff.refl _ _
  | sourceSet hreg =>
      rw [hreg]
      exact (agreeOff_or (w.bits_within.and _) _).and _
  | sourceClear hreg => rw [hreg]; exact AgreeOff.refl _ _
  | smpcCommand hreg =>
      -- Off its trigger lane the write leaves the command at zero, as it was.
      have hlast := (hholds.smpc hreg).resolve_left hquiet
      rw [hreg]
      show AgreeOff w.lanes (w.bits &&& 0xFF#32 &&& 0xFF#32) (d.smpcLastCommand &&& 0xFF#32)
      rw [w.misses_of_not_triggers (by rw [hreg]; decide) hquiet, hlast.1]
      exact AgreeOff.refl _ _
  | raise hreg hlevel => exact absurd (w.triggers_of_low (by rw [hreg]; decide) hlevel) hquiet
  | lower hreg hlevel =>
      have hlevel := (hholds.bridge hreg).resolve_left hquiet
      rw [hreg]
      show AgreeOff w.lanes (w.bits &&& 0x1#32 &&& 0x1#32) (d.vdp1IrqLevel &&& 0x1#32)
      rw [w.low_of_not_triggers (by rw [hreg]; decide) hquiet, hlevel.1]
      exact AgreeOff.refl _ _
  | vdp1Command hreg =>
      have hlast := (hholds.vdp1 hreg).resolve_left hquiet
      rw [hreg]
      show AgreeOff w.lanes (w.bits &&& 0xFF#32 &&& 0xFF#32) (d.vdp1LastCommand &&& 0xFF#32)
      rw [w.misses_of_not_triggers (by rw [hreg]; decide) hquiet, hlast.1]
      exact AgreeOff.refl _ _
  | pulse hpulse => exact absurd hpulse.triggers hquiet
  | noPulse => exact AgreeOff.refl _ _
  | readOnly => exact AgreeOff.refl _ _
  | plain hreg =>
      by_cases hstatus : w.register ∈ statusRegisters
      · -- The status registers do not read the persisted words.
        simp only [statusRegisters, List.mem_cons, List.not_mem_nil, or_false] at hstatus
        rcases hstatus with hstatus | hstatus | hstatus
        all_goals rw [hstatus]; exact AgreeOff.refl _ _
      · rw [registerValue_of_plain _ hreg hstatus, registerValue_of_plain d hreg hstatus]
        show AgreeOff w.lanes (materializeRegisterValue (registerSpec w.register)
          (readPersistedOrZero (Function.update d.mmioRegs w.register (some _)) w.register)) _
        rw [readPersistedOrZero_update]
        exact materialize_merge _ _ _ _

/-- A write that keeps its control bits, or finds zeros already stored, keeps to its lanes. -/
theorem lanesIsolated_of_holds (d : DeviceHub) (w : MmioWrite) (hholds : HoldsControl d w) :
    LanesIsolated d w where
  readable hquiet t cpu := by
    rw [read_word _ t cpu (wordAddr_register w), read_word _ t cpu (wordAddr_register w)]
    exact d.registerValue_perform w hholds hquiet
  smpcSubmission hmoved := by
    by_cases hreg : w.register = kSmpcCommandAddr
    · refine ⟨hreg, by_contra fun hquiet => hmoved ?_⟩
      have hnew := d.perform_smpc_of_eq w hreg
      rw [w.misses_of_not_triggers (by rw [hreg]; decide) hquiet] at hnew
      have hold := (hholds.smpc hreg).resolve_left hquiet
      exact ⟨hnew.1.trans hold.1.symm, hnew.2.trans hold.2.symm⟩
    · exact absurd (d.perform_smpc_of_ne w hreg) hmoved
  vdp1Submission hmoved := by
    by_cases hreg : w.register = kVdp1CommandAddr
    · refine ⟨hreg, by_contra fun hquiet => hmoved ?_⟩
      have hnew := d.perform_vdp1LastCommand_of_eq w hreg
      rw [w.misses_of_not_triggers (by rw [hreg]; decide) hquiet] at hnew
      exact hnew.trans ((hholds.vdp1 hreg).resolve_left hquiet).1.symm
    · exact absurd (d.perform_vdp1LastCommand_of_ne w hreg) hmoved
  vdp1Pending hmoved := by
    have hmove := mt Bool.eq_iff_iff.mpr hmoved
    rw [perform_vdp1CommandPending] at hmove
    have hmem : w.StartsCommand ∨ w.EndsCommand := by
      by_contra hneither
      exact hmove (by tauto)
    rcases hmem with ⟨hreg, hnonzero⟩ | ⟨hreg, hzero⟩ | ⟨hlow, hreg⟩
    · refine ⟨by rw [hreg]; decide, by_contra fun hquiet => hnonzero ?_⟩
      exact w.misses_of_not_triggers (by rw [hreg]; decide) hquiet
    · refine ⟨by rw [hreg]; decide, by_contra fun hquiet => hmove ?_⟩
      rw [((hholds.vdp1 hreg).resolve_left hquiet).2]
      refine iff_of_false ?_ Bool.false_ne_true
      rintro (hstarts | ⟨hpending, -⟩)
      · exact hstarts.2 hzero
      · exact Bool.noConfusion hpending
    · refine ⟨List.mem_cons_of_mem _ (by simpa using hreg), w.triggers_of_low ?_ hlow⟩
      rcases hreg with hreg | hreg
      all_goals rw [hreg]; decide
  pulse hmoved := by
    by_cases hpulse : w.Pulses (d.vdp1CommandPending = true)
    · exact ⟨by simpa using hpulse.register_eq, hpulse.triggers⟩
    · exact absurd (d.perform_counters w hpulse) hmoved
  irqLevel hmoved := by
    by_cases hpulse : w.Pulses (d.vdp1CommandPending = true)
    · exact ⟨List.mem_cons_of_mem _ (by simpa using hpulse.register_eq), hpulse.triggers⟩
    by_cases hreg : w.register = kVdp1ScuIrqBridgeAddr
    · refine ⟨by rw [hreg]; decide, by_contra fun hquiet => hmoved ?_⟩
      rw [d.perform_vdp1IrqLevel_of_bridge w hreg, ((hholds.bridge hreg).resolve_left hquiet).1]
      exact w.low_of_not_triggers (by rw [hreg]; decide) hquiet
    · exact absurd (d.perform_vdp1IrqLevel_of_ne w hreg hpulse) hmoved
  pending i hmoved := by
    have hmove := mt Bool.eq_iff_iff.mpr hmoved
    rw [perform_scuInterruptPending] at hmove
    have hselects : (w.register = kScuIstAddr ∨ w.register = kScuIstClearAddr) ∧
        w.SelectsBit i := by
      by_contra hneither
      exact hmove (by tauto)
    exact ⟨by simpa using hselects.1, w.bits_within i hselects.2.2⟩
  source i hmoved := by
    have hmove := mt Bool.eq_iff_iff.mpr hmoved
    rw [perform_scuInterruptSourcePending] at hmove
    have hmem : w.SetsSource (d.vdp1CommandPending = true) i ∨ w.ClearsSource i := by
      by_contra hneither
      exact hmove (by tauto)
    rcases hmem with hsets | hclears
    · rcases hsets with ⟨hreg, hselects⟩ | ⟨hfive, hpulse | ⟨hreg, hlow⟩⟩
      · exact Or.inl ⟨by rw [hreg]; decide, w.bits_within i hselects.2⟩
      · exact Or.inr ⟨hfive, List.mem_cons_of_mem _ (by simpa using hpulse.register_eq),
          hpulse.triggers⟩
      · exact Or.inr ⟨hfive, by rw [hreg]; decide,
          w.triggers_of_low (by rw [hreg]; decide) hlow⟩
    · rcases hclears with ⟨hreg, hselects⟩ | ⟨hfive, hreg, hlow⟩
      · refine Or.inl ⟨?_, w.bits_within i hselects.2⟩
        rcases hreg with hreg | hreg
        all_goals rw [hreg]; decide
      · refine Or.inr ⟨hfive, by rw [hreg]; decide, by_contra fun hquiet => hmove ?_⟩
        -- Lowering the bridge moves nothing where bit 5 is clear.
        have hclears : w.ClearsSource i := Or.inr ⟨hfive, hreg, hlow⟩
        subst hfive
        rw [((hholds.bridge hreg).resolve_left hquiet).2]
        refine iff_of_false ?_ Bool.false_ne_true
        rintro (hsets | ⟨hbit, -⟩)
        · exact hsets.not_clears hclears
        · exact Bool.noConfusion hbit

/-- A write that keeps to its lanes holds its control bits, or finds zeros already stored. -/
theorem holds_of_lanesIsolated (d : DeviceHub) (w : MmioWrite) (hisolated : LanesIsolated d w) :
    HoldsControl d w where
  smpc hreg := by
    by_contra hlost
    -- If the write neither triggers nor holds the command, it is lost without one.
    obtain ⟨hquiet, hold⟩ := not_or.mp hlost
    have hnew := d.perform_smpc_of_eq w hreg
    rw [w.misses_of_not_triggers (by rw [hreg]; decide) hquiet] at hnew
    refine hquiet (hisolated.smpcSubmission fun hsame => hold ?_).2
    exact ⟨hsame.1.symm.trans hnew.1, hsame.2.symm.trans hnew.2⟩
  bridge hreg := by
    by_contra hlost
    obtain ⟨hquiet, hold⟩ := not_or.mp hlost
    have hzero := w.low_of_not_triggers (by rw [hreg]; decide) hquiet
    refine hold ⟨by_contra fun hlevel => ?_, by_contra fun hbit => ?_⟩
    · -- The level falls to zero.
      refine hquiet (hisolated.irqLevel fun hsame => hlevel ?_).2
      rw [← hsame, d.perform_vdp1IrqLevel_of_bridge w hreg]
      exact hzero
    · -- Source bit 5 is cleared.
      have hclears : w.ClearsSource 5 :=
        Or.inr ⟨rfl, hreg, fun hlow => (and_one_ne_zero w.bits).mpr hlow hzero⟩
      have hcleared : ¬ (d.perform w).scuInterruptSourcePending.getLsbD 5 = true := by
        rw [perform_scuInterruptSourcePending]
        rintro (hsets | ⟨-, hkeeps⟩)
        · exact hsets.not_clears hclears
        · exact hkeeps hclears
      rcases hisolated.source 5 fun hsame => hbit (hsame ▸ Bool.eq_false_iff.mpr hcleared)
        with ⟨hmem, -⟩ | ⟨-, -, htriggers⟩
      · rw [hreg] at hmem
        exact absurd hmem (by decide)
      · exact hquiet htriggers
  vdp1 hreg := by
    by_contra hlost
    obtain ⟨hquiet, hold⟩ := not_or.mp hlost
    have hzero := w.misses_of_not_triggers (by rw [hreg]; decide) hquiet
    refine hold ⟨by_contra fun hlast => ?_, by_contra fun hpending => ?_⟩
    · refine hquiet (hisolated.vdp1Submission fun hsame => hlast ?_).2
      rw [← hsame, d.perform_vdp1LastCommand_of_eq w hreg]
      exact hzero
    · -- The pending command is dropped.
      have hdropped : ¬ (d.perform w).vdp1CommandPending = true := by
        rw [perform_vdp1CommandPending]
        rintro (hstarts | ⟨-, hkeeps⟩)
        · exact hstarts.2 hzero
        · exact hkeeps (Or.inl ⟨hreg, hzero⟩)
      refine hquiet (hisolated.vdp1Pending fun hsame => hpending ?_).2
      rw [← hsame]
      exact Bool.eq_false_iff.mpr hdropped

end DeviceHub

/-- One access to the device registers. -/
inductive MmioAccess where
  | read (t : Nat) (cpu : Int) (addr : Addr) (size : Nat)
  | write (w : MmioWrite)

namespace DeviceHub

/-- The hub after an access; a read changes nothing. -/
def access (d : DeviceHub) : MmioAccess → DeviceHub
  | .read _ _ _ _ => d
  | .write w => d.perform w

/-- The hub after a sequence of accesses to a fresh one. -/
def accessAll (accesses : List MmioAccess) : DeviceHub :=
  accesses.foldl access {}

/-- **In every reachable state a write keeps to its lanes exactly when it holds the control
bits of a command register or of the bridge, or finds there what storing zeros leaves.** -/
theorem lanesIsolated_iff (accesses : List MmioAccess) (w : MmioWrite) :
    LanesIsolated (accessAll accesses) w ↔ HoldsControl (accessAll accesses) w :=
  ⟨(accessAll accesses).holds_of_lanesIsolated w, (accessAll accesses).lanesIsolated_of_holds w⟩

/-- A byte write beside the SMPC command byte submits command 0. -/
theorem not_lanesIsolated_smpcHighByte :
    ¬ ∀ (accesses : List MmioAccess) (w : MmioWrite),
      w.size = 1 ∨ (w.size = 2 ∧ w.addr &&& 0x1#32 = 0) →
        LanesIsolated (accessAll accesses) w := by
  intro hisolated
  have hnarrow := hisolated [.write ⟨0, 0, kSmpcCommandAddr, 4, 0x1F#32⟩]
    ⟨1, 0, kSmpcCommandAddr, 1, 0#32⟩ (Or.inl rfl)
  have hsubmits := hnarrow.smpcSubmission (by decide)
  exact absurd hsubmits.2 (by decide)

end DeviceHub

end Saturnis.Dev
