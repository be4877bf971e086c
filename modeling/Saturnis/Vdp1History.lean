/-
VDP1 commands and their completions.

A command is submitted with its byte, and completed by a write to the completion
register or to the event trigger.  The trigger completes in any case, the completion
register only while a command is pending, and what the hub shows is the history of
these writes: the completions are counted, and the interrupt level is that of the last
completion or of the bridge.

* `completions_concat` — one more write;
* `counters_held`, `lastCommand_held`, `irqLevel_held` — after any writes to a fresh hub;
* `vdp1_history` — **the status registers, and the command of every completion**.
-/
import Saturnis.ScuHistory

namespace Saturnis.Dev

open Saturnis.Mem BitLanes

/-! ### The history -/

/-- The VDP1 interrupt level. -/
def irqLatch : Latch MmioWrite where
  sets past w := w.Pulses (commandLatch.Held past) ∨
    (w.register = kVdp1ScuIrqBridgeAddr ∧ w.bits.getLsbD 0 = true)
  clears _ w := w.register = kVdp1ScuIrqBridgeAddr ∧ ¬ w.bits.getLsbD 0 = true
  exclusive := by
    rintro _ w (hpulse | ⟨-, hbit⟩) ⟨hreg, hzero⟩
    · exact hzero hpulse.1
    · exact hzero hbit

instance (ws : List MmioWrite) : Decidable (commandLatch.Held ws) :=
  decidable_of_iff _ (DeviceHub.command_held ws)

instance (w : MmioWrite) (commandPending : Prop) [Decidable commandPending] :
    Decidable (w.Pulses commandPending) :=
  inferInstanceAs (Decidable (_ ∧ _))

/-- The write at a place of the history makes VDP1 signal a completion. -/
def Completes (ws : List MmioWrite) (i : Nat) : Prop :=
  ∃ h : i < ws.length, ws[i].Pulses (commandLatch.Held (ws.take i))

instance (ws : List MmioWrite) (i : Nat) : Decidable (Completes ws i) :=
  inferInstanceAs (Decidable (∃ _, _))

/-- The places of all completions. -/
def completions (ws : List MmioWrite) : List Nat :=
  (List.range ws.length).filter fun i => Completes ws i

/-- The last submitted command byte. -/
def lastCommand (ws : List MmioWrite) : Word :=
  (((ws.filter fun w => w.register = kVdp1CommandAddr).getLast?).map (·.bits &&& 0xFF#32)).getD 0

theorem completions_concat (ws : List MmioWrite) (w : MmioWrite) :
    completions (ws ++ [w]) =
      completions ws ++ if w.Pulses (commandLatch.Held ws) then [ws.length] else [] := by
  have hlast : Completes (ws ++ [w]) ws.length ↔ w.Pulses (commandLatch.Held ws) := by
    simp [Completes]
  have hbefore : ∀ i ∈ List.range ws.length,
      decide (Completes (ws ++ [w]) i) = decide (Completes ws i) := by
    intro i hi
    have hlt := List.mem_range.mp hi
    refine decide_eq_decide.mpr ?_
    rw [Completes, Completes, List.take_append_of_le_length (Nat.le_of_lt hlt)]
    simp [List.getElem_append_left hlt, hlt, Nat.lt_succ_of_lt hlt]
  rw [completions, List.length_append, List.length_singleton, List.range_succ,
    List.filter_append, List.filter_congr hbefore, List.filter_singleton]
  simp only [hlast, Bool.cond_decide]
  rfl

theorem lastCommand_concat (ws : List MmioWrite) (w : MmioWrite) :
    lastCommand (ws ++ [w]) =
      if w.register = kVdp1CommandAddr then w.bits &&& 0xFF#32 else lastCommand ws := by
  rw [lastCommand, List.filter_append]
  split_ifs with hreg
  · have hlast : [w].filter (fun w => w.register = kVdp1CommandAddr) = [w] := by simp [hreg]
    rw [hlast, List.getLast?_concat]
    rfl
  · have hnone : [w].filter (fun w => w.register = kVdp1CommandAddr) = [] := by simp [hreg]
    rw [hnone, List.append_nil]
    rfl

theorem lastCommand_byte (ws : List MmioWrite) : lastCommand ws &&& 0xFF#32 = lastCommand ws := by
  rw [lastCommand]
  cases (ws.filter fun w => w.register = kVdp1CommandAddr).getLast? with
  | none => rfl
  | some w =>
      show w.bits &&& 0xFF#32 &&& 0xFF#32 = w.bits &&& 0xFF#32
      rw [BitVec.and_assoc, BitVec.and_self]

/-! ### What the hub keeps of it -/

namespace DeviceHub

/-- A completion is counted, and raises the level. -/
theorem perform_pulse (d : DeviceHub) (w : MmioWrite) (h : w.Pulses (d.vdp1CommandPending = true)) :
    (d.perform w).vdp1EventCounter = d.vdp1EventCounter + 1 ∧
      (d.perform w).vdp1CompletedCounter = d.vdp1CompletedCounter + 1 ∧
      (d.perform w).vdp1IrqLevel = 1 := by
  have hmem : w.register ∈ eventRegisters := by
    rcases h.register_eq with heq | heq
    all_goals
      rw [heq]
      decide
  have hstored := stored_perform d w
  generalize d.perform w = d' at hstored ⊢
  cases hstored with
  | pulse => exact ⟨rfl, rfl, rfl⟩
  | noPulse _ hpulse => exact absurd h hpulse
  | readOnly hreg | plain hreg => exact absurd hmem hreg
  | _ hreg =>
      rcases h.register_eq with heq | heq
      all_goals exact absurd (hreg.symm.trans heq) (by decide)

theorem perform_vdp1IrqLevel (d : DeviceHub) (w : MmioWrite) :
    (d.perform w).vdp1IrqLevel.getLsbD 0 = true ↔
      (w.Pulses (d.vdp1CommandPending = true) ∨
          (w.register = kVdp1ScuIrqBridgeAddr ∧ w.bits.getLsbD 0 = true)) ∨
        (d.vdp1IrqLevel.getLsbD 0 = true ∧
          ¬ (w.register = kVdp1ScuIrqBridgeAddr ∧ ¬ w.bits.getLsbD 0 = true)) := by
  by_cases hpulse : w.Pulses (d.vdp1CommandPending = true)
  · rw [(perform_pulse d w hpulse).2.2]
    exact iff_of_true rfl (Or.inl (Or.inl hpulse))
  · by_cases hbridge : w.register = kVdp1ScuIrqBridgeAddr
    · have hone : (0x1#32).getLsbD 0 = true := rfl
      rw [perform_vdp1IrqLevel_of_bridge d w hbridge, BitVec.getLsbD_and, hone, Bool.and_true]
      simp [hpulse, hbridge]
    · rw [perform_vdp1IrqLevel_of_ne d w hbridge hpulse]
      simp [hpulse, hbridge]

theorem counters_held (ws : List MmioWrite) :
    (performAll ws).vdp1EventCounter = BitVec.ofNat 32 (completions ws).length ∧
      (performAll ws).vdp1CompletedCounter = BitVec.ofNat 32 (completions ws).length := by
  induction ws using List.reverseRecOn with
  | nil => exact ⟨rfl, rfl⟩
  | append_singleton ws w ih =>
      rw [performAll_concat, completions_concat]
      have hpending := propext (command_held ws)
      split_ifs with hpulse
      · rw [← hpending] at hpulse
        obtain ⟨hevent, hcompleted, -⟩ := perform_pulse _ w hpulse
        rw [hevent, hcompleted, ih.1, ih.2, List.length_append, List.length_singleton,
          BitVec.ofNat_add]
        exact ⟨rfl, rfl⟩
      · rw [← hpending] at hpulse
        obtain ⟨hevent, hcompleted⟩ := perform_counters _ w hpulse
        rw [hevent, hcompleted, List.append_nil]
        exact ih

theorem lastCommand_held (ws : List MmioWrite) :
    (performAll ws).vdp1LastCommand = lastCommand ws := by
  induction ws using List.reverseRecOn with
  | nil => rfl
  | append_singleton ws w ih =>
      rw [performAll_concat, lastCommand_concat]
      split_ifs with hreg
      · exact perform_vdp1LastCommand_of_eq _ w hreg
      · rw [perform_vdp1LastCommand_of_ne _ w hreg, ih]

theorem irqLevel_held (ws : List MmioWrite) :
    (performAll ws).vdp1IrqLevel.getLsbD 0 = true ↔ irqLatch.Held ws := by
  refine irqLatch.held_iff (fun ws => (performAll ws).vdp1IrqLevel.getLsbD 0 = true) ?_ ?_ ws
  · show ¬ BitVec.getLsbD 0#32 0 = true
    rw [BitVec.getLsbD_zero]
    exact Bool.false_ne_true
  · intro ws w
    show (performAll (ws ++ [w])).vdp1IrqLevel.getLsbD 0 = true ↔
      (w.Pulses (commandLatch.Held ws) ∨ _) ∨ _
    rw [performAll_concat, ← propext (command_held ws)]
    exact perform_vdp1IrqLevel _ w

theorem and_one_of_iff {x : Word} {p : Prop} [Decidable p] (h : x.getLsbD 0 = true ↔ p) :
    x &&& 0x1#32 = if p then 1#32 else 0#32 := by
  rw [BitVec.and_one_eq_setWidth_ofBool_getLsbD]
  split_ifs with hp
  · rw [h.mpr hp]
    rfl
  · rw [Bool.eq_false_iff.mpr (mt h.mp hp)]
    rfl

instance (ws : List MmioWrite) : Decidable (irqLatch.Held ws) :=
  decidable_of_iff _ (irqLevel_held ws)

/-- **VDP1 shows its history.**  The status registers show the number of completions, the
last command, whether it is pending, and the level; and a completion by the completion
register is that of a command which no completion before it was of. -/
theorem vdp1_history (ws : List MmioWrite) (t : Nat) (cpu : Int) :
    (performAll ws).read t cpu kVdp1CommandStatusAddr 4 =
        (if commandLatch.Held ws then 1#32 else 0#32) |||
          ((BitVec.ofNat 32 (completions ws).length &&& 0xFF#32) <<< 8) |||
          (lastCommand ws <<< 16) ∧
      (performAll ws).read t cpu kVdp1EventStatusAddr 4 =
        (BitVec.ofNat 32 (completions ws).length &&& 0xFF#32) |||
          ((if irqLatch.Held ws then 1#32 else 0#32) <<< 8) ∧
      ∀ i ∈ completions ws, (ws[i]?).map MmioWrite.register = some kVdp1CommandCompleteAddr →
        ∃ k w, k < i ∧ ws[k]? = some w ∧ w.StartsCommand ∧
          ∀ j ∈ completions ws, j < i → j < k := by
  refine ⟨?_, ?_, fun i hi hreg => ?_⟩
  · rw [read_word _ t cpu (by decide : wordAddr kVdp1CommandStatusAddr = kVdp1CommandStatusAddr),
      ← (counters_held ws).2, ← lastCommand_byte, ← lastCommand_held]
    show (if _ then (1 : Word) else 0) ||| _ ||| _ = _
    simp only [command_held]
    rfl
  · rw [read_word _ t cpu (by decide : wordAddr kVdp1EventStatusAddr = kVdp1EventStatusAddr),
      ← (counters_held ws).1, ← and_one_of_iff (irqLevel_held ws)]
    rfl
  · obtain ⟨hmem, hcompletes⟩ := List.mem_filter.mp hi
    obtain ⟨hlt, -, hway⟩ := of_decide_eq_true hcompletes
    rw [List.getElem?_eq_getElem hlt, Option.map_some, Option.some_inj] at hreg
    rcases hway with htrigger | ⟨-, hheld⟩
    · exact absurd (htrigger.symm.trans hreg) (by decide)
    -- the command that is pending has been submitted since the completion before
    obtain ⟨k, w, hw, hstarts, hquiet⟩ := hheld.setter
    have hk : k < i := by
      have := (List.getElem?_eq_some_iff.mp hw).1
      rw [List.length_take] at this
      omega
    rw [List.getElem?_take_of_lt hk] at hw
    refine ⟨k, w, hk, hw, hstarts, fun j hj hji => ?_⟩
    obtain ⟨hjlt, hbit, hends⟩ := of_decide_eq_true (List.mem_filter.mp hj).2
    have hregister := MmioWrite.Pulses.register_eq ⟨hbit, hends⟩
    by_contra hle
    rcases Nat.eq_or_lt_of_le (Nat.le_of_not_lt hle) with rfl | hkj
    · rw [List.getElem?_eq_getElem hjlt, Option.some_inj] at hw
      rw [hw, hstarts.1] at hregister
      exact absurd hregister (by decide)
    · refine hquiet j ws[j] hkj ?_ (Or.inr (Or.inr ⟨hbit, hregister⟩))
      rw [List.getElem?_take_of_lt hji, List.getElem?_eq_getElem hjlt]

end DeviceHub

end Saturnis.Dev
