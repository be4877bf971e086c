/-
The SCU interrupt status is the history of its set and clear events.

The two latched words of the hub move bit by bit as latches do: `pendingLatch`
is set and cleared by the status register and its clear register, `sourceLatch`
by the source registers, the VDP1 pulses and the VDP1 bridge.  Whether a
completion pulses depends on a command being pending, which is a latch of its
own (`commandLatch`).

* `pending_held`, `source_held`, `command_held` — after any writes to a fresh
  hub its latched bits are the latches;
* `status_iff` — the status read back, bit by bit, under the interrupt mask.
-/
import Saturnis.DeviceWrites
import Saturnis.Latch

namespace Saturnis.Dev

open Saturnis.Mem BitLanes

/-- Bit `i` of the pending word. -/
def pendingLatch (i : Nat) : Latch MmioWrite where
  sets _ w := w.register = kScuIstAddr ∧ w.SelectsBit i
  clears _ w := w.register = kScuIstClearAddr ∧ w.SelectsBit i
  exclusive := by
    rintro _ w ⟨hset, -⟩ ⟨hclear, -⟩
    exact absurd (hset.symm.trans hclear) (by decide)

/-- The pending VDP1 command. -/
def commandLatch : Latch MmioWrite where
  sets _ w := w.StartsCommand
  clears _ w := w.EndsCommand
  exclusive := by
    rintro _ w ⟨hreg, hnonzero⟩ (⟨-, hzero⟩ | ⟨-, hends | hends⟩)
    · exact hnonzero hzero
    · exact absurd (hreg.symm.trans hends) (by decide)
    · exact absurd (hreg.symm.trans hends) (by decide)

/-- Bit `i` of the source word. -/
def sourceLatch (i : Nat) : Latch MmioWrite where
  sets past w := w.SetsSource (commandLatch.Held past) i
  clears _ w := w.ClearsSource i
  exclusive _ _ hsets := hsets.not_clears

namespace DeviceHub

theorem performAll_concat (ws : List MmioWrite) (w : MmioWrite) :
    performAll (ws ++ [w]) = (performAll ws).perform w :=
  List.foldl_concat _ _ _ _

theorem pending_held (ws : List MmioWrite) (i : Nat) :
    (performAll ws).scuInterruptPending.getLsbD i = true ↔ (pendingLatch i).Held ws := by
  refine (pendingLatch i).held_iff
    (fun ws => (performAll ws).scuInterruptPending.getLsbD i = true) ?_ ?_ ws
  · show ¬ BitVec.getLsbD 0#32 i = true
    rw [BitVec.getLsbD_zero]
    exact Bool.false_ne_true
  · intro ws w
    show (performAll (ws ++ [w])).scuInterruptPending.getLsbD i = true ↔ _
    rw [performAll_concat]
    exact perform_scuInterruptPending _ w i

theorem command_held (ws : List MmioWrite) :
    (performAll ws).vdp1CommandPending = true ↔ commandLatch.Held ws := by
  refine commandLatch.held_iff (fun ws => (performAll ws).vdp1CommandPending = true) ?_ ?_ ws
  · exact Bool.false_ne_true
  · intro ws w
    show (performAll (ws ++ [w])).vdp1CommandPending = true ↔ _
    rw [performAll_concat]
    exact perform_vdp1CommandPending _ w

theorem source_held (ws : List MmioWrite) (i : Nat) :
    (performAll ws).scuInterruptSourcePending.getLsbD i = true ↔ (sourceLatch i).Held ws := by
  refine (sourceLatch i).held_iff
    (fun ws => (performAll ws).scuInterruptSourcePending.getLsbD i = true) ?_ ?_ ws
  · show ¬ BitVec.getLsbD 0#32 i = true
    rw [BitVec.getLsbD_zero]
    exact Bool.false_ne_true
  · intro ws w
    show (performAll (ws ++ [w])).scuInterruptSourcePending.getLsbD i = true ↔
      w.SetsSource (commandLatch.Held ws) i ∨ _
    rw [performAll_concat, ← propext (command_held ws)]
    exact perform_scuInterruptSourcePending _ w i

/-- No latch of the high half is ever held. -/
theorem lt_of_held {i : Nat} {ws : List MmioWrite}
    (h : (pendingLatch i).Held ws ∨ (sourceLatch i).Held ws) : i < 16 := by
  rcases h with ⟨_, w, _, _, ⟨-, hselects⟩, -⟩ | ⟨_, w, _, _, hsets, -⟩
  · exact hselects.1
  · rcases hsets with ⟨-, hselects⟩ | ⟨hfive, -⟩
    · exact hselects.1
    · omega

/-- **The SCU interrupt status is the exact history of its set and clear events.** -/
theorem status_iff (ws : List MmioWrite) (t : Nat) (cpu : Int) (i : Nat) :
    ((performAll ws).read t cpu kScuIstAddr 4).getLsbD i = true ↔
      ((performAll ws).read t cpu kScuImsAddr 4).getLsbD i = false ∧
        i < 16 ∧ ((pendingLatch i).Held ws ∨ (sourceLatch i).Held ws) := by
  have hstatus : (performAll ws).read t cpu kScuIstAddr 4 =
      ((performAll ws).scuInterruptPending ||| (performAll ws).scuInterruptSourcePending) &&&
        ~~~((performAll ws).read t cpu kScuImsAddr 4) := by
    rw [read_word _ t cpu (by decide : wordAddr kScuIstAddr = kScuIstAddr),
      read_word _ t cpu (by decide : wordAddr kScuImsAddr = kScuImsAddr)]
    rfl
  rw [hstatus, getLsbD_andNot, BitVec.getLsbD_or, Bool.or_eq_true, pending_held, source_held,
    Bool.not_eq_true]
  constructor
  · rintro ⟨hheld, hmask⟩
    exact ⟨hmask, lt_of_held hheld, hheld⟩
  · rintro ⟨hmask, -, hheld⟩
    exact ⟨hheld, hmask⟩

end DeviceHub

end Saturnis.Dev
