/-
The memory-mapped device registers behind the bus.

A register is addressed by the word it lives in; a 1- or 2-byte access selects
lanes of that word (`laneShift`, `sizeMask`).  Plain registers are persisted
through the writable mask of `registerSpec`; the SCU, SMPC and VDP1 registers
with side effects are handled before that, in the order of the source.
-/
import Mathlib.Logic.Function.Basic
import Saturnis.Memory

namespace Saturnis.Dev

open Saturnis.Mem

def kDisplayStatusAddr : Addr := 0x05F00010#32
def kScuImsAddr : Addr := 0x05FE00A0#32
def kScuIstAddr : Addr := 0x05FE00A4#32
def kScuIstClearAddr : Addr := 0x05FE00A8#32
def kScuIstSourceSetAddr : Addr := 0x05FE00AC#32
def kScuIstSourceClearAddr : Addr := 0x05FE00B0#32
def kScuDma0SrcAddr : Addr := 0x05FE0020#32
def kScuDma0SizeAddr : Addr := 0x05FE0028#32
def kScuDma0CtrlAddr : Addr := 0x05FE002C#32
def kSmpcStatusAddr : Addr := 0x05D00080#32
def kSmpcCommandAddr : Addr := 0x05D00084#32
def kSmpcCommandResultAddr : Addr := 0x05D00088#32
def kVdp2TvmdAddr : Addr := 0x05F80000#32
def kVdp2TvstatAddr : Addr := 0x05F80004#32
def kScspMcierAddr : Addr := 0x05C00000#32
def kVdp1ScuIrqBridgeAddr : Addr := 0x05D0008C#32
def kVdp1EventTriggerAddr : Addr := 0x05D00090#32
def kVdp1EventStatusAddr : Addr := 0x05D00094#32
def kVdp1CommandAddr : Addr := 0x05D00098#32
def kVdp1CommandStatusAddr : Addr := 0x05D0009C#32
def kVdp1CommandCompleteAddr : Addr := 0x05D000A0#32
def kVdp1ScuIrqMask : Word := 0x00000020#32

structure MmioRegisterSpec where
  resetValue : Word := 0
  writableMask : Word := 0xFFFFFFFF#32
deriving DecidableEq, Repr

def registerSpec (wordAddr : Addr) : Option MmioRegisterSpec :=
  if wordAddr = kDisplayStatusAddr then some ⟨0x1#32, 0x00000000#32⟩
  else if wordAddr = kScuImsAddr then some ⟨0x0#32, 0x0000FFFF#32⟩
  else if wordAddr = kScuIstAddr then some ⟨0x0#32, 0x00000000#32⟩
  else if wordAddr = kScuIstClearAddr then some ⟨0x0#32, 0x0000FFFF#32⟩
  else if wordAddr = kScuIstSourceSetAddr then some ⟨0x0#32, 0x0000FFFF#32⟩
  else if wordAddr = kScuIstSourceClearAddr then some ⟨0x0#32, 0x0000FFFF#32⟩
  else if wordAddr = kScuDma0SrcAddr then some ⟨0x00000000#32, 0xFFFFFFFF#32⟩
  else if wordAddr = kScuDma0SizeAddr then some ⟨0x00000000#32, 0x000FFFFF#32⟩
  else if wordAddr = kScuDma0CtrlAddr then some ⟨0x00000000#32, 0x00000017#32⟩
  else if wordAddr = kSmpcStatusAddr then some ⟨0x1#32, 0x00000000#32⟩
  else if wordAddr = kSmpcCommandAddr then some ⟨0x0#32, 0x000000FF#32⟩
  else if wordAddr = kSmpcCommandResultAddr then some ⟨0x0#32, 0x00000000#32⟩
  else if wordAddr = kVdp2TvmdAddr then some ⟨0x00000000#32, 0x0000FFFF#32⟩
  else if wordAddr = kVdp2TvstatAddr then some ⟨0x00000008#32, 0x00000000#32⟩
  else if wordAddr = kScspMcierAddr then some ⟨0x00000000#32, 0x000007FF#32⟩
  else if wordAddr = kVdp1ScuIrqBridgeAddr then some ⟨0x00000000#32, 0x00000001#32⟩
  else if wordAddr = kVdp1EventTriggerAddr then some ⟨0x00000000#32, 0x00000001#32⟩
  else if wordAddr = kVdp1EventStatusAddr then some ⟨0x00000000#32, 0x00000000#32⟩
  else if wordAddr = kVdp1CommandAddr then some ⟨0x00000000#32, 0x000000FF#32⟩
  else if wordAddr = kVdp1CommandStatusAddr then some ⟨0x00000000#32, 0x00000000#32⟩
  else if wordAddr = kVdp1CommandCompleteAddr then some ⟨0x00000000#32, 0x00000001#32⟩
  else none

def laneShift (addr : Addr) (size : Nat) : Nat :=
  if size = 1 then (3 - (addr &&& 0x3#32).toNat) * 8
  else if size = 2 then (2 - (addr &&& 0x2#32).toNat) * 8
  else 0

def sizeMask (size : Nat) : Word :=
  if size = 1 then 0xFF#32
  else if size = 2 then 0xFFFF#32
  else 0xFFFFFFFF#32

def materializeRegisterValue (spec : Option MmioRegisterSpec) (persistedValue : Word) : Word :=
  match spec with
  | none => persistedValue
  | some reg =>
    (reg.resetValue &&& ~~~reg.writableMask) ||| (persistedValue &&& reg.writableMask)

/-- The persisted registers, `none` where nothing was ever stored. -/
abbrev RegisterMap := Addr → Option Word

def readPersistedOrZero (regs : RegisterMap) (wordAddr : Addr) : Word :=
  (regs wordAddr).getD 0

structure MmioWriteLog where
  t : Nat
  cpu : Int
  addr : Addr
  value : Word
deriving DecidableEq, Repr

structure DeviceHub where
  writes : List MmioWriteLog := []
  mmioRegs : RegisterMap := fun _ => none
  scuInterruptPending : Word := 0
  scuInterruptSourcePending : Word := 0
  smpcLastCommand : Word := 0
  smpcCommandResult : Word := 0
  vdp1IrqLevel : Word := 0
  vdp1EventCounter : Word := 0
  vdp1LastCommand : Word := 0
  vdp1CompletedCounter : Word := 0
  vdp1CommandPending : Bool := false

namespace DeviceHub

def wordAddr (addr : Addr) : Addr := addr &&& ~~~0x3#32

/-- The whole register, before the lanes are selected. -/
def registerValue (d : DeviceHub) (wordAddr : Addr) : Word :=
  if wordAddr = kScuIstAddr then
    let ims := materializeRegisterValue (registerSpec kScuImsAddr)
      (readPersistedOrZero d.mmioRegs kScuImsAddr)
    (d.scuInterruptPending ||| d.scuInterruptSourcePending) &&& ~~~ims
  else if wordAddr = kScuIstSourceSetAddr then d.scuInterruptSourcePending &&& 0x0000FFFF#32
  else if wordAddr = kSmpcCommandAddr then d.smpcLastCommand &&& 0xFF#32
  else if wordAddr = kSmpcCommandResultAddr then d.smpcCommandResult
  else if wordAddr = kVdp1ScuIrqBridgeAddr then d.vdp1IrqLevel &&& 0x1#32
  else if wordAddr = kVdp1EventStatusAddr then
    (d.vdp1EventCounter &&& 0xFF#32) ||| ((d.vdp1IrqLevel &&& 0x1#32) <<< 8)
  else if wordAddr = kVdp1CommandAddr then d.vdp1LastCommand &&& 0xFF#32
  else if wordAddr = kVdp1CommandStatusAddr then
    let busy : Word := if d.vdp1CommandPending then 1 else 0
    let completed := (d.vdp1CompletedCounter &&& 0xFF#32) <<< 8
    busy ||| completed ||| ((d.vdp1LastCommand &&& 0xFF#32) <<< 16)
  else
    materializeRegisterValue (registerSpec wordAddr) (readPersistedOrZero d.mmioRegs wordAddr)

/-- Reads depend on neither the tick nor the CPU and change nothing. -/
def read (d : DeviceHub) (_t : Nat) (_cpu : Int) (addr : Addr) (size : Nat) : Word :=
  (d.registerValue (wordAddr addr) >>> laneShift addr size) &&& sizeMask size

def signalVdp1Completion (d : DeviceHub) : DeviceHub :=
  { d with
    vdp1EventCounter := d.vdp1EventCounter + 1
    vdp1CompletedCounter := d.vdp1CompletedCounter + 1
    vdp1IrqLevel := 1
    scuInterruptSourcePending := d.scuInterruptSourcePending ||| kVdp1ScuIrqMask
    vdp1CommandPending := false }

/-- The effect of a write on the registers, the write log aside. -/
def store (d : DeviceHub) (addr : Addr) (size : Nat) (value : Word) : DeviceHub :=
  let wordAddr := wordAddr addr
  let shift := laneShift addr size
  let laneMask := sizeMask size <<< shift
  let writeBits := (value <<< shift) &&& laneMask
  if wordAddr = kScuIstAddr then
    { d with scuInterruptPending := d.scuInterruptPending ||| (writeBits &&& 0x0000FFFF#32) }
  else if wordAddr = kScuIstClearAddr then
    let maskedBits := writeBits &&& 0x0000FFFF#32
    { d with
      scuInterruptPending := d.scuInterruptPending &&& ~~~maskedBits
      scuInterruptSourcePending := d.scuInterruptSourcePending &&& ~~~maskedBits }
  else if wordAddr = kScuIstSourceSetAddr then
    { d with
      scuInterruptSourcePending := d.scuInterruptSourcePending ||| (writeBits &&& 0x0000FFFF#32) }
  else if wordAddr = kScuIstSourceClearAddr then
    { d with
      scuInterruptSourcePending :=
        d.scuInterruptSourcePending &&& ~~~(writeBits &&& 0x0000FFFF#32) }
  else if wordAddr = kSmpcCommandAddr then
    let commandByte := writeBits &&& 0x000000FF#32
    { d with
      smpcLastCommand := commandByte
      smpcCommandResult := 0xA5000000#32 ||| commandByte }
  else if wordAddr = kVdp1ScuIrqBridgeAddr then
    let level := writeBits &&& 0x1#32
    { d with
      vdp1IrqLevel := level
      scuInterruptSourcePending :=
        if level &&& 0x1#32 ≠ 0 then d.scuInterruptSourcePending ||| kVdp1ScuIrqMask
        else d.scuInterruptSourcePending &&& ~~~kVdp1ScuIrqMask }
  else if wordAddr = kVdp1CommandAddr then
    let command := writeBits &&& 0xFF#32
    { d with
      vdp1LastCommand := command
      vdp1CommandPending := decide (command ≠ 0) }
  else if wordAddr = kVdp1EventTriggerAddr then
    if writeBits &&& 0x1#32 ≠ 0 then d.signalVdp1Completion else d
  else if wordAddr = kVdp1CommandCompleteAddr then
    if writeBits &&& 0x1#32 ≠ 0 ∧ d.vdp1CommandPending then d.signalVdp1Completion else d
  else
    let persistedValue := readPersistedOrZero d.mmioRegs wordAddr
    let writableMask := ((registerSpec wordAddr).map (·.writableMask)).getD 0xFFFFFFFF#32
    let maskedWrite := laneMask &&& writableMask
    if maskedWrite = 0 then d
    else
      let nextValue := (persistedValue &&& ~~~maskedWrite) ||| (writeBits &&& maskedWrite)
      { d with mmioRegs := Function.update d.mmioRegs wordAddr (some nextValue) }

def write (d : DeviceHub) (t : Nat) (cpu : Int) (addr : Addr) (size : Nat) (value : Word) :
    DeviceHub :=
  ({ d with writes := d.writes ++ [MmioWriteLog.mk t cpu addr value] }).store addr size value

end DeviceHub

end Saturnis.Dev
