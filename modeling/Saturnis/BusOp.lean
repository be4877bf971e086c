/-
Bus operations, responses and ticks.

Ticks are 64-bit counters: `tickAdd` and `tickSub` wrap as the unsigned
arithmetic of the source does, and `tickAdd_of_lt`, `tickSub_of_le` say when
they are the exact sum and difference.
-/
import Mathlib.Order.Basic
import Saturnis.Memory

namespace Saturnis

namespace Core

/-- Ticks of the virtual clock are below it. -/
def tickModulus : Nat := 2 ^ 64

/-- `std::numeric_limits<Tick>::max()`. -/
def tickMax : Nat := tickModulus - 1

def tickAdd (a b : Nat) : Nat := (a + b) % tickModulus

def tickSub (a b : Nat) : Nat := (a + tickModulus - b) % tickModulus

theorem tickAdd_lt (a b : Nat) : tickAdd a b < tickModulus :=
  Nat.mod_lt _ (by decide)

theorem tickAdd_of_lt {a b : Nat} (h : a + b < tickModulus) : tickAdd a b = a + b :=
  Nat.mod_eq_of_lt h

theorem tickSub_of_le {a b : Nat} (hba : b ≤ a) (ha : a < tickModulus) :
    tickSub a b = a - b := by
  have h : a + tickModulus - b = (a - b) + tickModulus := by omega
  rw [tickSub, h, Nat.add_mod_right]
  exact Nat.mod_eq_of_lt (by omega)

/-- Adding the distance to a later tick ends there. -/
theorem tickAdd_tickSub {a b : Nat} (ha : a < tickModulus) (hb : b < tickModulus) :
    tickAdd a (tickSub b a) = b := by
  have h : a + (b + tickModulus - a) = b + tickModulus := by omega
  rw [tickAdd, tickSub, Nat.add_mod_mod, h, Nat.add_mod_right]
  exact Nat.mod_eq_of_lt hb

/-- A sum that does not run back has not wrapped. -/
theorem lt_tickAdd {a b : Nat} (hb : 0 < b) (hlt : b < tickModulus) (hle : a ≤ tickAdd a b) :
    a < tickAdd a b := by
  refine Nat.lt_of_le_of_ne hle fun heq => ?_
  have ha : a < tickModulus := heq ▸ tickAdd_lt a b
  rw [tickAdd] at heq
  rcases Nat.lt_or_ge (a + b) tickModulus with h | h
  · rw [Nat.mod_eq_of_lt h] at heq
    omega
  · rw [Nat.mod_eq_sub_mod h, Nat.mod_eq_of_lt (by omega)] at heq
    omega

end Core

namespace Bus

open Saturnis.Core Saturnis.Mem

inductive BusKind
  | iFetch | read | write | mmioRead | mmioWrite | barrier
deriving DecidableEq, Repr

inductive BusProducer
  | auto | cpu | dma
deriving DecidableEq, Repr

structure BusOp where
  cpuId : Int := 0
  reqTime : Nat := 0
  sequence : Nat := 0
  kind : BusKind := .read
  physAddr : Addr := 0
  size : Nat := 4
  data : Word := 0
  fillCacheLine : Bool := false
  cacheLineSize : Nat := 0
  producer : BusProducer := .auto
  producerToken : Nat := 0
deriving DecidableEq, Repr

structure BusResponse where
  value : Word := 0
  stall : Nat := 0
  startTime : Nat := 0
  commitTime : Nat := 0
  lineBase : Word := 0
  lineData : List Byte := []
deriving DecidableEq, Repr

structure CommitResult where
  inputIndex : Nat := 0
  op : BusOp := {}
  response : BusResponse := {}
deriving DecidableEq, Repr

/-- Whether the operation belongs to the DMA engine. -/
def BusOp.isDma (op : BusOp) : Bool :=
  op.producer = .dma || (op.producer = .auto && op.cpuId < 0)

def kindName : BusKind → String
  | .iFetch => "IFETCH"
  | .read => "READ"
  | .write => "WRITE"
  | .mmioRead => "MMIO_READ"
  | .mmioWrite => "MMIO_WRITE"
  | .barrier => "BARRIER"

def ownerName (op : BusOp) : String := if op.isDma then "DMA" else "CPU"

def provenanceTag (op : BusOp) : String := if op.isDma then "DMA" else "CPU"

def sourceName (op : BusOp) : String :=
  if op.isDma then "DMA"
  else
    match op.kind with
    | .iFetch => "IFETCH"
    | .read => "READ"
    | .write => "WRITE"
    | .mmioRead => "MMIO"
    | .mmioWrite => "MMIO"
    | .barrier => "BARRIER"

end Bus

end Saturnis
