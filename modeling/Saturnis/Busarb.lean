/-
`libbusarb`: the stand-alone stall oracle and its arbiter.

`queryWait` only looks, `commitGrant` is the one call that changes the arbiter,
and `pickWinner` selects one of several requests of the same tick by a linear
scan (`Scan.best`) with the comparison `replaces`.
-/
import Saturnis.BusOp
import Saturnis.Scan

namespace Saturnis.Busarb

open Saturnis.Core Saturnis.Mem

inductive BusMasterId
  | sh2A | sh2B | dma
deriving DecidableEq, Repr

/-- The underlying value of the enumerator. -/
def BusMasterId.code : BusMasterId → Nat
  | sh2A => 0
  | sh2B => 1
  | dma => 2

structure BusRequest where
  masterId : BusMasterId := .sh2A
  addr : Addr := 0
  isWrite : Bool := false
  sizeBytes : Nat := 4
  nowTick : Nat := 0
deriving DecidableEq, Repr

structure BusWaitResult where
  shouldWait : Bool := false
  waitCycles : Nat := 0
deriving DecidableEq, Repr

structure ArbiterConfig where
  sameAddressContention : Nat := 2
  tieTurnaround : Nat := 1
deriving DecidableEq, Repr

/-- `TimingCallbacks::access_cycles`, with its context already applied. -/
abbrev AccessCycles := Addr → Bool → Nat → Nat

structure Arbiter where
  accessCycles : AccessCycles
  config : ArbiterConfig := {}
  busFreeTick : Nat := 0
  hasLastGrantedAddr : Bool := false
  lastGrantedAddr : Addr := 0
  lastGrantedCpu : Option BusMasterId := none

namespace Arbiter

/-- The constructor. -/
def fresh (accessCycles : AccessCycles) (config : ArbiterConfig := {}) : Arbiter :=
  { accessCycles, config }

def priority : BusMasterId → Nat
  | .dma => 2
  | .sh2A => 1
  | .sh2B => 1

def serviceCycles (arb : Arbiter) (req : BusRequest) : Nat :=
  max 1 (arb.accessCycles req.addr req.isWrite req.sizeBytes)

def queryWait (arb : Arbiter) (req : BusRequest) : BusWaitResult :=
  if req.nowTick ≥ arb.busFreeTick then ⟨false, 0⟩
  else ⟨true, min (arb.busFreeTick - req.nowTick) 0xFFFFFFFF⟩

def grantDuration (arb : Arbiter) (req : BusRequest) (hadTie : Bool) : Nat :=
  arb.serviceCycles req +
    (if arb.hasLastGrantedAddr ∧ req.addr = arb.lastGrantedAddr then
      arb.config.sameAddressContention else 0) +
    (if hadTie then arb.config.tieTurnaround else 0)

def commitGrant (arb : Arbiter) (req : BusRequest) (tickStart : Nat) (hadTie : Bool) : Arbiter :=
  { arb with
    busFreeTick := tickAdd (max tickStart arb.busFreeTick) (arb.grantDuration req hadTie)
    hasLastGrantedAddr := true
    lastGrantedAddr := req.addr
    lastGrantedCpu :=
      if req.masterId = .sh2A ∨ req.masterId = .sh2B then some req.masterId
      else arb.lastGrantedCpu }

/-- The CPU that wins a tie of the two CPUs. -/
def preferred (arb : Arbiter) : BusMasterId :=
  match arb.lastGrantedCpu with
  | none => .sh2A
  | some last => if last = .sh2A then .sh2B else .sh2A

/-- Whether the scan of `pick_winner` moves its best from `cur` to `cand`. -/
def replaces (arb : Arbiter) (cand cur : BusRequest) : Bool :=
  if priority cand.masterId > priority cur.masterId then true
  else if priority cand.masterId < priority cur.masterId then false
  else if cand.masterId ≠ .dma ∧ cur.masterId ≠ .dma ∧ cand.masterId ≠ cur.masterId then
    cand.masterId = arb.preferred
  else if cand.masterId.code < cur.masterId.code then true
  else if cand.masterId ≠ cur.masterId then false
  else if cand.addr < cur.addr then true
  else if cand.addr > cur.addr then false
  else if cand.isWrite ≠ cur.isWrite ∧ cand.isWrite then true
  else cand.sizeBytes < cur.sizeBytes

/-- The index of the selected request. -/
def pickWinner (arb : Arbiter) (sameTickRequests : List BusRequest) : Option Nat :=
  match sameTickRequests.zipIdx with
  | [] => none
  | front :: rest =>
    some (Scan.best (fun cand cur => arb.replaces cand.1 cur.1) front rest).2

/-- The selected request itself. -/
def winner (arb : Arbiter) (sameTickRequests : List BusRequest) : Option BusRequest :=
  (arb.pickWinner sameTickRequests).bind fun i => sameTickRequests[i]?

end Arbiter

end Saturnis.Busarb
