/-
Parity of `libbusarb` and the bus arbiter.

Both arbiters implement one policy: DMA first, the CPUs in turn, a penalty for
a tie and one for the address of the previous grant.  Here they are run side by
side on rounds of RAM accesses, each round granted to exhaustion.

The two keep the turn of the CPUs differently.  `BusArbiter` passes the turn
on when a tie is decided; `libbusarb` prefers the CPU that was not granted
last, contended or not.  `FairTurns` says of a run when the two rules prefer
the same CPU in every contended round.

* `replaces_shared`, `libReplaces_shared` — within a round both compare
  operations by their masters only;
* `exhaust_iff` — one round: the grants agree exactly when the preferences do
  and no access is free of charge;
* `parity_iff` — the same over whole runs.
-/
import Saturnis.ArbiterProgram
import Saturnis.BusarbWinner

namespace Saturnis.Busarb

open Saturnis.Core Saturnis.Mem Saturnis.Bus Saturnis.Dev

/-! ### Rounds that both arbiters can play -/

/-- The master an operation of the bus arbiter comes from. -/
def masterOf (op : BusOp) : BusMasterId :=
  if op.isDma then .dma else if op.cpuId = 1 then .sh2B else .sh2A

/-- The same access as a request of `libbusarb`. -/
def request (op : BusOp) : BusRequest :=
  ⟨masterOf op, op.physAddr, op.kind = .write, op.size, op.reqTime⟩

def BusMasterId.cpuId : BusMasterId → Int
  | .sh2A => 0
  | .sh2B => 1
  | .dma => -1

/-- A valid RAM read or write of one of the three masters, at the given tick. -/
structure Shared (tick : Nat) (op : BusOp) : Prop where
  reqTime : op.reqTime = tick
  kind : op.kind = .read ∨ op.kind = .write
  ram : isMmio op.physAddr = false
  valid : validateBusOp op = .none
  cpuId : op.cpuId = (masterOf op).cpuId

/-- At most one request per master, all at one tick. -/
structure SharedRound where
  tick : Nat
  ops : List BusOp
  shared : ∀ op ∈ ops, Shared tick op
  apart : (ops.map masterOf).Nodup

structure Grant where
  master : BusMasterId
  start : Nat
  finish : Nat
deriving DecidableEq, Repr

/-! ### The two runs -/

namespace Arbiter

/-- `pick_winner` and `commit_grant` until no request is left; `had_tie` is set
when another remaining request has equal priority. -/
def exhaust : Nat → Arbiter → List BusRequest → Arbiter × List Grant
  | 0, arb, _ => (arb, [])
  | n + 1, arb, reqs =>
    match arb.pickWinner reqs with
    | none => (arb, [])
    | some i =>
      match reqs[i]? with
      | none => (arb, [])
      | some req =>
        let rest := reqs.eraseIdx i
        let tie := rest.any fun r => priority r.masterId = priority req.masterId
        let after := arb.commitGrant req req.nowTick tie
        ((exhaust n after rest).1,
          ⟨req.masterId, max req.nowTick arb.busFreeTick, after.busFreeTick⟩ ::
            (exhaust n after rest).2)

def runShared (arb : Arbiter) : List SharedRound → List (List Grant)
  | [] => []
  | round :: rounds =>
    (exhaust round.ops.length arb (round.ops.map request)).2 ::
      (exhaust round.ops.length arb (round.ops.map request)).1.runShared rounds

/-- The `libbusarb` arbiter with the latencies and penalties of a bus arbiter. -/
def counterpart (latency : LatencyModel) : Arbiter :=
  fresh (fun _ isWrite _ => if isWrite then latency.ramWrite else latency.ramRead)
    ⟨latency.sameAddressContention, latency.tieTurnaround⟩

end Arbiter

def grantOf (result : CommitResult) : Grant :=
  ⟨masterOf result.op, result.response.startTime, result.response.commitTime⟩

def busRunShared (arb : BusArbiter) : List SharedRound → List (List Grant)
  | [] => []
  | round :: rounds =>
    (arb.commitBatch round.ops).2.map grantOf ::
      busRunShared (arb.commitBatch round.ops).1 rounds

/-! ### Whose turn it is -/

def BusMasterId.other : BusMasterId → BusMasterId
  | .sh2A => .sh2B
  | .sh2B => .sh2A
  | .dma => .dma

theorem BusMasterId.other_ne {m : BusMasterId} (h : m ≠ .dma) : m.other ≠ m := by
  cases m with
  | sh2A => simp [BusMasterId.other]
  | sh2B => simp [BusMasterId.other]
  | dma => exact absurd rfl h

theorem BusMasterId.other_ne_dma {m : BusMasterId} (h : m ≠ .dma) : m.other ≠ .dma := by
  cases m with
  | sh2A => simp [BusMasterId.other]
  | sh2B => simp [BusMasterId.other]
  | dma => exact absurd rfl h

/-- Some operation comes from the master. -/
def asks (ops : List BusOp) (m : BusMasterId) : Bool := ops.any fun op => masterOf op = m

/-- Both CPUs ask. -/
def contended (ops : List BusOp) : Bool := asks ops .sh2A && asks ops .sh2B

/-- The CPU `libbusarb` prefers after the last CPU grant. -/
def preferredAfter (last : Option BusMasterId) : BusMasterId :=
  match last with
  | none => .sh2A
  | some cpu => cpu.other

/-- The turn after a round: a contended round passes it on. -/
def turnAfter (turn : BusMasterId) (ops : List BusOp) : BusMasterId :=
  if contended ops then turn.other else turn

/-- The last CPU granted after a round in which the CPU on turn goes first. -/
def lastAfter (turn : BusMasterId) (last : Option BusMasterId) (ops : List BusOp) :
    Option BusMasterId :=
  if contended ops then some turn.other
  else if asks ops .sh2A then some .sh2A
  else if asks ops .sh2B then some .sh2B
  else last

/-- In every contended round the CPU on turn is the one that was not granted
last. -/
def FairTurns : BusMasterId → Option BusMasterId → List SharedRound → Prop
  | _, _, [] => True
  | turn, last, round :: rounds =>
    (contended round.ops = true → preferredAfter last = turn) ∧
      FairTurns (turnAfter turn round.ops) (lastAfter turn last round.ops) rounds

/-- The access takes bus time. -/
def Charged (latency : LatencyModel) (op : BusOp) : Prop :=
  0 < if op.kind = .write then latency.ramWrite else latency.ramRead

/-! ### Comparison by masters -/

/-- Of two masters, the first one goes first. -/
def beats (pref m m' : BusMasterId) : Bool :=
  if m = .dma then true else if m' = .dma then false else m = pref

/-- The master that goes first among those that ask. -/
def champion (pref : BusMasterId) (ops : List BusOp) : BusMasterId :=
  if asks ops .dma then .dma else if asks ops pref then pref else pref.other

variable {ops : List BusOp} {tick : Nat} {pref m : BusMasterId} {x y w : BusOp}

theorem asks_iff : asks ops m = true ↔ ∃ op ∈ ops, masterOf op = m := by
  simp [asks]

theorem beats_champion (hpref : pref ≠ .dma) (hm : asks ops m = true)
    (hne : m ≠ champion pref ops) :
    beats pref (champion pref ops) m = true ∧ beats pref m (champion pref ops) = false := by
  unfold champion at hne ⊢
  by_cases hd : asks ops .dma = true
  · rw [if_pos hd] at hne ⊢
    exact ⟨by simp [beats], by simp [beats, hne]⟩
  · have hmd : m ≠ .dma := fun heq => hd (heq ▸ hm)
    rw [if_neg hd] at hne ⊢
    by_cases hp : asks ops pref = true
    · rw [if_pos hp] at hne ⊢
      exact ⟨by simp [beats, hmd], by simp [beats, hmd, hpref, hne]⟩
    · have hmp : m ≠ pref := fun heq => hp (heq ▸ hm)
      rw [if_neg hp] at hne ⊢
      -- only the other CPU is left to ask
      cases pref <;> cases m <;> simp_all [BusMasterId.other]

theorem asks_champion (hpref : pref ≠ .dma) (hne : ops ≠ []) :
    asks ops (champion pref ops) = true := by
  obtain ⟨op, hop⟩ := List.exists_mem_of_ne_nil ops hne
  have hmem : asks ops (masterOf op) = true := asks_iff.mpr ⟨op, hop, rfl⟩
  unfold champion
  by_cases hd : asks ops .dma = true
  · rw [if_pos hd, hd]
  · rw [if_neg hd]
    by_cases hp : asks ops pref = true
    · rw [if_pos hp, hp]
    · rw [if_neg hp]
      cases hm : masterOf op <;> rw [hm] at hmem <;> cases pref <;>
        simp_all [BusMasterId.other]

theorem eq_of_masterOf (hapart : (ops.map masterOf).Nodup) (hx : x ∈ ops) (hy : y ∈ ops)
    (h : masterOf x = masterOf y) : x = y :=
  List.inj_on_of_nodup_map hapart hx hy h

theorem producerSlot_eq_iff :
    producerSlot x = producerSlot y ↔ masterOf x = masterOf y := by
  unfold producerSlot masterOf
  split <;> split <;> (try split) <;> (try split) <;> simp

/-- The CPU the bus arbiter prefers. -/
def busTurn (arb : BusArbiter) : BusMasterId := if arb.lastGrantCpu = 0 then .sh2B else .sh2A

theorem busTurn_ne_dma (arb : BusArbiter) : busTurn arb ≠ .dma := by
  unfold busTurn
  split <;> simp

theorem rank_shared {arb : BusArbiter} (hpolicy : arb.policy = defaultPolicy)
    (hx : Shared tick x) :
    arb.policy x = if masterOf x = .dma then .dma else .cpuRam := by
  have hkind : ¬ (x.kind = .mmioRead ∨ x.kind = .mmioWrite ∨ isMmio x.physAddr = true) := by
    rcases hx.kind with h | h <;> simp [h, hx.ram]
  rw [hpolicy, defaultPolicy, hx.cpuId]
  cases hm : masterOf x <;> simp [BusMasterId.cpuId, hkind]

theorem replaces_shared {arb : BusArbiter} (hpolicy : arb.policy = defaultPolicy)
    (hx : Shared tick x) (hy : Shared tick y) (hne : masterOf x ≠ masterOf y) :
    arb.replaces x y = beats (busTurn arb) (masterOf x) (masterOf y) := by
  have hstart : arb.startTime x = arb.startTime y := by
    rw [BusArbiter.startTime, BusArbiter.startTime, hx.reqTime, hy.reqTime]
  have hslot : producerSlot x ≠ producerSlot y := mt producerSlot_eq_iff.mp hne
  rw [BusArbiter.replaces, hstart, if_neg (Nat.lt_irrefl _), if_neg (Nat.lt_irrefl _),
    if_neg hslot, rank_shared hpolicy hx, rank_shared hpolicy hy, hx.cpuId, hy.cpuId]
  by_cases hlast : arb.lastGrantCpu = 0 <;> cases hmx : masterOf x <;> cases hmy : masterOf y <;>
    simp_all [beats, busTurn, PriorityClass.rank, isCpu, BusMasterId.cpuId]

theorem libReplaces_shared (lib : Arbiter) (hne : masterOf x ≠ masterOf y) :
    lib.replaces (request x) (request y) = beats lib.preferred (masterOf x) (masterOf y) := by
  have hp := lib.preferred_ne_dma
  unfold Arbiter.replaces request
  cases hpref : lib.preferred <;> cases hmx : masterOf x <;> cases hmy : masterOf y <;>
    simp_all [beats, Arbiter.priority]

/-! ### One grant -/

/-- The arbiters agree on the bus and are set up alike. -/
structure Matched (bus : BusArbiter) (lib : Arbiter) : Prop where
  free : lib.busFreeTick = bus.busFreeTime
  hasAddr : lib.hasLastGrantedAddr = bus.hasLastAddr
  addr : lib.lastGrantedAddr = bus.lastAddr
  cycles : lib.accessCycles = (Arbiter.counterpart bus.latency).accessCycles
  config : lib.config = (Arbiter.counterpart bus.latency).config
  policy : bus.policy = defaultPolicy
  untracked : bus.progressTrackingEnabled = false
  running : bus.trace.shouldHalt = false

/-- Nothing on record is after the tick. -/
def Recorded (bus : BusArbiter) (tick : Nat) : Prop :=
  ∀ slot, bus.producerSeen slot = true → bus.producerLastReqTime slot ≤ tick

variable {bus : BusArbiter} {lib : Arbiter}

/-- An operation that beats all others of a list is the choice of a scan over it. -/
theorem best_champion {r : BusOp → BusOp → Bool} (hpref : pref ≠ .dma)
    (hapart : (ops.map masterOf).Nodup) (hw : w ∈ ops) (hm : masterOf w = champion pref ops)
    (hr : ∀ x ∈ ops, ∀ y ∈ ops, masterOf x ≠ masterOf y →
      r x y = beats pref (masterOf x) (masterOf y))
    (hself : ∀ x ∈ ops, r x x = false) {front : BusOp} {rest : List BusOp}
    (hops : ops = front :: rest) : Scan.best r front rest = w := by
  have hother : ∀ x ∈ ops, x ≠ w → masterOf x ≠ champion pref ops := fun x hx hne heq =>
    hne (eq_of_masterOf hapart hx hw (heq.trans hm.symm))
  refine Scan.best_of_dominates (hops ▸ hw) (fun x hx hne => ?_) fun x hx => ?_
  · rw [← hops] at hx
    have hbeats := beats_champion hpref (asks_iff.mpr ⟨x, hx, rfl⟩) (hother x hx hne)
    rw [hr w hw x hx (by rw [hm]; exact (hother x hx hne).symm), hm]
    exact hbeats.1
  · rw [← hops] at hx
    by_cases hne : x = w
    · rw [hne]
      exact hself w hw
    · have hbeats := beats_champion hpref (asks_iff.mpr ⟨x, hx, rfl⟩) (hother x hx hne)
      rw [hr x hx w hw (by rw [hm]; exact hother x hx hne), hm]
      exact hbeats.2

theorem choice_champion (hpolicy : bus.policy = defaultPolicy)
    (huntracked : bus.progressTrackingEnabled = false) (hshared : ∀ op ∈ ops, Shared tick op)
    (hapart : (ops.map masterOf).Nodup) (hw : w ∈ ops)
    (hm : masterOf w = champion (busTurn bus) ops) : bus.choice ops = some w := by
  rw [BusArbiter.choice, BusArbiter.candidates_of_untracked huntracked]
  cases hops : ops with
  | nil =>
    rw [hops] at hw
    exact absurd hw (by simp)
  | cons front rest =>
    have hbest := best_champion (busTurn_ne_dma bus) hapart hw hm
      (fun x hx y hy hne => replaces_shared hpolicy (hshared x hx) (hshared y hy) hne)
      (fun x _ => BusArbiter.not_replaces_self x) hops
    rw [← hbest]
    simp only [Scan.best_cons, BusArbiter.not_replaces_self]
    rfl

/-- `pick_winner` finds the same element. -/
theorem pickWinner_champion (hapart : (ops.map masterOf).Nodup) (hw : w ∈ ops)
    (hm : masterOf w = champion lib.preferred ops) :
    ∃ i, lib.pickWinner (ops.map request) = some i ∧ ops[i]? = some w := by
  have hwinner : lib.winner (ops.map request) = some (request w) := by
    cases hops : ops with
    | nil =>
      rw [hops] at hw
      exact absurd hw (by simp)
    | cons front rest =>
      have hbest := best_champion (r := fun x y => lib.replaces (request x) (request y))
        lib.preferred_ne_dma hapart hw hm
        (fun x _ y _ hne => libReplaces_shared lib hne)
        (fun x _ => by simp [Arbiter.replaces]) hops
      rw [List.map_cons, Arbiter.winner_cons, ← hbest,
        ← Scan.best_map (r := lib.replaces) request front rest]
  rw [Arbiter.winner] at hwinner
  obtain ⟨i, hi, hget⟩ := Option.bind_eq_some_iff.mp hwinner
  rw [List.getElem?_map] at hget
  obtain ⟨v, hv, heq⟩ := Option.map_eq_some_iff.mp hget
  have hsame : v = w := eq_of_masterOf hapart (List.mem_of_getElem? hv) hw
    (congrArg BusRequest.masterId heq)
  exact ⟨i, hi, by rw [hv, hsame]⟩

/-- The CPU's rival asks too. -/
def clash (w : BusOp) (ops : List BusOp) : Bool :=
  decide (masterOf w ≠ .dma) && asks ops (masterOf w).other

theorem tied_clash (hpolicy : bus.policy = defaultPolicy)
    (huntracked : bus.progressTrackingEnabled = false) (hshared : ∀ op ∈ ops, Shared tick op)
    (hapart : (ops.map masterOf).Nodup) (hw : w ∈ ops) : bus.tied w ops = clash w ops := by
  rw [BusArbiter.tied, BusArbiter.candidates_of_untracked huntracked, clash, Bool.eq_iff_iff,
    List.any_eq_true, Bool.and_eq_true, asks_iff, decide_eq_true_eq]
  constructor
  · rintro ⟨x, hx, hcond⟩
    obtain ⟨hne, -, hprio⟩ := by simpa using hcond
    have hmaster : masterOf x ≠ masterOf w := fun heq => hne (eq_of_masterOf hapart hx hw heq)
    rw [rank_shared hpolicy (hshared x hx), rank_shared hpolicy (hshared w hw)] at hprio
    refine ⟨fun hdma => ?_, x, hx, ?_⟩
    · rw [if_pos hdma, if_neg (fun h => hmaster (h.trans hdma.symm))] at hprio
      exact absurd hprio (by simp)
    · cases hmx : masterOf x <;> cases hmw : masterOf w <;> simp_all [BusMasterId.other]
  · rintro ⟨hcpu, x, hx, hmx⟩
    refine ⟨x, hx, ?_⟩
    have hxd : masterOf x ≠ .dma := hmx ▸ BusMasterId.other_ne_dma hcpu
    have hne : x ≠ w := fun heq => BusMasterId.other_ne hcpu (by rw [← hmx, heq])
    have hstart : bus.startTime x = bus.startTime w := by
      rw [BusArbiter.startTime, BusArbiter.startTime, (hshared x hx).reqTime,
        (hshared w hw).reqTime]
    rw [rank_shared hpolicy (hshared x hx), rank_shared hpolicy (hshared w hw), if_neg hxd,
      if_neg hcpu, hstart]
    simp [hne]

theorem libTie_clash (hapart : (ops.map masterOf).Nodup) (hw : w ∈ ops) :
    (((ops.erase w).map request).any fun r =>
      Arbiter.priority r.masterId = Arbiter.priority (request w).masterId) = clash w ops := by
  have hnodup : ops.Nodup := List.Nodup.of_map _ hapart
  rw [List.any_map, clash, Bool.eq_iff_iff, List.any_eq_true, Bool.and_eq_true, asks_iff,
    decide_eq_true_eq]
  constructor
  · rintro ⟨x, hx, hprio⟩
    obtain ⟨hne, hx⟩ := (hnodup.mem_erase_iff).mp hx
    have hmaster : masterOf x ≠ masterOf w := fun heq => hne (eq_of_masterOf hapart hx hw heq)
    have hprio : Arbiter.priority (masterOf x) = Arbiter.priority (masterOf w) :=
      of_decide_eq_true hprio
    refine ⟨fun hdma => ?_, x, hx, ?_⟩
    · cases hmx : masterOf x <;> simp_all [Arbiter.priority]
    · cases hmx : masterOf x <;> cases hmw : masterOf w <;>
        simp_all [Arbiter.priority, BusMasterId.other]
  · rintro ⟨hcpu, x, hx, hmx⟩
    have hne : x ≠ w := fun heq => BusMasterId.other_ne hcpu (by rw [← hmx, heq])
    refine ⟨x, (hnodup.mem_erase_iff).mpr ⟨hne, hx⟩, decide_eq_true ?_⟩
    change Arbiter.priority (masterOf x) = Arbiter.priority (masterOf w)
    rw [hmx]
    cases hmw : masterOf w with
    | sh2A => rfl
    | sh2B => rfl
    | dma => exact absurd hmw hcpu

/-- What the grant of one operation adds to both logs. -/
def busGrant (bus : BusArbiter) (w : BusOp) (tie : Bool) : Grant :=
  ⟨masterOf w, (bus.grant w tie).2.startTime, (bus.grant w tie).2.commitTime⟩

def libGrant (lib : Arbiter) (w : BusOp) (tie : Bool) : Grant :=
  ⟨masterOf w, max w.reqTime lib.busFreeTick,
    (lib.commitGrant (request w) w.reqTime tie).busFreeTick⟩

theorem baseLatency_shared (hw : Shared tick w) :
    bus.baseLatency w = if w.kind = .write then bus.latency.ramWrite else bus.latency.ramRead := by
  rcases hw.kind with h | h <;> simp [BusArbiter.baseLatency, h, hw.ram]

theorem serviceCycles_shared (h : Matched bus lib) (hw : Shared tick w) :
    lib.serviceCycles (request w) = max 1 (bus.baseLatency w) := by
  rw [Arbiter.serviceCycles, h.cycles, baseLatency_shared hw]
  simp only [Arbiter.counterpart, Arbiter.fresh, request, decide_eq_true_eq]

theorem grantDuration_shared (h : Matched bus lib) (hw : Shared tick w) (tie : Bool) :
    lib.grantDuration (request w) tie =
      max 1 (bus.baseLatency w) + bus.contentionExtra w tie := by
  have hkind : w.kind ≠ .barrier := by
    rcases hw.kind with h | h <;> simp [h]
  rw [Arbiter.grantDuration, serviceCycles_shared h hw, BusArbiter.contentionExtra, h.hasAddr,
    h.addr, h.config, Nat.add_assoc]
  by_cases hsame : bus.hasLastAddr = true ∧ (request w).addr = bus.lastAddr
  · have hbus : w.kind ≠ .barrier ∧ bus.hasLastAddr = true ∧ w.physAddr = bus.lastAddr :=
      ⟨hkind, hsame⟩
    rw [if_pos hsame, if_pos hbus]
    rfl
  · have hbus : ¬ (w.kind ≠ .barrier ∧ bus.hasLastAddr = true ∧ w.physAddr = bus.lastAddr) :=
      fun hb => hsame hb.2
    rw [if_neg hsame, if_neg hbus]
    rfl

/-- The grants agree exactly when the access is charged. -/
theorem grant_eq_iff (h : Matched bus lib) (hw : Shared tick w) (tie : Bool) :
    libGrant lib w tie = busGrant bus w tie ↔ Charged bus.latency w := by
  have hfinish : (lib.commitGrant (request w) w.reqTime tie).busFreeTick =
      tickAdd (bus.startTime w) (max 1 (bus.baseLatency w) + bus.contentionExtra w tie) := by
    rw [Arbiter.commitGrant, grantDuration_shared h hw, h.free]
    rfl
  have hstart : max w.reqTime lib.busFreeTick = bus.startTime w := by
    rw [h.free]
    rfl
  rw [libGrant, busGrant, hfinish, hstart, Charged, ← baseLatency_shared hw]
  change Grant.mk _ _ _ = Grant.mk _ _ (tickAdd (bus.startTime w) (bus.totalLatency w tie)) ↔ _
  rw [BusArbiter.totalLatency, Grant.mk.injEq]
  constructor
  · rintro ⟨-, -, heq⟩
    by_contra hzero
    -- a free access is charged one tick by `libbusarb`
    have hmod : tickModulus = 18446744073709551616 := by decide
    rw [show bus.baseLatency w = 0 by omega, tickAdd, tickAdd, hmod] at heq
    omega
  · intro hpos
    rw [show max 1 (bus.baseLatency w) = bus.baseLatency w by omega]
    exact ⟨rfl, rfl, rfl⟩

theorem Matched.grant (h : Matched bus lib) (hw : Shared tick w) (hcharged : Charged bus.latency w)
    (tie : Bool) :
    Matched (bus.grant w tie).1 (lib.commitGrant (request w) w.reqTime tie) := by
  have hkind : w.kind ≠ .barrier := by
    rcases hw.kind with h | h <;> simp [h]
  have hgrant := (grant_eq_iff h hw tie).mpr hcharged
  refine ⟨congrArg Grant.finish hgrant, ?_, ?_, h.cycles, h.config, h.policy, h.untracked,
    h.running⟩
  · exact (if_neg hkind).symm
  · exact (if_neg hkind).symm

theorem Recorded.grant (h : Recorded bus tick) (hw : Shared tick w) (tie : Bool) :
    Recorded (bus.grant w tie).1 tick := by
  intro slot
  change Function.update bus.producerSeen (producerSlot w) true slot = true →
    Function.update bus.producerLastReqTime (producerSlot w) w.reqTime slot ≤ tick
  by_cases hslot : slot = producerSlot w
  · rw [hslot, Function.update_self, Function.update_self, hw.reqTime]
    exact fun _ => Nat.le_refl _
  · rw [Function.update_of_ne hslot, Function.update_of_ne hslot]
    exact h slot

theorem accepts_shared (h : Recorded bus tick) (hw : Shared tick w) : bus.accepts w = true := by
  rw [BusArbiter.accepts, hw.valid, hw.reqTime]
  cases hseen : bus.producerSeen (producerSlot w) with
  | false => simp
  | true =>
    have := h _ hseen
    simp only [Bool.true_and, decide_true, Bool.not_eq_true', decide_eq_false_iff_not]
    omega

/-! ### One round -/

theorem exhaust_of_pick {n i : Nat} (hpick : lib.pickWinner (ops.map request) = some i)
    (hget : ops[i]? = some w) (hapart : (ops.map masterOf).Nodup) :
    Arbiter.exhaust (n + 1) lib (ops.map request) =
      ((Arbiter.exhaust n (lib.commitGrant (request w) w.reqTime (clash w ops))
          ((ops.erase w).map request)).1,
        libGrant lib w (clash w ops) ::
          (Arbiter.exhaust n (lib.commitGrant (request w) w.reqTime (clash w ops))
            ((ops.erase w).map request)).2) := by
  have hnodup : ops.Nodup := List.Nodup.of_map _ hapart
  obtain ⟨hlt, hi⟩ := List.getElem?_eq_some_iff.mp hget
  have herase : (ops.map request).eraseIdx i = (ops.erase w).map request := by
    rw [List.eraseIdx_map, ← hi, hnodup.erase_getElem]
  have hreq : (ops.map request)[i]? = some (request w) := by rw [List.getElem?_map, hget]; rfl
  rw [Arbiter.exhaust, hpick]
  simp only [hreq, herase, libTie_clash hapart (List.mem_of_getElem? hget)]
  rfl

theorem asks_erase (hapart : (ops.map masterOf).Nodup) (hw : w ∈ ops) (m : BusMasterId) :
    asks (ops.erase w) m = (asks ops m && decide (m ≠ masterOf w)) := by
  have hnodup : ops.Nodup := List.Nodup.of_map _ hapart
  rw [Bool.eq_iff_iff, Bool.and_eq_true, asks_iff, asks_iff, decide_eq_true_eq]
  constructor
  · rintro ⟨x, hx, rfl⟩
    obtain ⟨hne, hx⟩ := (hnodup.mem_erase_iff).mp hx
    exact ⟨⟨x, hx, rfl⟩, fun heq => hne (eq_of_masterOf hapart hx hw heq)⟩
  · rintro ⟨⟨x, hx, rfl⟩, hne⟩
    exact ⟨x, (hnodup.mem_erase_iff).mpr ⟨fun heq => hne (by rw [heq]), hx⟩, rfl⟩

theorem busTurn_grant (hw : Shared tick w) :
    busTurn (bus.grant w (clash w ops)).1 =
      if clash w ops then (masterOf w).other else busTurn bus := by
  change (if (if clash w ops = true ∧ isCpu w.cpuId = true then w.cpuId else bus.lastGrantCpu) = 0
    then BusMasterId.sh2B else BusMasterId.sh2A) = _
  cases htie : clash w ops with
  | false =>
    simp only [Bool.false_eq_true, false_and, if_false]
    rfl
  | true =>
    have hcpu : masterOf w ≠ .dma := by
      intro h
      simp [clash, h] at htie
    rw [hw.cpuId]
    cases hm : masterOf w with
    | sh2A => rfl
    | sh2B => rfl
    | dma => exact absurd hm hcpu

/-- The last CPU granted after one grant. -/
def lastGranted (last : Option BusMasterId) (m : BusMasterId) : Option BusMasterId :=
  if m = .dma then last else some m

theorem commitGrant_last (lib : Arbiter) (w : BusOp) (tie : Bool) :
    (lib.commitGrant (request w) w.reqTime tie).lastGrantedCpu =
      lastGranted lib.lastGrantedCpu (masterOf w) := by
  rw [Arbiter.commitGrant, lastGranted]
  cases hm : masterOf w <;> simp [request, hm]

theorem preferred_eq (hlast : lib.lastGrantedCpu ≠ some .dma) :
    lib.preferred = preferredAfter lib.lastGrantedCpu := by
  unfold Arbiter.preferred
  cases h : lib.lastGrantedCpu with
  | none => rfl
  | some cpu => cases cpu <;> simp_all [preferredAfter, BusMasterId.other]

/-- The round's bookkeeping, master by master. -/
theorem turnAfter_erase (hapart : (ops.map masterOf).Nodup) (hw : w ∈ ops)
    (hm : masterOf w = champion pref ops) (hpref : pref ≠ .dma) :
    turnAfter (if clash w ops then (masterOf w).other else pref) (ops.erase w) =
      turnAfter pref ops := by
  have hask : asks ops (masterOf w) = true := asks_iff.mpr ⟨w, hw, rfl⟩
  simp only [turnAfter, contended, asks_erase hapart hw]
  rw [clash]
  rw [hm] at hask ⊢
  unfold champion at hask ⊢
  rcases Bool.eq_false_or_eq_true (asks ops .dma) with hd | hd <;>
    rcases Bool.eq_false_or_eq_true (asks ops .sh2A) with ha | ha <;>
    rcases Bool.eq_false_or_eq_true (asks ops .sh2B) with hb | hb <;>
    cases pref <;> simp_all [BusMasterId.other]

theorem lastAfter_erase (hapart : (ops.map masterOf).Nodup) (hw : w ∈ ops)
    (hm : masterOf w = champion pref ops) (hpref : pref ≠ .dma) (last : Option BusMasterId) :
    lastAfter (if clash w ops then (masterOf w).other else pref)
      (lastGranted last (masterOf w)) (ops.erase w) = lastAfter pref last ops := by
  have hask : asks ops (masterOf w) = true := asks_iff.mpr ⟨w, hw, rfl⟩
  simp only [lastAfter, lastGranted, contended, asks_erase hapart hw]
  rw [clash]
  rw [hm] at hask ⊢
  unfold champion at hask ⊢
  rcases Bool.eq_false_or_eq_true (asks ops .dma) with hd | hd <;>
    rcases Bool.eq_false_or_eq_true (asks ops .sh2A) with ha | ha <;>
    rcases Bool.eq_false_or_eq_true (asks ops .sh2B) with hb | hb <;>
    cases pref <;> simp_all [BusMasterId.other]

/-- Where the champions agree, the condition on the turn passes to what is left. -/
theorem fair_erase (hapart : (ops.map masterOf).Nodup) (hw : w ∈ ops)
    (hm : masterOf w = champion pref ops) (hpref : pref ≠ .dma) {last : Option BusMasterId}
    (hlast : preferredAfter last ≠ .dma)
    (hsame : champion pref ops = champion (preferredAfter last) ops) :
    (contended (ops.erase w) = true → preferredAfter (lastGranted last (masterOf w)) =
        if clash w ops then (masterOf w).other else pref) ↔
      (contended ops = true → preferredAfter last = pref) := by
  have hask : asks ops (masterOf w) = true := asks_iff.mpr ⟨w, hw, rfl⟩
  simp only [contended, asks_erase hapart hw, lastGranted]
  rw [clash]
  rw [hm] at hask ⊢
  unfold champion at hask hsame ⊢
  generalize hp : preferredAfter last = lib at *
  rcases Bool.eq_false_or_eq_true (asks ops .dma) with hd | hd <;>
    rcases Bool.eq_false_or_eq_true (asks ops .sh2A) with ha | ha <;>
    rcases Bool.eq_false_or_eq_true (asks ops .sh2B) with hb | hb <;>
    cases pref <;> cases lib <;> simp_all [BusMasterId.other]

/-- Where they differ, a contended round has two preferences. -/
theorem contended_of_champion_ne {pref' : BusMasterId} (hpref : pref ≠ .dma) (hpref' : pref' ≠ .dma)
    (hops : ops ≠ []) (hne : champion pref ops ≠ champion pref' ops) :
    contended ops = true ∧ pref' ≠ pref := by
  have hask := asks_champion hpref hops
  have hask' := asks_champion hpref' hops
  refine ⟨?_, fun heq => hne (by rw [heq])⟩
  rw [contended, Bool.and_eq_true]
  unfold champion at hne hask hask'
  rcases Bool.eq_false_or_eq_true (asks ops .dma) with hd | hd <;>
    rcases Bool.eq_false_or_eq_true (asks ops .sh2A) with ha | ha <;>
    rcases Bool.eq_false_or_eq_true (asks ops .sh2B) with hb | hb <;>
    cases pref <;> cases pref' <;> simp_all [BusMasterId.other]

theorem preferredAfter_ne_dma {last : Option BusMasterId} (h : last ≠ some .dma) :
    preferredAfter last ≠ .dma := by
  cases last with
  | none => simp [preferredAfter]
  | some cpu => exact BusMasterId.other_ne_dma fun heq => h (by rw [heq])

theorem lastGranted_ne_dma {last : Option BusMasterId} (h : last ≠ some .dma) (m : BusMasterId) :
    lastGranted last m ≠ some .dma := by
  rw [lastGranted]
  split
  · exact h
  · rename_i hm
    exact fun heq => hm (Option.some_inj.mp heq)

def opGrant (r : BusOp × BusResponse) : Grant := ⟨masterOf r.1, r.2.startTime, r.2.commitTime⟩

/-- The two arbiters after a round, and where the turn and the last CPU grant
have gone. -/
structure After (bus bus' : BusArbiter) (lib lib' : Arbiter) (tick : Nat) (ops : List BusOp) :
    Prop where
  matched : Matched bus' lib'
  recorded : Recorded bus' tick
  latency : bus'.latency = bus.latency
  turn : busTurn bus' = turnAfter (busTurn bus) ops
  last : lib'.lastGrantedCpu = lastAfter (busTurn bus) lib.lastGrantedCpu ops

/-- One round: the grants agree exactly when the preferences do and every
access is charged. -/
theorem exhaust_iff {n : Nat} (hlen : ops.length = n) (h : Matched bus lib)
    (hrec : Recorded bus tick) (hlast : lib.lastGrantedCpu ≠ some .dma)
    (hshared : ∀ op ∈ ops, Shared tick op) (hapart : (ops.map masterOf).Nodup) :
    ((Arbiter.exhaust n lib (ops.map request)).2 = (BusArbiter.rounds n bus ops).2.map opGrant ↔
      (contended ops = true → preferredAfter lib.lastGrantedCpu = busTurn bus) ∧
        ∀ op ∈ ops, Charged bus.latency op) ∧
    ((contended ops = true → preferredAfter lib.lastGrantedCpu = busTurn bus) ∧
        (∀ op ∈ ops, Charged bus.latency op) →
      After bus (BusArbiter.rounds n bus ops).1 lib (Arbiter.exhaust n lib (ops.map request)).1
        tick ops) := by
  induction n generalizing bus lib ops with
  | zero =>
    rw [List.length_eq_zero_iff.mp hlen]
    exact ⟨by simp [Arbiter.exhaust, BusArbiter.rounds, contended, asks],
      fun _ => ⟨h, hrec, rfl, rfl, rfl⟩⟩
  | succ n ih =>
    have hops : ops ≠ [] := by
      intro heq
      rw [heq] at hlen
      exact absurd hlen (by simp)
    have hpref := preferredAfter_ne_dma hlast
    have hpref' : lib.preferred = preferredAfter lib.lastGrantedCpu := preferred_eq hlast
    obtain ⟨w, hw, hm⟩ := asks_iff.mp (asks_champion (busTurn_ne_dma bus) hops)
    obtain ⟨v, hv, hmv⟩ := asks_iff.mp (asks_champion hpref hops)
    -- what each side grants first
    have hround : bus.opRound ops = some (w, clash w ops) := BusArbiter.opRound_eq_some.mpr
      ⟨h.running, choice_champion h.policy h.untracked hshared hapart hw hm,
        tied_clash h.policy h.untracked hshared hapart hw⟩
    have hmv' : masterOf v = champion lib.preferred ops := hpref' ▸ hmv
    obtain ⟨i, hi, hget⟩ := pickWinner_champion hapart hv hmv'
    rw [BusArbiter.rounds_of_some hround,
      BusArbiter.executeCommit_of_accepts (accepts_shared hrec (hshared w hw)),
      exhaust_of_pick hi hget hapart, List.map_cons, List.cons.injEq]
    by_cases hsame : champion (busTurn bus) ops = champion (preferredAfter lib.lastGrantedCpu) ops
    · -- the same operation, and then the rest of the round
      have hvw : v = w := eq_of_masterOf hapart hv hw (by rw [hm, hmv, hsame])
      rw [hvw]
      have hlen' : (ops.erase w).length = n := by
        rw [List.length_erase_of_mem hw, hlen]
        rfl
      have hfair := fair_erase hapart hw hm (busTurn_ne_dma bus) hpref hsame
      have hrest : ∀ hcharged : Charged bus.latency w, _ := fun hcharged =>
        ih hlen' (h.grant (hshared w hw) hcharged (clash w ops))
          (hrec.grant (hshared w hw) (clash w ops))
          (by rw [commitGrant_last]; exact lastGranted_ne_dma hlast _)
          (fun op hop => hshared op (List.mem_of_mem_erase hop))
          (hapart.sublist (List.erase_sublist.map _))
      rw [busTurn_grant (hshared w hw), commitGrant_last, hfair] at hrest
      have hall : (∀ op ∈ ops, Charged bus.latency op) ↔
          Charged bus.latency w ∧ ∀ op ∈ ops.erase w, Charged bus.latency op := by
        constructor
        · exact fun hc => ⟨hc w hw, fun op hop => hc op (List.mem_of_mem_erase hop)⟩
        · rintro ⟨hcw, hc⟩ op hop
          by_cases heq : op = w
          · rw [heq]
            exact hcw
          · exact hc op ((List.mem_erase_of_ne heq).mpr hop)
      have hhead : libGrant lib w (clash w ops) =
          opGrant (w, (bus.grant w (clash w ops)).2) ↔ Charged bus.latency w :=
        grant_eq_iff h (hshared w hw) _
      rw [hhead, hall]
      constructor
      · constructor
        · rintro ⟨hcharged, htail⟩
          obtain ⟨hturn, hc⟩ := (hrest hcharged).1.mp htail
          exact ⟨hturn, hcharged, hc⟩
        · rintro ⟨hturn, hcharged, hc⟩
          exact ⟨hcharged, (hrest hcharged).1.mpr ⟨hturn, hc⟩⟩
      · rintro ⟨hturn, hcharged, hc⟩
        have hafter := (hrest hcharged).2 ⟨hturn, hc⟩
        refine ⟨hafter.matched, hafter.recorded, hafter.latency, ?_, ?_⟩
        · rw [hafter.turn, busTurn_grant (hshared w hw),
            turnAfter_erase hapart hw hm (busTurn_ne_dma bus)]
        · rw [hafter.last, busTurn_grant (hshared w hw), commitGrant_last,
            lastAfter_erase hapart hw hm (busTurn_ne_dma bus)]
    · -- both CPUs ask, and each side grants another one first
      obtain ⟨hcont, hne⟩ := contended_of_champion_ne (busTurn_ne_dma bus) hpref hops hsame
      have hnot : ¬ ((contended ops = true → preferredAfter lib.lastGrantedCpu = busTurn bus) ∧
          ∀ op ∈ ops, Charged bus.latency op) := fun hcond => hne (hcond.1 hcont)
      refine ⟨⟨fun heq => ?_, fun hcond => absurd hcond hnot⟩, fun hcond => absurd hcond hnot⟩
      have hmaster : masterOf v = masterOf w := congrArg Grant.master heq.1
      rw [hm, hmv] at hmaster
      exact absurd hmaster.symm hsame

/-! ### Whole runs -/

theorem Matched.congr {a : BusArbiter} (heq : a.resetEnqueued = bus.resetEnqueued)
    (h : Matched bus lib) : Matched a lib := by
  have hbus : Matched bus.resetEnqueued lib :=
    ⟨h.free, h.hasAddr, h.addr, h.cycles, h.config, h.policy, h.untracked, h.running⟩
  rw [← heq] at hbus
  exact ⟨hbus.free, hbus.hasAddr, hbus.addr, hbus.cycles, hbus.config, hbus.policy,
    hbus.untracked, hbus.running⟩

theorem parity_of_matched (rounds : List SharedRound) (h : Matched bus lib)
    (hrec : ∀ round ∈ rounds, Recorded bus round.tick)
    (hlast : lib.lastGrantedCpu ≠ some .dma)
    (hticks : rounds.Pairwise fun r r' => r.tick ≤ r'.tick) :
    lib.runShared rounds = busRunShared bus rounds ↔
      FairTurns (busTurn bus) lib.lastGrantedCpu rounds ∧
        ∀ round ∈ rounds, ∀ op ∈ round.ops, Charged bus.latency op := by
  induction rounds generalizing bus lib with
  | nil => simp [Arbiter.runShared, busRunShared, FairTurns]
  | cons round rounds ih =>
    obtain ⟨htick, hticks⟩ := List.pairwise_cons.mp hticks
    have hnodup : round.ops.Nodup := List.Nodup.of_map _ round.apart
    have hordered : round.ops.Pairwise fun x y =>
        producerSlot x = producerSlot y → x.reqTime ≤ y.reqTime :=
      List.pairwise_of_forall_mem_list fun x hx y hy _ =>
        Nat.le_of_eq ((round.shared x hx).reqTime.trans (round.shared y hy).reqTime.symm)
    obtain ⟨hreset, hresults⟩ := BusArbiter.commitBatch_eq_rounds_of_ordered bus hordered hnodup
    have hgrants : (bus.commitBatch round.ops).2.map grantOf =
        (BusArbiter.rounds round.ops.length bus round.ops).2.map opGrant := by
      rw [← hresults, List.map_map]
      rfl
    obtain ⟨hiff, hafter⟩ := exhaust_iff rfl h (hrec round List.mem_cons_self) hlast round.shared
      round.apart
    rw [Arbiter.runShared, busRunShared, List.cons.injEq, hgrants, hiff, FairTurns]
    -- with equal grants in this round the rest of the run starts matched
    have hrest : (contended round.ops = true → preferredAfter lib.lastGrantedCpu = busTurn bus) ∧
        (∀ op ∈ round.ops, Charged bus.latency op) → _ := fun hcond => by
      have hafter := hafter hcond
      have hturn : busTurn (bus.commitBatch round.ops).1 = turnAfter (busTurn bus) round.ops :=
        (congrArg busTurn hreset :).trans hafter.turn
      have hlatency : (bus.commitBatch round.ops).1.latency = bus.latency :=
        (congrArg BusArbiter.latency hreset :).trans hafter.latency
      have hrec' : ∀ r ∈ rounds, Recorded (bus.commitBatch round.ops).1 r.tick := by
        intro r hr slot hslot
        change (bus.commitBatch round.ops).1.resetEnqueued.producerSeen slot = true at hslot
        change (bus.commitBatch round.ops).1.resetEnqueued.producerLastReqTime slot ≤ r.tick
        rw [hreset] at hslot ⊢
        exact Nat.le_trans (hafter.recorded slot hslot) (htick r hr)
      have hlast' : lastAfter (busTurn bus) lib.lastGrantedCpu round.ops ≠ some .dma := by
        unfold lastAfter
        split_ifs
        · exact fun heq => BusMasterId.other_ne_dma (busTurn_ne_dma bus) (Option.some_inj.mp heq)
        · simp
        · simp
        · exact hlast
      have hmain := ih (hafter.matched.congr hreset) hrec' (by rw [hafter.last]; exact hlast') hticks
      rw [hturn, hafter.last, hlatency] at hmain
      exact hmain
    constructor
    · rintro ⟨hcond, heq⟩
      obtain ⟨hfair, hcharged⟩ := (hrest hcond).mp heq
      refine ⟨⟨hcond.1, hfair⟩, fun r hr => ?_⟩
      rcases List.mem_cons.mp hr with rfl | hr
      · exact hcond.2
      · exact hcharged r hr
    · rintro ⟨⟨hturn, hfair⟩, hcharged⟩
      have hcond := And.intro hturn (hcharged round List.mem_cons_self)
      exact ⟨hcond, (hrest hcond).mpr
        ⟨hfair, fun r hr => hcharged r (List.mem_cons_of_mem round hr)⟩⟩

/-- **When the two arbiters agree.**  From reset, over rounds at non-decreasing
ticks, both grant the masters in the same order with the same start and finish
ticks if and only if in every contended round the CPU on turn is the one that
was not granted last, and no access is free of charge. -/
theorem parity_iff (memory : CommittedMemory) (devices : DeviceHub) (latency : LatencyModel)
    (rounds : List SharedRound) (hticks : rounds.Pairwise fun r r' => r.tick ≤ r'.tick) :
    (Arbiter.counterpart latency).runShared rounds =
        busRunShared { memory, devices, latency } rounds ↔
      FairTurns .sh2A none rounds ∧
        ∀ round ∈ rounds, ∀ op ∈ round.ops, Charged latency op := by
  refine parity_of_matched rounds ⟨rfl, rfl, rfl, rfl, rfl, rfl, rfl, rfl⟩ (fun _ _ slot h => ?_)
    (by simp [Arbiter.counterpart, Arbiter.fresh]) hticks
  exact absurd h (by simp)

/-- A four-byte read of each of the CPUs, at different addresses. -/
def bothRead (tick : Nat) : SharedRound where
  tick := tick
  ops := [{ cpuId := 0, reqTime := tick }, { cpuId := 1, reqTime := tick, physAddr := 16 }]
  shared := by
    intro op hop
    rcases List.mem_pair.mp hop with rfl | rfl
    · exact ⟨rfl, Or.inl rfl, (by decide : isMmio 0 = false), rfl, rfl⟩
    · exact ⟨rfl, Or.inl rfl, (by decide : isMmio 16 = false), rfl, rfl⟩
  apart := by
    show [BusMasterId.sh2A, BusMasterId.sh2B].Nodup
    decide

/-- A four-byte read of CPU 0 alone. -/
def firstReads (tick : Nat) : SharedRound where
  tick := tick
  ops := [{ cpuId := 0, reqTime := tick }]
  shared := by
    intro op hop
    rw [List.mem_singleton.mp hop]
    exact ⟨rfl, Or.inl rfl, (by decide : isMmio 0 = false), rfl, rfl⟩
  apart := List.nodup_singleton _

/-- With an uncontended read of CPU 0 between two contended rounds both
arbiters pass the turn on to CPU 1. -/
theorem parity_alternating :
    (Arbiter.counterpart {}).runShared [bothRead 0, firstReads 20, bothRead 40] =
      busRunShared { memory := .make 16 } [bothRead 0, firstReads 20, bothRead 40] := by
  refine (parity_iff (.make 16) {} {} [bothRead 0, firstReads 20, bothRead 40] ?_).mpr ⟨?_, ?_⟩
  · decide
  · rw [FairTurns, FairTurns, FairTurns, FairTurns]
    exact ⟨fun _ => rfl, fun h => absurd h (by decide), fun _ => rfl, trivial⟩
  · intro round _ op _
    rw [Charged]
    split <;> decide

/-- Without it `libbusarb` lets CPU 0 go first again. -/
theorem not_parity_contended_twice :
    ¬ ∀ (memory : CommittedMemory) (devices : DeviceHub) (latency : LatencyModel)
        (rounds : List SharedRound), rounds.Pairwise (fun r r' => r.tick ≤ r'.tick) →
      (Arbiter.counterpart latency).runShared rounds =
        busRunShared { memory, devices, latency } rounds := by
  intro h
  have heq := h (.make 16) {} {} [bothRead 0, bothRead 20] (by decide)
  revert heq
  decide

end Saturnis.Busarb
