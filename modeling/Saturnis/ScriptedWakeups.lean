/-
The threads never miss a wake-up.

A thread that finds nothing to do waits for the epoch of the signal hub to
change.  Whoever publishes something notifies the hub afterwards, so what a
thread has not looked at was published after its last look, and the notification
for it is still to come or newer than the epoch the thread has seen (`Alert`).

* `Producer.stepped` — what one step of a producer publishes;
* `Alert.step` — no step of a thread breaks the promise;
* `Alert.not_blocked` — when both producers wait or have returned, the arbiter
  thread does not wait.
-/
import Saturnis.ScriptedSchedules

namespace Saturnis.Core

open Saturnis.Core Saturnis.Mem Saturnis.Dev Saturnis.Bus Saturnis.Cpu

/-- The producer notifies the hub before it waits or returns. -/
def ProducerPhase.notifies : ProducerPhase → Bool
  | .announce _ | .announced | .reported | .closing | .closed => true
  | _ => false

/-- The arbiter thread has looked for a request of the CPU in this round. -/
def ArbiterPhase.polled : ArbiterPhase → Fin 2 → Bool
  | .poll d, c => c < d
  | _, _ => true

/-- The arbiter thread has emptied the watermarks of the CPU in this round. -/
def ArbiterPhase.drained : ArbiterPhase → Fin 2 → Bool
  | .poll _, _ => false
  | .drain d, c => c < d
  | _, _ => true

/-- The arbiter thread has looked at what is pending in this round. -/
def ArbiterPhase.surveyed : ArbiterPhase → Bool
  | .commit | .reply | .check => true
  | _ => false

/-- What a step of a producer publishes is still to be notified, and a
notification is a new epoch. -/
structure Producer.Stepped (p p' : Producer) (epoch epoch' : Nat) : Prop where
  next : epoch' = epoch ∨ epoch' = epoch + 1
  seen : p'.seenEpoch = p.seenEpoch ∨ p'.seenEpoch = epoch
  notifies : p.phase.notifies = true → p'.phase.notifies = true ∨ epoch' = epoch + 1
  req : p'.req = p.req ∨ p'.phase.notifies = true
  progress : p'.progress = p.progress ∨ p'.phase.notifies = true
  done : p'.done = p.done ∨ p'.phase.notifies = true
  resp : p'.phase = .wait → p' = p ∨ p'.resp = []
  keeps : p.done = true → p'.done = true
  closed : (p.done = true ↔ p.phase = .closed ∨ p.phase = .returned) →
    (p'.done = true ↔ p'.phase = .closed ∨ p'.phase = .returned)

theorem Producer.pollResponse_stepped (p : Producer) (epoch : Nat)
    (hphase : p.phase = .top ∨ p.phase = .poll) : Stepped p p.pollResponse epoch epoch := by
  have hnot : p.phase.notifies = false := by rcases hphase with h | h <;> rw [h] <;> rfl
  have hclosed : ¬ (p.phase = .closed ∨ p.phase = .returned) := by
    rcases hphase with h | h <;> simp [h]
  rcases pollResponse_cases p with ⟨hresp, heq⟩ | ⟨r, resp, hresp, heq⟩
  · rw [heq]
    exact ⟨Or.inl rfl, Or.inl rfl, by simp [hnot], Or.inl rfl, Or.inl rfl, Or.inl rfl,
      fun _ => Or.inr hresp, id, by simp [hclosed]⟩
  · rw [heq]
    exact ⟨Or.inl rfl, Or.inl rfl, by simp [hnot], Or.inl rfl, Or.inl rfl, Or.inl rfl,
      by simp, id, by simp [hclosed]⟩

theorem Producer.stepped (p : Producer) (epoch : Nat) :
    Stepped p (p.step epoch).1 epoch (p.step epoch).2 := by
  cases h : p.phase with
  | top =>
    cases hw : p.waiting with
    | some w =>
      simp only [Producer.step, h, hw]
      exact p.pollResponse_stepped epoch (Or.inl h)
    | none =>
      simp only [Producer.step, h, hw]
      cases hfetch : fetchCpu p.cpu none with
      | mk cpu pending =>
        cases pending with
        | some w =>
          exact ⟨Or.inl rfl, Or.inl rfl, by simp [h, ProducerPhase.notifies], Or.inr rfl,
            Or.inl rfl, Or.inl rfl, by simp, id, by simp [h]⟩
        | none =>
          exact ⟨Or.inl rfl, Or.inl rfl, by simp [h, ProducerPhase.notifies], Or.inl rfl,
            Or.inr rfl, Or.inl rfl, by simp, id, by simp [h]⟩
  | announce t =>
    simp only [Producer.step, h]
    exact ⟨Or.inl rfl, Or.inl rfl, fun _ => Or.inl rfl, Or.inl rfl, Or.inr rfl, Or.inl rfl,
      by simp, id, by simp [h]⟩
  | announced =>
    simp only [Producer.step, h]
    exact ⟨Or.inr rfl, Or.inl rfl, fun _ => Or.inr rfl, Or.inl rfl, Or.inl rfl, Or.inl rfl,
      by simp, id, by simp [h]⟩
  | poll =>
    simp only [Producer.step, h]
    exact p.pollResponse_stepped epoch (Or.inr h)
  | report =>
    simp only [Producer.step, h]
    exact ⟨Or.inl rfl, Or.inl rfl, by simp [h, ProducerPhase.notifies], Or.inl rfl, Or.inr rfl,
      Or.inl rfl, by simp, id, by simp [h]⟩
  | reported =>
    simp only [Producer.step, h]
    exact ⟨Or.inr rfl, Or.inl rfl, fun _ => Or.inr rfl, Or.inl rfl, Or.inl rfl, Or.inl rfl,
      by simp, id, by simp [h]⟩
  | wait =>
    simp only [Producer.step, h]
    split_ifs
    · exact ⟨Or.inl rfl, Or.inr rfl, by simp [h, ProducerPhase.notifies], Or.inl rfl, Or.inl rfl,
        Or.inl rfl, by simp, id, by simp [h]⟩
    · exact ⟨Or.inl rfl, Or.inl rfl, by simp [h, ProducerPhase.notifies], Or.inl rfl, Or.inl rfl,
        Or.inl rfl, fun _ => Or.inl rfl, id, by simp [h]⟩
  | closing =>
    simp only [Producer.step, h]
    exact ⟨Or.inl rfl, Or.inl rfl, fun _ => Or.inl rfl, Or.inl rfl, Or.inl rfl, Or.inr rfl,
      by simp, fun _ => rfl, by simp⟩
  | closed =>
    simp only [Producer.step, h]
    exact ⟨Or.inr rfl, Or.inl rfl, fun _ => Or.inr rfl, Or.inl rfl, Or.inl rfl, Or.inl rfl,
      by simp, id, by simp [h]⟩
  | returned =>
    simp only [Producer.step, h]
    exact ⟨Or.inl rfl, Or.inl rfl, by simp [h, ProducerPhase.notifies], Or.inl rfl, Or.inl rfl,
      Or.inl rfl, by simp [h], id, by simp [h]⟩

namespace ScriptedThreads

variable {s : ScriptedPair} {m : ScriptedThreads} {c d : Fin 2}

/-- The arbiter thread hears of what the CPU has published before it waits. -/
def Stirs (m : ScriptedThreads) (c : Fin 2) : Prop :=
  m.seenEpoch < m.epoch ∨ (m.producer c).phase.notifies = true

/-- A CPU without a pending operation is not at its end, or is about to notify of it. -/
def Awaits (m : ScriptedThreads) : Prop :=
  m.seenEpoch < m.epoch ∨ ∃ c, m.pending c = none ∧
    ((m.producer c).done = false ∨ (m.producer c).phase.notifies = true)

/-- Whatever a thread has not looked at, it is or will be notified of. -/
structure Alert (m : ScriptedThreads) : Prop where
  seen : m.seenEpoch ≤ m.epoch
  producerSeen : ∀ c, (m.producer c).seenEpoch ≤ m.epoch
  resp : ∀ c, (m.producer c).phase = .wait →
    (m.producer c).resp = [] ∨ (m.producer c).seenEpoch < m.epoch ∨ m.phase = .reply
  req : ∀ c, m.phase.polled c = true →
    (m.pending c).isSome = true ∨ (m.producer c).req = [] ∨ m.Stirs c
  progress : ∀ c, m.phase.drained c = true → (m.producer c).progress = [] ∨ m.Stirs c
  peer : m.phase.surveyed = true → m.waitingForPeer = true → m.Awaits
  idle : m.phase.surveyed = true → m.noPending = true → ∀ c, m.pending c = none
  wait : m.phase = .wait → m.Awaits
  closed : ∀ c, (m.producer c).done = true ↔
    (m.producer c).phase = .closed ∨ (m.producer c).phase = .returned
  exited : m.phase = .exited → ∀ c, m.pending c = none ∧ (m.producer c).done = true

theorem alert_start (script : Fin 2 → List ScriptOp) (arb : BusArbiter) :
    (start script arb).Alert where
  seen := Nat.le_refl _
  producerSeen := fun _ => Nat.le_refl _
  resp := fun _ h => absurd h (by simp [start])
  req := fun _ _ => Or.inr (Or.inl rfl)
  progress := fun _ _ => Or.inl rfl
  peer := fun _ h => absurd h Bool.false_ne_true
  idle := fun _ h => absurd h Bool.false_ne_true
  wait := fun h => absurd h (by simp [start])
  closed := fun _ => by simp [start]
  exited := fun h => absurd h (by simp [start])

/-! ### A step of a producer -/

theorem epoch_producer (d : Fin 2) : m.epoch ≤ (m.step (.producer d)).epoch := by
  have hd := (m.producer d).stepped m.epoch
  change m.epoch ≤ ((m.producer d).step m.epoch).2
  rcases hd.next with heq | heq <;> omega

theorem producer_self (d : Fin 2) :
    (m.step (.producer d)).producer d = ((m.producer d).step m.epoch).1 :=
  Function.update_self ..

theorem producer_of_ne (h : c ≠ d) : (m.step (.producer d)).producer c = m.producer c :=
  Function.update_of_ne h _ _

/-- A notification to come is not lost when a producer moves. -/
theorem notifies_producer (h : (m.producer c).phase.notifies = true) (d : Fin 2) :
    m.epoch < (m.step (.producer d)).epoch ∨
      ((m.step (.producer d)).producer c).phase.notifies = true := by
  by_cases hcd : c = d
  · subst hcd
    rw [producer_self]
    rcases ((m.producer c).stepped m.epoch).notifies h with hnot | heq
    · exact Or.inr hnot
    · refine Or.inl ?_
      change m.epoch < ((m.producer c).step m.epoch).2
      omega
  · rw [producer_of_ne hcd]
    exact Or.inr h

theorem Stirs.producer (h : m.Stirs c) (hseen : m.seenEpoch ≤ m.epoch) (d : Fin 2) :
    (m.step (.producer d)).Stirs c := by
  have hle := epoch_producer (m := m) d
  rcases h with hlt | hnot
  · exact Or.inl (Nat.lt_of_lt_of_le hlt hle)
  · exact (notifies_producer hnot d).imp (Nat.lt_of_le_of_lt hseen) id

theorem Awaits.producer (h : m.Awaits) (hseen : m.seenEpoch ≤ m.epoch) (d : Fin 2) :
    (m.step (.producer d)).Awaits := by
  have hle := epoch_producer (m := m) d
  rcases h with hlt | ⟨c, hnone, hdone | hnot⟩
  · exact Or.inl (Nat.lt_of_lt_of_le hlt hle)
  · refine Or.inr ⟨c, hnone, ?_⟩
    by_cases hcd : c = d
    · subst hcd
      rw [producer_self]
      exact ((m.producer c).stepped m.epoch).done.imp_left fun heq => heq.trans hdone
    · rw [producer_of_ne hcd]
      exact Or.inl hdone
  · rcases notifies_producer hnot d with hlt | hnot
    · exact Or.inl (Nat.lt_of_le_of_lt hseen hlt)
    · exact Or.inr ⟨c, hnone, Or.inr hnot⟩

theorem Alert.producer (h : m.Alert) (d : Fin 2) : (m.step (.producer d)).Alert := by
  have hle := epoch_producer (m := m) d
  have hd := (m.producer d).stepped m.epoch
  have hstirs : ∀ c, m.Stirs c → (m.step (.producer d)).Stirs c := fun c hc => hc.producer h.seen d
  refine ⟨Nat.le_trans h.seen hle, fun c => ?_, fun c => ?_, fun c hc => ?_, fun c hc => ?_,
    fun hs hp => (h.peer hs hp).producer h.seen d, h.idle, fun hw => (h.wait hw).producer h.seen d,
    fun c => ?_, fun he c => ⟨(h.exited he c).1, ?_⟩⟩
  · by_cases hcd : c = d
    · subst hcd
      rw [producer_self]
      have hc := h.producerSeen c
      rcases hd.seen with heq | heq <;> omega
    · rw [producer_of_ne hcd]
      exact Nat.le_trans (h.producerSeen c) hle
  · by_cases hcd : c = d
    · subst hcd
      rw [producer_self]
      intro hwait
      rcases hd.resp hwait with heq | hnil
      · rw [heq] at hwait ⊢
        exact (h.resp c hwait).imp_right (Or.imp_left fun hlt => Nat.lt_of_lt_of_le hlt hle)
      · exact Or.inl hnil
    · rw [producer_of_ne hcd]
      intro hwait
      exact (h.resp c hwait).imp_right (Or.imp_left fun hlt => Nat.lt_of_lt_of_le hlt hle)
  · rcases h.req c hc with hsome | hnil | hst
    · exact Or.inl hsome
    · refine Or.inr ?_
      by_cases hcd : c = d
      · subst hcd
        rw [Stirs, producer_self]
        exact hd.req.imp (fun heq => heq.trans hnil) Or.inr
      · rw [producer_of_ne hcd]
        exact Or.inl hnil
    · exact Or.inr (Or.inr (hstirs c hst))
  · rcases h.progress c hc with hnil | hst
    · by_cases hcd : c = d
      · subst hcd
        rw [Stirs, producer_self]
        exact hd.progress.imp (fun heq => heq.trans hnil) Or.inr
      · rw [producer_of_ne hcd]
        exact Or.inl hnil
    · exact Or.inr (hstirs c hst)
  · by_cases hcd : c = d
    · subst hcd
      rw [producer_self]
      exact hd.closed (h.closed c)
    · rw [producer_of_ne hcd]
      exact h.closed c
  · have hdone := (h.exited he c).2
    by_cases hcd : c = d
    · subst hcd
      rw [producer_self]
      exact hd.keeps hdone
    · rw [producer_of_ne hcd]
      exact hdone

/-! ### A step of the arbiter thread -/

theorem step_poll (h : m.phase = .poll c) :
    m.step .arbiter = { m.pollRequest c with phase := if c = 0 then .poll 1 else .drain 0 } := by
  rw [step, h]

theorem step_drain (h : m.phase = .drain c) : m.step .arbiter = m.drainProgress c := by
  rw [step, h]

theorem step_survey (h : m.phase = .survey) : m.step .arbiter = m.survey := by rw [step, h]

theorem step_commit (h : m.phase = .commit) : m.step .arbiter = m.commit := by rw [step, h]

theorem step_reply (h : m.phase = .reply) : m.step .arbiter = m.reply := by rw [step, h]

theorem step_check (h : m.phase = .check) : m.step .arbiter = m.check := by rw [step, h]

theorem step_wait (h : m.phase = .wait) :
    m.step .arbiter = if m.epoch ≠ m.seenEpoch then
      { m with seenEpoch := m.epoch, progressed := false, phase := .poll 0 } else m := by
  rw [step, h]

theorem step_exited (h : m.phase = .exited) : m.step .arbiter = m := by rw [step, h]

/-- The arbiter thread touches neither the variables of a producer nor its responses. -/
structure Untouched (m m' : ScriptedThreads) : Prop where
  phase : ∀ c, (m'.producer c).phase = (m.producer c).phase
  resp : ∀ c, (m'.producer c).resp = (m.producer c).resp
  done : ∀ c, (m'.producer c).done = (m.producer c).done
  producerSeen : ∀ c, (m'.producer c).seenEpoch = (m.producer c).seenEpoch
  epoch : m'.epoch = m.epoch
  seen : m'.seenEpoch = m.seenEpoch

theorem Untouched.of_eq {m' : ScriptedThreads} (hproducer : m'.producer = m.producer)
    (hepoch : m'.epoch = m.epoch) (hseen : m'.seenEpoch = m.seenEpoch) : Untouched m m' := by
  refine ⟨fun c => ?_, fun c => ?_, fun c => ?_, fun c => ?_, hepoch, hseen⟩ <;> rw [hproducer]

theorem Untouched.stirs {m' : ScriptedThreads} (h : Untouched m m') :
    m'.Stirs c ↔ m.Stirs c := by
  rw [Stirs, Stirs, h.seen, h.epoch, h.phase]

theorem Untouched.awaits {m' : ScriptedThreads} (h : Untouched m m')
    (hpending : m'.pending = m.pending) : m'.Awaits ↔ m.Awaits := by
  simp only [Awaits, h.seen, h.epoch, h.done, h.phase, hpending]

/-- What a move of the arbiter thread has to show. -/
theorem Untouched.alert {m' : ScriptedThreads} (hm : Untouched m m') (h : m.Alert)
    (hreply : m.phase ≠ .reply)
    (hreq : ∀ c, m'.phase.polled c = true →
      (m'.pending c).isSome = true ∨ (m'.producer c).req = [] ∨ m.Stirs c)
    (hprogress : ∀ c, m'.phase.drained c = true → (m'.producer c).progress = [] ∨ m.Stirs c)
    (hpeer : m'.phase.surveyed = true → m'.waitingForPeer = true → m'.Awaits)
    (hidle : m'.phase.surveyed = true → m'.noPending = true → ∀ c, m'.pending c = none)
    (hwait : m'.phase = .wait → m'.Awaits)
    (hexited : m'.phase = .exited → ∀ c, m'.pending c = none ∧ (m'.producer c).done = true) :
    m'.Alert where
  seen := by
    rw [hm.seen, hm.epoch]
    exact h.seen
  producerSeen := fun c => by
    rw [hm.producerSeen, hm.epoch]
    exact h.producerSeen c
  resp := fun c hc => by
    rw [hm.phase] at hc
    rw [hm.resp, hm.producerSeen, hm.epoch]
    exact (h.resp c hc).imp_right fun hor => Or.inl (hor.resolve_right hreply)
  req := fun c hc => by
    rw [hm.stirs]
    exact hreq c hc
  progress := fun c hc => by
    rw [hm.stirs]
    exact hprogress c hc
  peer := hpeer
  idle := hidle
  wait := hwait
  closed := fun c => by
    rw [hm.done, hm.phase]
    exact h.closed c
  exited := hexited

/-- Changing one producer in other fields. -/
theorem update_field {α : Type} (f : Producer → α) {p : Producer} (h : f p = f (m.producer c))
    (d : Fin 2) : f (Function.update m.producer c p d) = f (m.producer d) := by
  by_cases hd : d = c
  · rw [hd, Function.update_self, h]
  · rw [Function.update_of_ne hd]

theorem polled_next (c d : Fin 2)
    (h : (if c = 0 then ArbiterPhase.poll 1 else .drain 0).polled d = true) :
    d = c ∨ (ArbiterPhase.poll c).polled d = true := by
  revert c d
  decide

theorem next_not (c d : Fin 2) :
    (if c = 0 then ArbiterPhase.poll 1 else .drain 0).drained d = false ∧
      (if c = 0 then ArbiterPhase.poll 1 else .drain 0).surveyed = false ∧
        (if c = 0 then ArbiterPhase.poll 1 else .drain 0) ≠ .wait ∧
          (if c = 0 then ArbiterPhase.poll 1 else .drain 0) ≠ .exited := by
  revert c d
  decide

/-- The arbiter thread takes a request out of the mailbox, or leaves everything as it is. -/
theorem pollRequest_cases (m : ScriptedThreads) (c : Fin 2) :
    (m.pollRequest c = m ∧ ((m.pending c).isSome = true ∨ (m.producer c).req = [])) ∨
      ∃ w req q, m.pending c = none ∧ (m.producer c).req = w :: req ∧
        m.pollRequest c = { m.setProducer c q with
          pending := Function.update m.pending c (some w)
          progressed := true } ∧
        q = { m.producer c with req } := by
  rw [pollRequest]
  split
  · rename_i w req hpending hreq
    exact Or.inr ⟨w, req, _, hpending, hreq, rfl, rfl⟩
  · rename_i hnot
    refine Or.inl ⟨rfl, ?_⟩
    cases hpending : m.pending c with
    | some w => exact Or.inl rfl
    | none =>
      cases hreq : (m.producer c).req with
      | nil => exact Or.inr rfl
      | cons w req => exact absurd hreq (hnot w req hpending)

theorem Alert.poll (h : m.Alert) (hphase : m.phase = .poll c) :
    ({ m.pollRequest c with phase := if c = 0 then .poll 1 else .drain 0 } :
      ScriptedThreads).Alert := by
  have hready : ∀ {m' : ScriptedThreads}, Untouched m m' →
      (m'.phase = if c = 0 then .poll 1 else .drain 0) →
      ((m'.pending c).isSome = true ∨ (m'.producer c).req = []) →
      (∀ d, d ≠ c → m'.pending d = m.pending d ∧ m'.producer d = m.producer d) → m'.Alert := by
    intro m' hm hnext hgot hother
    refine hm.alert h (by rw [hphase]; simp) (fun d hd => ?_) (fun d hd => ?_) (fun hs => ?_)
      (fun hs => ?_) (fun hw => ?_) (fun he => ?_)
    · rw [hnext] at hd
      by_cases hdc : d = c
      · rw [hdc]
        exact hgot.imp_right Or.inl
      · have hpolled := (polled_next c d hd).resolve_left hdc
        rw [← hphase] at hpolled
        rw [(hother d hdc).1, (hother d hdc).2]
        exact h.req d hpolled
    · rw [hnext] at hd
      exact absurd ((next_not c d).1.symm.trans hd) Bool.false_ne_true
    · rw [hnext] at hs
      exact absurd ((next_not c c).2.1.symm.trans hs) Bool.false_ne_true
    · rw [hnext] at hs
      exact absurd ((next_not c c).2.1.symm.trans hs) Bool.false_ne_true
    · exact absurd (hnext.symm.trans hw) (next_not c c).2.2.1
    · exact absurd (hnext.symm.trans he) (next_not c c).2.2.2
  rcases m.pollRequest_cases c with ⟨heq, hgot⟩ | ⟨w, req, q, -, -, heq, hq⟩
  · rw [heq]
    exact hready (.of_eq rfl rfl rfl) rfl hgot fun d _ => ⟨rfl, rfl⟩
  · rw [heq]
    refine hready ⟨update_field (·.phase) (by rw [hq]), update_field (·.resp) (by rw [hq]),
      update_field (·.done) (by rw [hq]), update_field (·.seenEpoch) (by rw [hq]), rfl, rfl⟩ rfl
      (Or.inl ?_) fun d hd => ⟨Function.update_of_ne hd _ _, Function.update_of_ne hd _ _⟩
    change (Function.update m.pending c (some w) c).isSome = true
    rw [Function.update_self]
    rfl

theorem drained_next (c d : Fin 2)
    (h : (if c = 0 then ArbiterPhase.drain 1 else .survey).drained d = true) :
    d = c ∨ (ArbiterPhase.drain c).drained d = true := by
  revert c d
  decide

theorem drain_not (c : Fin 2) :
    (if c = 0 then ArbiterPhase.drain 1 else .survey).surveyed = false ∧
      (if c = 0 then ArbiterPhase.drain 1 else .survey) ≠ .wait ∧
        (if c = 0 then ArbiterPhase.drain 1 else .survey) ≠ .exited := by
  revert c
  decide

theorem drain_cons {t : Nat} {progress : List Nat}
    (hcons : (m.producer c).progress = t :: progress) :
    ∃ q, m.drainProgress c = { m.setProducer c q with
        arb := m.arb.updateProgress c.val t
        progressed := true } ∧
      q = { m.producer c with progress } := by
  rw [drainProgress, hcons]
  exact ⟨_, rfl, rfl⟩

theorem drain_nil (hnil : (m.producer c).progress = []) :
    m.drainProgress c = { m with phase := if c = 0 then .drain 1 else .survey } := by
  rw [drainProgress, hnil]

theorem Alert.drain (h : m.Alert) (hphase : m.phase = .drain c) : (m.drainProgress c).Alert := by
  have hreq : ∀ d, (m.pending d).isSome = true ∨ (m.producer d).req = [] ∨ m.Stirs d :=
    fun d => h.req d (by rw [hphase]; rfl)
  have hsurveyed : m.phase.surveyed = false := by rw [hphase]; rfl
  cases hprogress : (m.producer c).progress with
  | cons t progress =>
    obtain ⟨q, heq, hq⟩ := drain_cons hprogress
    rw [heq]
    refine Untouched.alert (m := m) ⟨update_field (·.phase) (by rw [hq]),
      update_field (·.resp) (by rw [hq]), update_field (·.done) (by rw [hq]),
      update_field (·.seenEpoch) (by rw [hq]), rfl, rfl⟩ h (by rw [hphase]; simp)
      (fun d _ => ?_) (fun d hd => ?_) (fun hs => absurd (hsurveyed.symm.trans hs) Bool.false_ne_true)
      (fun hs => absurd (hsurveyed.symm.trans hs) Bool.false_ne_true)
      (fun hw => absurd (hphase.symm.trans hw) (by simp))
      (fun he => absurd (hphase.symm.trans he) (by simp))
    · refine (hreq d).imp_right (Or.imp_left fun hnil => ?_)
      change (Function.update m.producer c q d).req = []
      rw [update_field (·.req) (by rw [hq]), hnil]
    · -- the watermarks of `c` are not all taken yet
      have hbefore : (ArbiterPhase.drain c).drained d = true := by rw [← hphase]; exact hd
      have hne : d ≠ c := by
        rintro rfl
        exact absurd (of_decide_eq_true hbefore) (lt_irrefl d)
      refine (h.progress d (by rw [hphase]; exact hbefore)).imp_left fun hnil => ?_
      change (Function.update m.producer c q d).progress = []
      rw [Function.update_of_ne hne]
      exact hnil
  | nil =>
    rw [drain_nil hprogress]
    refine Untouched.alert (m := m) (.of_eq rfl rfl rfl) h (by rw [hphase]; simp)
      (fun d _ => hreq d) (fun d hd => ?_)
      (fun hs => absurd ((drain_not c).1.symm.trans hs) Bool.false_ne_true)
      (fun hs => absurd ((drain_not c).1.symm.trans hs) Bool.false_ne_true)
      (fun hw => absurd hw (drain_not c).2.1) (fun he => absurd he (drain_not c).2.2)
    rcases drained_next c d hd with hdc | hbefore
    · rw [hdc]
      exact Or.inl hprogress
    · exact h.progress d (by rw [hphase]; exact hbefore)

theorem Alert.survey (h : m.Alert) (hphase : m.phase = .survey) : m.survey.Alert := by
  refine Untouched.alert (m := m) (.of_eq rfl rfl rfl) h (by rw [hphase]; simp)
    (fun d _ => h.req d (by rw [hphase]; rfl)) (fun d _ => h.progress d (by rw [hphase]; rfl))
    (fun _ hpeer => ?_) (fun _ hnone => ?_) (fun hw => ?_) (fun he => ?_)
  · -- the peer has nothing pending and is not done
    rw [ScriptedThreads.survey] at hpeer
    simp only [Bool.or_eq_true, Bool.and_eq_true, Bool.not_eq_true', Option.isNone_iff_eq_none]
      at hpeer
    rcases hpeer with ⟨⟨-, hnone⟩, hdone⟩ | ⟨⟨-, hnone⟩, hdone⟩
    · exact Or.inr ⟨1, hnone, Or.inl hdone⟩
    · exact Or.inr ⟨0, hnone, Or.inl hdone⟩
  · rw [ScriptedThreads.survey] at hnone
    simp only [Bool.and_eq_true, Option.isNone_iff_eq_none] at hnone
    exact Fin.forall_fin_two.mpr hnone
  · exact absurd hw (by simp [ScriptedThreads.survey])
  · exact absurd he (by simp [ScriptedThreads.survey])

/-- A commit leaves the mailboxes alone. -/
theorem commit_keeps (m : ScriptedThreads) :
    m.commit.producer = m.producer ∧ m.commit.pending = m.pending ∧ m.commit.epoch = m.epoch ∧
      m.commit.seenEpoch = m.seenEpoch ∧ m.commit.waitingForPeer = m.waitingForPeer ∧
      m.commit.noPending = m.noPending ∧ (m.commit.phase = .check ∨ m.commit.phase = .reply) := by
  rw [commit]
  split_ifs
  · exact ⟨rfl, rfl, rfl, rfl, rfl, rfl, Or.inl rfl⟩
  · refine ⟨rfl, rfl, rfl, rfl, rfl, rfl, ?_⟩
    simp only
    split_ifs
    · exact Or.inl rfl
    · exact Or.inr rfl

theorem Alert.commit (h : m.Alert) (hphase : m.phase = .commit) : m.commit.Alert := by
  obtain ⟨hproducer, hpending, hepoch, hseen, hpeer, hidle, hnext⟩ := m.commit_keeps
  have hm : Untouched m m.commit := .of_eq hproducer hepoch hseen
  have hsurveyed : m.phase.surveyed = true := by rw [hphase]; rfl
  refine hm.alert h (by rw [hphase]; simp) (fun d _ => ?_) (fun d _ => ?_) (fun _ hp => ?_)
    (fun _ hp => ?_) (fun hw => ?_) (fun he => ?_)
  · rw [hpending, hproducer]
    exact h.req d (by rw [hphase]; rfl)
  · rw [hproducer]
    exact h.progress d (by rw [hphase]; rfl)
  · rw [hm.awaits hpending]
    exact h.peer hsurveyed (hpeer.symm.trans hp)
  · rw [hpending]
    exact h.idle hsurveyed (hidle.symm.trans hp)
  · rcases hnext with heq | heq <;> exact absurd (heq.symm.trans hw) (by simp)
  · rcases hnext with heq | heq <;> exact absurd (heq.symm.trans he) (by simp)

theorem Alert.check (h : m.Alert) (hphase : m.phase = .check) : m.check.Alert := by
  have hsurveyed : m.phase.surveyed = true := by rw [hphase]; rfl
  rw [ScriptedThreads.check]
  split_ifs with hend hsleep
  · refine Untouched.alert (m := m) (.of_eq rfl rfl rfl) h (by rw [hphase]; simp)
      (fun d _ => h.req d (by rw [hphase]; rfl)) (fun d _ => h.progress d (by rw [hphase]; rfl))
      (fun hs => absurd hs Bool.false_ne_true) (fun hs => absurd hs Bool.false_ne_true)
      (fun hw => absurd hw (by simp)) (fun _ => ?_)
    simp only [Bool.and_eq_true, Option.isNone_iff_eq_none] at hend
    obtain ⟨⟨⟨hdone0, hdone1⟩, hnone0⟩, hnone1⟩ := hend
    exact Fin.forall_fin_two.mpr ⟨⟨hnone0, hdone0⟩, hnone1, hdone1⟩
  · refine Untouched.alert (m := m) (.of_eq rfl rfl rfl) h (by rw [hphase]; simp)
      (fun d _ => h.req d (by rw [hphase]; rfl)) (fun d _ => h.progress d (by rw [hphase]; rfl))
      (fun hs => absurd hs Bool.false_ne_true) (fun hs => absurd hs Bool.false_ne_true)
      (fun _ => ?_) (fun he => absurd he (by simp))
    simp only [Bool.and_eq_true, Bool.or_eq_true] at hsleep
    rcases hsleep.2 with hpeer | hnone
    · exact h.peer hsurveyed hpeer
    · -- nothing is pending, so not both are done
      have hnone := h.idle hsurveyed hnone
      by_cases hdone0 : (m.producer 0).done = true
      · by_cases hdone1 : (m.producer 1).done = true
        · exact absurd (by simp [hdone0, hdone1, hnone]) hend
        · exact Or.inr ⟨1, hnone 1, Or.inl (Bool.eq_false_iff.mpr hdone1)⟩
      · exact Or.inr ⟨0, hnone 0, Or.inl (Bool.eq_false_iff.mpr hdone0)⟩
  · refine Untouched.alert (m := m) (.of_eq rfl rfl rfl) h (by rw [hphase]; simp)
      (fun d hd => absurd hd ?_) (fun d hd => absurd hd Bool.false_ne_true)
      (fun hs => absurd hs Bool.false_ne_true) (fun hs => absurd hs Bool.false_ne_true)
      (fun hw => absurd hw (by simp)) (fun he => absurd he (by simp))
    exact (by decide : ∀ d, ¬ (ArbiterPhase.poll 0).polled d = true) d

/-- A response pushed: only the responses of its CPU and what is pending change. -/
theorem reply_cons {p : PendingBusOp} {response : BusResponse}
    {outbox : List (Request × BusResponse)} (hcons : m.outbox = ((c, p), response) :: outbox) :
    ∃ q, m.reply = { m.setProducer c q with
        pending := Function.update m.pending c none
        progressed := true
        outbox } ∧
      q = { m.producer c with
        resp := (m.producer c).resp ++ [⟨p.scriptIndex, p.op.producerToken, response⟩] } := by
  rw [ScriptedThreads.reply, hcons]
  exact ⟨_, rfl, rfl⟩

/-- After the last response the hub is notified. -/
theorem reply_nil (hnil : m.outbox = []) :
    m.reply = { m with epoch := m.epoch + 1, phase := .check } := by
  rw [ScriptedThreads.reply, hnil]

theorem Alert.reply (h : m.Alert) (hphase : m.phase = .reply)
    (hsent : ∀ c, (m.pending c).isSome = true → (m.producer c).req = []) : m.reply.Alert := by
  have hsurveyed : m.phase.surveyed = true := by rw [hphase]; rfl
  cases hout : m.outbox with
  | nil =>
    rw [reply_nil hout]
    -- the notification of the responses is newer than anything seen
    have hlt : m.seenEpoch < m.epoch + 1 := Nat.lt_succ_of_le h.seen
    refine ⟨Nat.le_of_lt hlt, fun d => Nat.le_succ_of_le (h.producerSeen d), fun d _ => ?_,
      fun d _ => Or.inr (Or.inr (Or.inl hlt)), fun d _ => Or.inr (Or.inl hlt),
      fun _ _ => Or.inl hlt, fun _ hp => h.idle hsurveyed hp, fun _ => Or.inl hlt, h.closed,
      fun he => absurd he (by simp)⟩
    exact Or.inr (Or.inl (Nat.lt_succ_of_le (h.producerSeen d)))
  | cons x outbox =>
    obtain ⟨⟨c, p⟩, response⟩ := x
    obtain ⟨q, heq, hq⟩ := reply_cons hout
    have hfield : ∀ {α : Type} (f : Producer → α), f q = f (m.producer c) → ∀ d,
        f (m.reply.producer d) = f (m.producer d) := fun f hf d => by
      rw [heq]
      exact update_field f hf d
    have hseen := hfield (·.seenEpoch) (by rw [hq])
    have hph := hfield (·.phase) (by rw [hq])
    have hnone : ∀ d, m.pending d = none → m.reply.pending d = none := by
      intro d hd
      rw [heq]
      change Function.update m.pending c none d = none
      by_cases hdc : d = c
      · rw [hdc, Function.update_self]
      · rw [Function.update_of_ne hdc, hd]
    have hepoch : m.reply.epoch = m.epoch := by rw [heq]; rfl
    have hown : m.reply.seenEpoch = m.seenEpoch := by rw [heq]; rfl
    have hstay : m.reply.phase = .reply := by rw [heq]; exact hphase
    have hstirs : ∀ d, m.reply.Stirs d ↔ m.Stirs d := fun d => by
      rw [Stirs, Stirs, hown, hepoch, hph]
    refine ⟨?_, fun d => ?_, fun d _ => Or.inr (Or.inr hstay), fun d _ => ?_, fun d _ => ?_,
      fun _ hp => ?_, fun _ hp d => hnone d (h.idle hsurveyed (by rw [heq] at hp; exact hp) d),
      fun hw => absurd (hstay.symm.trans hw) (by simp), fun d => ?_,
      fun he => absurd (hstay.symm.trans he) (by simp)⟩
    · rw [hown, hepoch]
      exact h.seen
    · rw [hseen, hepoch]
      exact h.producerSeen d
    · rw [hstirs, hfield (·.req) (by rw [hq])]
      exact Or.inr ((h.req d (by rw [hphase]; rfl)).elim (fun hd => Or.inl (hsent d hd)) id)
    · rw [hstirs, hfield (·.progress) (by rw [hq])]
      exact h.progress d (by rw [hphase]; rfl)
    · rw [Awaits, hown, hepoch]
      refine (h.peer hsurveyed (by rw [heq] at hp; exact hp)).imp_right fun ⟨d, hd, hdone⟩ =>
        ⟨d, hnone d hd, ?_⟩
      rw [hfield (·.done) (by rw [hq]), hph]
      exact hdone
    · rw [hfield (·.done) (by rw [hq]), hph]
      exact h.closed d

/-- A new round starts with nothing looked at. -/
theorem Alert.awake (h : m.Alert) (hphase : m.phase = .wait) :
    ({ m with seenEpoch := m.epoch, progressed := false, phase := .poll 0 } :
      ScriptedThreads).Alert := by
  refine ⟨Nat.le_refl _, h.producerSeen, fun c hc => ?_, fun c hc => absurd hc ?_,
    fun c hc => absurd hc Bool.false_ne_true, fun hs => absurd hs Bool.false_ne_true,
    fun hs => absurd hs Bool.false_ne_true, fun hw => absurd hw (by simp), h.closed,
    fun he => absurd he (by simp)⟩
  · refine (h.resp c hc).imp_right fun hor => Or.inl (hor.resolve_right ?_)
    rw [hphase]
    simp
  · exact (by decide : ∀ c, ¬ (ArbiterPhase.poll 0).polled c = true) c

/-- **No step of a thread loses a notification.** -/
theorem Alert.step (h : m.Alert)
    (hsent : ∀ c, (m.pending c).isSome = true → (m.producer c).req = []) (thread : Thread) :
    (m.step thread).Alert := by
  cases thread with
  | producer c => exact h.producer c
  | arbiter =>
    cases hphase : m.phase with
    | poll c => exact step_poll hphase ▸ h.poll hphase
    | drain c => exact step_drain hphase ▸ h.drain hphase
    | survey => exact step_survey hphase ▸ h.survey hphase
    | commit => exact step_commit hphase ▸ h.commit hphase
    | reply => exact step_reply hphase ▸ h.reply hphase hsent
    | check => exact step_check hphase ▸ h.check hphase
    | wait =>
      rw [step_wait hphase]
      split_ifs
      · exact h.awake hphase
      · exact h
    | exited => exact (step_exited hphase).symm ▸ h

/-! ### Threads that wait -/

/-- A producer that waits for a new epoch, or has returned. -/
def Quiet (m : ScriptedThreads) (c : Fin 2) : Prop :=
  ((m.producer c).phase = .wait ∧ m.epoch = (m.producer c).seenEpoch) ∨
    (m.producer c).phase = .returned

theorem Quiet.not_notifies (h : m.Quiet c) : (m.producer c).phase.notifies = false := by
  rcases h with ⟨hphase, -⟩ | hphase <;> rw [hphase] <;> rfl

theorem Quiet.step (h : m.Quiet c) : m.step (.producer c) = m := by
  have hstay : (m.producer c).step m.epoch = (m.producer c, m.epoch) := by
    rcases h with ⟨hphase, hseen⟩ | hphase
    · rw [Producer.step, hphase]
      exact if_neg (not_not_intro hseen)
    · rw [Producer.step, hphase]
  change { m.setProducer c ((m.producer c).step m.epoch).1 with
    epoch := ((m.producer c).step m.epoch).2 } = m
  rw [hstay, setProducer, Function.update_eq_self]

/-- A producer that a step does not move is quiet. -/
theorem quiet_of_step (h : m.step (.producer c) = m) : m.Quiet c := by
  have hproducer : ((m.producer c).step m.epoch).1 = m.producer c := by
    rw [← producer_self, h]
  have hphase := congrArg Producer.phase hproducer
  have hpoll : (m.producer c).pollResponse.phase = .wait ∨
      (m.producer c).pollResponse.phase = .report := by
    rcases pollResponse_cases (m.producer c) with ⟨-, heq⟩ | ⟨r, resp, -, heq⟩ <;> simp [heq]
  cases hp : (m.producer c).phase with
  | top =>
    rw [Producer.step, hp] at hphase
    cases hw : (m.producer c).waiting with
    | some w =>
      simp only [hw] at hphase
      rcases hpoll with heq | heq <;> exact absurd (heq.symm.trans hphase) (by simp)
    | none =>
      simp only [hw] at hphase
      split at hphase <;> exact absurd hphase (by simp)
  | poll =>
    rw [Producer.step, hp] at hphase
    rcases hpoll with heq | heq <;> exact absurd (heq.symm.trans hphase) (by simp)
  | wait =>
    rw [Producer.step, hp] at hphase
    by_cases he : m.epoch = (m.producer c).seenEpoch
    · exact Or.inl ⟨hp, he⟩
    · exact absurd hphase (by simp [he])
  | returned => exact Or.inr hp
  | _ =>
    -- in the other phases the producer goes on to the next one
    rw [Producer.step, hp] at hphase
    exact absurd hphase (by simp)

/-- Nothing is sent while its CPU has a request pending. -/
theorem req_of_pending (h : Tracks s m) (hsome : (m.pending c).isSome = true) :
    (m.producer c).req = [] := by
  obtain ⟨⟨cpu, pending, hstage, -, -⟩, -, -⟩ := h.lane c
  cases hstage with
  | requested w _ hroute =>
    simp only [Producer.route, Prod.mk.injEq] at hroute
    rw [hroute.2.2.1] at hsome
    exact absurd hsome Bool.false_ne_true
  | _ =>
    simp only [Producer.route, Prod.mk.injEq] at *
    simp_all

/-- A producer that waits has its operation in one of the mailboxes or at the arbiter. -/
theorem route_of_wait (h : Tracks s m) (hphase : (m.producer c).phase = .wait) :
    (m.producer c).req ≠ [] ∨ (m.pending c).isSome = true ∨ (m.producer c).resp ≠ [] := by
  obtain ⟨⟨cpu, pending, hstage, -, -⟩, -, -⟩ := h.lane c
  cases hstage with
  | idle hph _ => rcases hph with hph | hph <;> exact absurd (hph.symm.trans hphase) (by simp)
  | applied w hph _ => exact absurd (hph.symm.trans hphase) (by simp)
  | ended hph _ _ => rcases hph with hph | hph | hph <;> exact absurd (hph.symm.trans hphase) (by simp)
  | requested w _ hroute =>
    simp only [Producer.route, Prod.mk.injEq] at hroute
    exact Or.inl (by rw [hroute.2.1]; simp)
  | visible w _ hroute | committed w r _ hroute =>
    simp only [Producer.route, Prod.mk.injEq] at hroute
    exact Or.inr (Or.inl (by rw [hroute.2.2.1]; rfl))
  | answered w r _ hroute =>
    simp only [Producer.route, Prod.mk.injEq] at hroute
    exact Or.inr (Or.inr (by rw [hroute.2.2.2.2]; simp))

/-- **The arbiter thread does not wait when nobody else moves.** -/
theorem Alert.not_blocked (h : m.Alert) (ht : Tracks s m) (hquiet : ∀ c, m.Quiet c)
    (hphase : m.phase = .wait) : m.seenEpoch < m.epoch := by
  rcases h.wait hphase with hlt | ⟨c, hnone, hdone | hnot⟩
  · exact hlt
  · rcases hquiet c with ⟨hwait, hseen⟩ | hreturned
    · -- its operation is in a mailbox that has been looked at
      rcases route_of_wait ht hwait with hreq | hsome | hresp
      · rcases h.req c (by rw [hphase]; rfl) with hsome | hnil | hlt | hnot
        · rw [hnone] at hsome
          exact absurd hsome Bool.false_ne_true
        · exact absurd hnil hreq
        · exact hlt
        · exact absurd ((hquiet c).not_notifies.symm.trans hnot) Bool.false_ne_true
      · rw [hnone] at hsome
        exact absurd hsome Bool.false_ne_true
      · rcases h.resp c hwait with hnil | hlt | hreply
        · exact absurd hnil hresp
        · omega
        · exact absurd (hphase.symm.trans hreply) (by simp)
    · have htrue := (h.closed c).mpr (Or.inr hreturned)
      exact absurd (hdone.symm.trans htrue) Bool.false_ne_true
  · exact absurd ((hquiet c).not_notifies.symm.trans hnot) Bool.false_ne_true

/-- When the arbiter thread has left its loop, quiet producers have returned. -/
theorem Alert.finished (h : m.Alert) (hquiet : ∀ c, m.Quiet c) (hphase : m.phase = .exited) :
    m.Finished := by
  refine ⟨hphase, fun c => ?_⟩
  have hclosed := (h.closed c).mp (h.exited hphase c).2
  rcases hquiet c with ⟨hwait, -⟩ | hreturned
  · rw [hwait] at hclosed
    exact absurd hclosed (by simp)
  · exact hreturned

/-- An arbiter thread that a step does not move waits or has left its loop. -/
theorem phase_of_step (h : m.step .arbiter = m) :
    (m.phase = .wait ∧ m.epoch = m.seenEpoch) ∨ m.phase = .exited := by
  have hphase := congrArg ScriptedThreads.phase h
  cases hp : m.phase with
  | poll c =>
    rw [step_poll hp, hp] at hphase
    exact absurd hphase ((by decide : ∀ c : Fin 2,
      (if c = 0 then ArbiterPhase.poll 1 else .drain 0) ≠ .poll c) c)
  | drain c =>
    rw [step_drain hp] at h hphase
    cases hprogress : (m.producer c).progress with
    | nil =>
      rw [drain_nil hprogress, hp] at hphase
      exact absurd hphase ((by decide : ∀ c : Fin 2,
        (if c = 0 then ArbiterPhase.drain 1 else .survey) ≠ .drain c) c)
    | cons t progress =>
      obtain ⟨q, heq, hq⟩ := drain_cons hprogress
      rw [heq] at h
      have hlist : (Function.update m.producer c q c).progress = (m.producer c).progress :=
        congrArg (fun m : ScriptedThreads => (m.producer c).progress) h
      rw [Function.update_self, hq, hprogress] at hlist
      exact absurd hlist.symm (List.cons_ne_self t progress)
  | survey =>
    rw [step_survey hp, hp] at hphase
    exact absurd hphase (by simp [ScriptedThreads.survey])
  | commit =>
    rw [step_commit hp, hp] at hphase
    rcases m.commit_keeps.2.2.2.2.2.2 with heq | heq <;>
      exact absurd (heq.symm.trans hphase) (by simp)
  | reply =>
    rw [step_reply hp] at h hphase
    cases hout : m.outbox with
    | nil =>
      rw [reply_nil hout, hp] at hphase
      exact absurd hphase (by simp)
    | cons x outbox =>
      obtain ⟨⟨c, p⟩, response⟩ := x
      obtain ⟨q, heq, -⟩ := reply_cons hout
      rw [heq] at h
      have hlist : outbox = m.outbox := congrArg ScriptedThreads.outbox h
      rw [hout] at hlist
      exact absurd hlist.symm (List.cons_ne_self _ outbox)
  | check =>
    rw [step_check hp, ScriptedThreads.check, hp] at hphase
    split_ifs at hphase
  | wait =>
    refine Or.inl ⟨rfl, ?_⟩
    by_contra hne
    rw [step_wait hp, if_pos hne, hp] at hphase
    exact absurd hphase (by simp)
  | exited => exact Or.inr rfl

/-- In a run that makes moves, whoever is stuck is at the end. -/
theorem Alert.finished_of_stuck (h : m.Alert) (ht : Tracks s m) (hstuck : ∀ t, m.step t = m) :
    m.Finished := by
  have hquiet : ∀ c, m.Quiet c := fun c => quiet_of_step (hstuck (.producer c))
  rcases phase_of_step (hstuck .arbiter) with ⟨hwait, hseen⟩ | hexited
  · have hlt := h.not_blocked ht hquiet hwait
    omega
  · exact h.finished hquiet hexited

theorem Finished.step (h : m.Finished) (thread : Thread) : m.step thread = m := by
  cases thread with
  | arbiter => exact step_exited h.1
  | producer c => exact Quiet.step (Or.inr (h.2 c))

/-! ### Whole runs -/

/-- What holds at any time of a run whose ticks are within the budget. -/
structure Running (total : Nat) (m : ScriptedThreads) : Prop where
  moves : ∃ s, Tracks s m ∧ s.WithinBudget total
  alert : m.Alert

variable {total : Nat}

theorem Running.sent (h : m.Running total) (c : Fin 2) (hsome : (m.pending c).isSome = true) :
    (m.producer c).req = [] := by
  obtain ⟨s, htracks, -⟩ := h.moves
  exact req_of_pending htracks hsome

theorem Running.step (h : m.Running total) (htotal : total < tickModulus) (thread : Thread) :
    (m.step thread).Running total := by
  obtain ⟨s, htracks, hb⟩ := h.moves
  obtain ⟨s', hmoves, htracks'⟩ := htracks.move hb htotal thread
  exact ⟨⟨s', htracks', ScriptedPair.Moves.withinBudget hmoves hb htotal⟩,
    h.alert.step h.sent thread⟩

theorem Running.run (h : m.Running total) (htotal : total < tickModulus)
    (schedule : List Thread) : (m.run schedule).Running total := by
  induction schedule generalizing m with
  | nil => exact h
  | cons thread schedule ih => exact ih (h.step htotal thread)

theorem running_start (script : Fin 2 → List ScriptOp) (memory : CommittedMemory)
    (devices : DeviceHub) (policy : ArbitrationPolicy) (haltOnFault : Bool)
    (hvalid : ∀ c, ∀ ins ∈ script c, ins.valid = true)
    (hbudget : ScriptedPair.tickBudget script < tickModulus) :
    (start script { memory, devices, policy, trace := { haltOnFault } }).Running
      (ScriptedPair.tickBudget script) := by
  have hb := ScriptedPair.withinBudget_start script memory devices policy haltOnFault hvalid
  exact ⟨⟨_, Tracks.start script { memory, devices, policy, trace := { haltOnFault } }
    (fun _ => rfl) (hb.ticksFit hbudget rfl), hb⟩, alert_start script _⟩

end ScriptedThreads

/-- **No deadlock under any schedule**: a state in which no thread can move is
one in which all of them have ended. -/
theorem multithread_stuck_iff (script : Fin 2 → List ScriptOp) (memory : CommittedMemory)
    (devices : DeviceHub) (policy : ArbitrationPolicy) (haltOnFault : Bool)
    (hvalid : ∀ c, ∀ ins ∈ script c, ins.valid = true)
    (hbudget : ScriptedPair.tickBudget script < tickModulus) (schedule : List Thread) :
    (∀ thread, ((ScriptedThreads.start script
        { memory, devices, policy, trace := { haltOnFault } }).run schedule).step thread =
      (ScriptedThreads.start script
        { memory, devices, policy, trace := { haltOnFault } }).run schedule) ↔
      ((ScriptedThreads.start script
        { memory, devices, policy, trace := { haltOnFault } }).run schedule).Finished := by
  have hrun := (ScriptedThreads.running_start script memory devices policy haltOnFault hvalid
    hbudget).run hbudget schedule
  obtain ⟨s, htracks, -⟩ := hrun.moves
  exact ⟨hrun.alert.finished_of_stuck htracks, fun h thread => h.step thread⟩

theorem multithread_stuck_iff_inTurn :
    (∀ thread, ((ScriptedThreads.start writeBesideCompute
        { memory := .make 16, trace := { haltOnFault := false } }).run (inTurn 20)).step thread =
      (ScriptedThreads.start writeBesideCompute
        { memory := .make 16, trace := { haltOnFault := false } }).run (inTurn 20)) ↔
      ((ScriptedThreads.start writeBesideCompute
        { memory := .make 16, trace := { haltOnFault := false } }).run (inTurn 20)).Finished :=
  multithread_stuck_iff writeBesideCompute (.make 16) {} defaultPolicy false (by decide) (by decide)
    (inTurn 20)

end Saturnis.Core
