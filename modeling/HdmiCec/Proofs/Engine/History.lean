import HdmiCec.Bench.Reply
import HdmiCec.Proofs.Engine.Waits

/-! Whatever is asked of an engine, in any order. A history is a list of calls, each of them a turn of
the engine; what its calls make of an engine is said once (`after_submit` and its like), and what
every call preserves holds after every history (`steady_run`). -/
namespace HdmiCec

namespace Engine

/-- All that can be asked of an engine, and the two events. They need not be the ones it waits for. -/
inductive Call where
  | setAddress (a : LogicalAddress)
  | setEnabled (on : Bool)
  | submit (m : Message)
  | startSend
  | send (m : Message)
  /-- An edge, so many ticks after the last wait began. -/
  | capture (t : Ticks)
  /-- A deadline passed; `line` is what reading the line gives then. -/
  | timeout (line : Reading)
  deriving DecidableEq, Repr

def Call.isEvent : Call → Bool
  | .capture _ | .timeout _ => true
  | _ => false

/-- What the caller gets back, and what the engine does. Where it refuses it does nothing. -/
def answer (e : Engine) : Call → Reply × Reaction
  | .setAddress a => match e.setAddress a with
    | .ok r => (.ok, r)
    | .error x => (.refused (.address x), { engine := e })
  | .setEnabled on => (.nothing, e.setEnabled on)
  | .submit m => match e.submit m with
    | .ok r => (.ok, r)
    | .error x => (.refused (.send x), { engine := e })
  | .startSend => (.nothing, e.startSend)
  | .send m => match e.send m with
    | .ok r => (.ok, r)
    | .error x => (.refused (.send x), { engine := e })
  | .capture t => (.completion (e.onCapture t).outcome, e.onCapture t)
  | .timeout line => (.completion (e.onTimeout line).outcome, e.onTimeout line)

def after (e : Engine) (c : Call) : Engine := (e.answer c).2.engine

structure Turn where
  before : Engine
  call : Call
  deriving DecidableEq, Repr

namespace Turn

def reply (t : Turn) : Reply := (t.before.answer t.call).1

def did (t : Turn) : Reaction := (t.before.answer t.call).2

def after (t : Turn) : Engine := t.before.after t.call

end Turn

def run (e : Engine) : List Call → Engine
  | [] => e
  | c :: rest => (e.after c).run rest

def turns (e : Engine) : List Call → List Turn
  | [] => []
  | c :: rest => ⟨e, c⟩ :: (e.after c).turns rest

variable {e : Engine} {m : Message}

theorem run_append (e : Engine) (a b : List Call) : e.run (a ++ b) = (e.run a).run b := by
  induction a generalizing e with
  | nil => rfl
  | cons c rest ih => exact ih _

/-- What every call preserves holds after every history. -/
theorem run_preserves {P : Engine → Prop} (step : ∀ e c, P e → P (e.after c)) (h : P e) (calls : List Call) :
    P (e.run calls) := by
  induction calls generalizing e with
  | nil => exact h
  | cons c rest ih => exact ih (step e c h)

def Accepts (e : Engine) (m : Message) : Prop := e.isEnabled = true ∧ m.Legal ∧ e.isSending = false

def contend (e : Engine) : Engine := { e with state := .initiator .freeTime }

def switchedOff (e : Engine) : Engine := { e with state := .disabled, rx := {}, tx := {} }

theorem after_setAddress (e : Engine) (a : LogicalAddress) :
    e.after (.setAddress a) = if a.Assignable then { e with address := a } else e := by
  by_cases h : a.Assignable <;> simp [after, answer, Engine.setAddress, h]

theorem setEnabled_same {on : Bool} (h : on = e.isEnabled) : e.setEnabled on = { engine := e } := by
  simp [setEnabled, h]

theorem setEnabled_on (h : e.state = .disabled) : (e.setEnabled true).engine = e.quit := by
  simp [setEnabled, isEnabled, h, enter_idle]

theorem setEnabled_off (h : e.state ≠ .disabled) : (e.setEnabled false).engine = e.switchedOff := by
  simp [setEnabled, isEnabled, h, enter, target, entry, switchedOff]

theorem startSend_of_not (h : ¬ (e.state = .idle ∧ e.isSending = true)) : e.startSend = { engine := e } := by
  simp [startSend, h]

theorem startSend_engine (e : Engine) :
    e.startSend.engine = if e.state = .idle ∧ e.isSending then e.contend else e := by
  by_cases h : e.state = .idle ∧ e.isSending
  · rw [startSend_of_idle h.1 h.2, if_pos h]
    simp [enter, target, entry, initiatorEntry, contend]
  · rw [if_neg h, startSend_of_not h]

theorem submit_error (h : ¬ e.Accepts m) : ∃ x, e.submit m = .error x := by
  cases hr : e.submit m with
  | error x => exact ⟨x, rfl⟩
  | ok r =>
    obtain ⟨hd, hm, hp, -⟩ := submit_eq_ok_iff.1 hr
    exact absurd ⟨hd, hm, hp⟩ h

theorem answer_submit (h : e.Accepts m) :
    e.answer (.submit m) = (.ok, { engine := e.load m, notices := [.submitted m] }) := by
  simp only [answer, submit_eq_ok_iff.2 ⟨h.1, h.2.1, h.2.2, rfl⟩]

theorem answer_submit_refused (h : ¬ e.Accepts m) :
    ∃ x, e.answer (.submit m) = (.refused x, { engine := e }) := by
  obtain ⟨x, hx⟩ := submit_error h
  exact ⟨.send x, by simp only [answer, hx]⟩

theorem answer_send (h : e.Accepts m) : e.answer (.send m) =
    (.ok, { (e.load m).startSend with notices := .submitted m :: (e.load m).startSend.notices }) := by
  simp only [answer, send_eq_ok_iff.2 ⟨h.1, h.2.1, h.2.2, rfl⟩]

theorem answer_send_refused (h : ¬ e.Accepts m) :
    ∃ x, e.answer (.send m) = (.refused x, { engine := e }) := by
  obtain ⟨x, hx⟩ := submit_error h
  exact ⟨.send x, by simp only [answer, send, hx]⟩

theorem after_submit (h : e.Accepts m) : e.after (.submit m) = e.load m := by rw [after, answer_submit h]

theorem after_submit_refused (h : ¬ e.Accepts m) : e.after (.submit m) = e := by
  obtain ⟨x, hx⟩ := answer_submit_refused h
  rw [after, hx]

theorem after_startSend (e : Engine) :
    e.after .startSend = if e.state = .idle ∧ e.isSending then e.contend else e := e.startSend_engine

theorem after_send (h : e.Accepts m) :
    e.after (.send m) = if e.state = .idle then (e.load m).contend else e.load m := by
  rw [after, answer_send h]
  simp only [startSend_engine, load_state, isSending_load h.2.1, and_true]

theorem after_send_refused (h : ¬ e.Accepts m) : e.after (.send m) = e := by
  obtain ⟨x, hx⟩ := answer_send_refused h
  rw [after, hx]

inductive Answers (e : Engine) : Call → Reply × Reaction → Prop
  | refuses {c : Call} {x : Refusal} : c.isEvent = false → Answers e c (.refused x, { engine := e })
  | renamed {a : LogicalAddress} :
      Answers e (.setAddress a) (.ok, { engine := { e with address := a }, notices := [.addressSet a] })
  | same {on : Bool} : on = e.isEnabled → Answers e (.setEnabled on) (.nothing, { engine := e })
  | on {r : Reaction} : e.state = .disabled → r.engine = e.quit → Answers e (.setEnabled true) (.nothing, r)
  | off {r : Reaction} : e.state ≠ .disabled → r.engine = e.switchedOff →
      Answers e (.setEnabled false) (.nothing, r)
  | takes {m : Message} : e.Accepts m →
      Answers e (.submit m) (.ok, { engine := e.load m, notices := [.submitted m] })
  | stays : ¬ (e.state = .idle ∧ e.isSending = true) → Answers e .startSend (.nothing, { engine := e })
  | contends {r : Reaction} : e.state = .idle → e.isSending = true → r.engine = e.contend →
      Answers e .startSend (.nothing, r)
  | sends {m : Message} {r : Reaction} : e.Accepts m → e.state = .idle → r.engine = (e.load m).contend →
      Answers e (.send m) (.ok, r)
  | defers {m : Message} : e.Accepts m → e.state ≠ .idle →
      Answers e (.send m) (.ok, { engine := e.load m, notices := [.submitted m] })
  | edge {t : Ticks} : Answers e (.capture t) (.completion (e.onCapture t).outcome, e.onCapture t)
  | deadline {line : Reading} : Answers e (.timeout line) (.completion (e.onTimeout line).outcome, e.onTimeout line)

theorem answers (e : Engine) (c : Call) : e.Answers c (e.answer c) := by
  cases c with
  | setAddress a =>
    by_cases ha : a.Assignable
    · simp only [answer, Engine.setAddress, if_pos ha]
      exact .renamed
    · simp only [answer, Engine.setAddress, if_neg ha]
      exact .refuses rfl
  | setEnabled on =>
    by_cases hsame : on = e.isEnabled
    · rw [answer, setEnabled_same hsame]
      exact .same hsame
    cases on with
    | true =>
      have hd : e.state = .disabled := by simpa [isEnabled] using hsame
      exact .on hd (setEnabled_on hd)
    | false =>
      have hd : e.state ≠ .disabled := by simpa [isEnabled] using hsame
      exact .off hd (setEnabled_off hd)
  | submit m =>
    by_cases ha : e.Accepts m
    · rw [answer_submit ha]
      exact .takes ha
    · obtain ⟨x, hx⟩ := answer_submit_refused ha
      rw [hx]
      exact .refuses rfl
  | startSend =>
    by_cases hi : e.state = .idle ∧ e.isSending = true
    · exact .contends hi.1 hi.2 (e.startSend_engine.trans (if_pos hi))
    · rw [answer, startSend_of_not hi]
      exact .stays hi
  | send m =>
    by_cases ha : e.Accepts m
    · rw [answer_send ha]
      by_cases hi : e.state = .idle
      · refine .sends ha hi ((e.load m).startSend_engine.trans (if_pos ⟨?_, isSending_load ha.2.1⟩))
        rw [load_state, hi]
      · rw [startSend_of_ne_idle (by rw [load_state]; exact hi)]
        exact .defers ha hi
    · obtain ⟨x, hx⟩ := answer_send_refused ha
      rw [hx]
      exact .refuses rfl
  | capture t => exact .edge
  | timeout line => exact .deadline

end Engine

/-- Where the cursor of a follower stands for a bit of this kind. The last place is reached only by
a follower that is told of edges it does not wait for. -/
def BitKind.Taken (f : BitKind) (pos : Nat) : Prop :=
  match f with
  | headerInit => pos < 4
  | headerDest => 4 ≤ pos ∧ pos < 8
  | data => 8 ≤ pos ∧ pos ≤ BitBuffer.capacity
  | eom => pos % 8 = 0 ∧ 8 ≤ pos ∧ pos ≤ BitBuffer.capacity

theorem BitKind.Taken.next {f : BitKind} {b : BitBuffer} (h : f.Taken b.pos) (hf : f ≠ .eom) :
    (f.next b.advance).Taken b.advance.pos := by
  have hp : b.advance.pos = min (b.pos + 1) BitBuffer.capacity := rfl
  have hc : BitBuffer.capacity = 128 := rfl
  cases f with
  | eom => exact absurd rfl hf
  | headerInit | headerDest | data =>
    simp only [Taken, hc] at h
    simp only [BitKind.next, BitBuffer.offset, hp, hc]
    split <;> simp only [Taken, hc] <;> omega

def Follower.Cursor (s : Follower) (r : Incoming) : Prop :=
  match s with
  | startLow | startHigh | debounce => r.buffer.pos = 0
  | low f | high f => f.Taken r.buffer.pos
  | ackLow | ackVerify | ackFinish => BitKind.eom.Taken r.buffer.pos

namespace Engine

/-- What holds of an engine whatever is asked of it, in any order. A frame that was taken but not
set about waits in an idle engine; otherwise the engine is fit. -/
structure Steady (e : Engine) : Prop where
  tx : e.tx.Fit
  busy : ∀ s, e.state = .initiator s → e.isSending = true ∧ s.Cursor e.tx
  off : e.state = .disabled → e.isSending = false
  blank : e.state.framed = false → e.rx.buffer.pos = 0
  cursor : ∀ s, e.state = .follower s → s.Cursor e.rx

variable {e : Engine} {m : Message}

theorem Steady.fit (h : e.Steady) (hs : e.state ≠ .idle) : e.Fit where
  tx := h.tx
  busy := h.busy
  prompt := fun hi => hi.elim (absurd · hs) h.off
  blank := h.blank

theorem Fit.steady (h : e.Fit) (hc : ∀ s, e.state = .follower s → s.Cursor e.rx) : e.Steady where
  tx := h.tx
  busy := h.busy
  off := fun hd => h.prompt (.inr hd)
  blank := h.blank
  cursor := hc

theorem ne_follower_quit (e : Engine) (s : Follower) : e.quit.state ≠ .follower s := by
  rcases e.quit_state with ⟨hq, -⟩ | ⟨hq, -⟩ <;> simp [hq]

theorem Steady.onTimeout (h : e.Steady) (line : Reading) : (e.onTimeout line).engine.Steady := by
  by_cases hi : e.state = .idle
  · simpa [Engine.onTimeout, deadlineMove?, hi] using h
  refine ((h.fit hi).onTimeout line).steady fun u hu => ?_
  cases hs : e.state with
  | disabled => simp [Engine.onTimeout, deadlineMove?, hs] at hu
  | idle => exact absurd hs hi
  | initiator s =>
    have hx := e.onTimeout_lapses line
    generalize (e.onTimeout line).engine = d at hx hu
    cases hx with
    | same => rw [hs] at hu; cases hu
    | quit | ended => exact absurd hu (ne_follower_quit _ u)
    | again | goes => cases hu
    | answers hf => rw [hs] at hf; cases hf
  | follower s =>
    by_cases h1 : s = .ackLow
    · subst h1
      rw [onTimeout_follower_ackLow hs] at hu ⊢
      cases hu
      exact h.cursor .ackLow hs
    by_cases h2 : s = .ackVerify
    · subst h2
      cases hr : e.rx.refused with
      | true => rw [onTimeout_refused hs hr] at hu; exact absurd hu (ne_follower_quit _ u)
      | false =>
        rw [onTimeout_follower_ackVerify hs hr] at hu ⊢
        cases hu
        exact h.cursor .ackVerify hs
    · rw [onTimeout_follower hs h1 h2] at hu
      exact absurd hu (ne_follower_quit _ u)

theorem Steady.cursor_onCapture (h : e.Steady) (t : Ticks) {u : Follower}
    (hu : (e.onCapture t).engine.state = .follower u) : u.Cursor (e.onCapture t).engine.rx := by
  cases hs : e.state with
  | disabled => simp [Engine.onCapture, edgeMove?, hs] at hu
  | idle =>
    rw [onCapture_idle hs] at hu ⊢
    cases hu
    exact h.blank (by rw [hs]; rfl)
  | initiator s =>
    by_cases hy : s = .freeTime ∨ s = .startHigh ∨ s = .high .headerInit
    · rw [onCapture_initiator hs hy] at hu ⊢
      cases hu
      exact h.blank (by rw [hs]; rfl)
    · rw [onCapture_deaf hs hy, hs] at hu
      cases hu
  | follower s =>
    have hc := h.cursor s hs
    cases s with
    | startLow =>
      by_cases ht : Symbol.start.ValidLow t
      · rw [onCapture_startLow_valid hs ht] at hu ⊢
        cases hu
        exact hc
      · rcases onCapture_startLow_invalid hs ht with hq | hq <;> rw [hq] at hu ⊢
        · exact absurd hu (ne_follower_quit _ u)
        · cases hu
          exact hc
    | startHigh =>
      rw [onCapture_startHigh hs] at hu ⊢
      split at hu
      · next ht =>
        rw [if_pos ht]
        cases hu
        simp only [Follower.Cursor, BitKind.Taken] at hc ⊢
        omega
      · exact absurd hu (ne_follower_quit _ u)
    | low f =>
      cases ht : bitOfLow? t with
      | some b =>
        rw [onCapture_low hs ht] at hu ⊢
        cases hu
        simpa only [Follower.Cursor, Incoming.pos_noteLow] using hc
      | none => rw [onCapture_low_invalid hs ht] at hu; exact absurd hu (ne_follower_quit _ u)
    | high f =>
      by_cases ht : (Symbol.ofBit (e.rx.bit f)).ValidTotal e.rx.lowTicks t
      · by_cases hf : f = .eom
        · subst hf
          rw [onCapture_high_eom hs ht] at hu ⊢
          cases hu
          exact hc
        · rw [Incoming.bit, if_neg hf] at ht
          rw [onCapture_high hs hf ht] at hu ⊢
          cases hu
          exact BitKind.Taken.next hc hf
      · rw [onCapture_high_invalid hs ht] at hu
        exact absurd hu (ne_follower_quit _ u)
    | ackLow =>
      rw [onCapture_ackLow hs] at hu ⊢
      cases hu
      exact hc
    | ackFinish =>
      rw [onCapture_ackFinish hs] at hu ⊢
      cases hu
      exact ⟨hc.2.1, hc.2.2⟩
    | debounce | ackVerify =>
      simp only [Engine.onCapture, edgeMove?, hs, Incoming.onEdge] at hu ⊢
      cases hu
      exact hc

theorem Steady.onCapture (h : e.Steady) (t : Ticks) : (e.onCapture t).engine.Steady := by
  by_cases hi : e.state = .idle
  · rw [onCapture_idle hi]
    have hb := h.blank (by rw [hi]; rfl)
    refine Fit.steady (Fit.follower (e := e) ⟨h.tx.length_le, h.tx.resends_le, h.tx.fresh⟩ fun _ => hb) ?_
    intro u hu
    cases hu
    exact hb
  · exact ((h.fit hi).onCapture t).steady fun u hu => h.cursor_onCapture t hu

theorem Steady.load (h : e.Steady) (ha : e.Accepts m) : (e.load m).Steady where
  tx := by
    refine ⟨ha.2.1.2, ?_, fun hn => ?_⟩
    · rw [load_tx]
      exact h.tx.resends_le
    · exact absurd (isSending_load ha.2.1) (by rw [isSending, hn]; decide)
  busy := fun s hs => by
    rw [load_state] at hs
    exact absurd (h.busy s hs).1 (by simp [ha.2.2])
  off := fun hd => by
    rw [load_state] at hd
    exact absurd ha.1 (by simp [isEnabled, hd])
  blank := by
    rw [load_state, load_rx]
    exact h.blank
  cursor := by
    rw [load_state, load_rx]
    exact h.cursor

theorem Steady.contend (h : e.Steady) (hi : e.state = .idle) (hp : e.isSending = true) : e.contend.Steady where
  tx := h.tx
  busy := fun s hs => by
    cases hs
    exact ⟨hp, trivial⟩
  off := fun hd => by cases hd
  blank := fun _ => h.blank (by rw [hi]; rfl)
  cursor := fun s hs => by cases hs

theorem steady_switchedOff (e : Engine) : e.switchedOff.Steady where
  tx := ⟨Nat.zero_le _, Nat.zero_le _, fun _ => rfl⟩
  busy := fun s hs => by cases hs
  off := fun _ => rfl
  blank := fun _ => rfl
  cursor := fun s hs => by cases hs

theorem Steady.after (h : e.Steady) (c : Call) : (e.after c).Steady := by
  have hx := e.answers c
  unfold Engine.after
  generalize e.answer c = x at hx
  cases hx with
  | refuses | same | stays => exact h
  | renamed => exact ⟨h.tx, h.busy, h.off, h.blank, h.cursor⟩
  | on _ hr =>
    simp only [hr]
    exact (Fit.quit h.tx).steady fun u hu => absurd hu (ne_follower_quit _ u)
  | off _ hr =>
    simp only [hr]
    exact steady_switchedOff e
  | takes ha => exact h.load ha
  | contends hi hp hr =>
    simp only [hr]
    exact h.contend hi hp
  | @sends m r ha hi hr =>
    simp only [hr]
    exact (h.load ha).contend (by rw [load_state, hi]) (isSending_load ha.2.1)
  | defers ha => exact h.load ha
  | edge => exact h.onCapture _
  | deadline => exact h.onTimeout _

theorem steady_new : ({} : Engine).Steady := steady_switchedOff {}

theorem steady_run (calls : List Call) : (({} : Engine).run calls).Steady :=
  run_preserves (fun _ c h => h.after c) steady_new calls

/-- Between one block and sixteen lie before a cursor that stands behind an EOM bit. -/
theorem legal_message {r : Incoming} (h : BitKind.eom.Taken r.buffer.pos) : r.message.Legal := by
  have hlength : r.message.length = r.buffer.pos / 8 := by
    rw [Incoming.message, BitBuffer.completed, List.length_map, List.length_range, BitBuffer.blocks]
  have hc : BitBuffer.capacity = 8 * Message.maxLength := rfl
  simp only [BitKind.Taken, hc] at h
  refine ⟨List.length_pos_iff.1 ?_, ?_⟩ <;> omega

/-- A message that an engine receives is one that the bus can carry. -/
theorem Steady.legal_received (h : e.Steady) {c : Call} (hc : c.isEvent = true)
    (ho : (e.answer c).2.outcome = some (.received m)) : m.Legal := by
  cases c with
  | capture t =>
    by_cases hs : e.state = .follower .ackLow
    · rw [answer, outcome_onCapture_ackLow hs] at ho
      split at ho
      · cases ho
        exact legal_message (h.cursor _ hs)
      · cases ho
    · rw [answer, outcome_onCapture hs] at ho
      cases ho
  | timeout line =>
    rw [answer, outcome_onTimeout] at ho
    obtain ⟨hs, -, -, rfl⟩ := received_of_verdict ho
    exact legal_message (h.cursor _ hs)
  | _ => cases hc

end Engine
end HdmiCec
