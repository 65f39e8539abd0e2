import HdmiCec.Engine.Call

/-! What a deadline and an edge turn an engine to, state by state. -/
namespace HdmiCec

theorem lowDuration_add_highDuration (b : Bool) : lowDuration b + highDuration b = nominalBit := by
  cases b <;> rfl

theorem lowDuration_true : lowDuration true = 600 := rfl

theorem lowDuration_bounds (b : Bool) : 600 ≤ lowDuration b ∧ lowDuration b ≤ 1500 := by
  cases b <;> decide

theorem bitOfLow?_lowDuration (b : Bool) : bitOfLow? (lowDuration b) = some b := by
  cases b <;> rfl

def Outgoing.bit (x : Outgoing) (f : BitKind) : Bool := if f = .eom then x.isLast else x.buffer.current

/-- The same frame after as many refusals, wherever the cursor stands. -/
structure Outgoing.Same (y x : Outgoing) : Prop where
  length : y.length = x.length
  bits : y.buffer.bits = x.buffer.bits
  resends : y.resends = x.resends

theorem Outgoing.Same.refl {x : Outgoing} : x.Same x := ⟨rfl, rfl, rfl⟩

def Initiator.leads : Initiator → Initiator → Bool
  | freeTime, startLow | startLow, startHigh | startHigh, low .headerInit => true
  | low f, high g => f == g
  | high .eom, ackLow => true
  | high _, low _ => true
  | ackLow, ackHigh | ackHigh, ackVerify | ackVerify, low .data => true
  | _, _ => false

theorem Initiator.of_leads_high {s : Initiator} {f : BitKind} (h : s.leads (.high f) = true) : s = .low f := by
  cases s with
  | low g =>
    have h : (g == f) = true := h
    rw [eq_of_beq h]
  | high g => cases g <;> cases h
  | _ => cases h

theorem Initiator.of_leads_ackHigh {s : Initiator} (h : s.leads .ackHigh = true) : s = .ackLow := by
  cases s with
  | ackLow => rfl
  | high f => cases f <;> cases h
  | _ => cases h

theorem Initiator.of_leads_ackVerify {s : Initiator} (h : s.leads .ackVerify = true) : s = .ackHigh := by
  cases s with
  | ackHigh => rfl
  | high f => cases f <;> cases h
  | _ => cases h

def Follower.leads : Follower → Follower → Bool
  | startLow, startHigh | startLow, debounce | startHigh, low .headerInit => true
  | low f, high g => f == g
  | high .eom, ackLow => true
  | high _, low _ => true
  | ackLow, ackFinish | ackFinish, low .data => true
  | _, _ => false

namespace Engine

variable {e : Engine} {line : Reading} {t : Ticks}

theorem isSending_of_same {d e : Engine} (h : d.tx.Same e.tx) : d.isSending = e.isSending := by
  simp only [isSending, Outgoing.isPending, h.length]

/-- Gives up whatever it did. A frame that waits for its turn gets it now. -/
def quit (e : Engine) : Engine :=
  { e.rest with state := if e.isSending then .initiator .freeTime else .idle }

theorem enter_idle (e : Engine) (line : Reading) : (e.enter .idle line).engine = e.quit := by
  by_cases h : e.isSending
  · simp [enter, target, h, quit, entry, initiatorEntry]
  · simp [enter, target, h, quit, entry]

/-! Deadlines of an initiator. -/

theorem onTimeout_freeTime (h : e.state = .initiator .freeTime) : (e.onTimeout line).engine =
    { e with state := .initiator .startLow, tx := { e.tx.rewind with presentInitiator := true } } := by
  simp [onTimeout, deadlineMove?, h, Outgoing.onDeadline, perform, enter, target, entry, initiatorEntry]

theorem onTimeout_startLow (h : e.state = .initiator .startLow) :
    (e.onTimeout line).engine = { e with state := .initiator .startHigh } := by
  simp [onTimeout, deadlineMove?, h, Outgoing.onDeadline, perform, enter, target, entry, initiatorEntry]

theorem onTimeout_startHigh (h : e.state = .initiator .startHigh) :
    (e.onTimeout line).engine = { e with state := .initiator (.low .headerInit) } := by
  simp [onTimeout, deadlineMove?, h, Outgoing.onDeadline, perform, enter, target, entry, initiatorEntry]

theorem onTimeout_low {f : BitKind} (h : e.state = .initiator (.low f)) :
    (e.onTimeout line).engine = { e with state := .initiator (.high f) } := by
  cases f <;>
    simp [onTimeout, deadlineMove?, h, Outgoing.onDeadline, perform, enter, target, entry, initiatorEntry]

theorem onTimeout_high_eom (h : e.state = .initiator (.high .eom)) :
    (e.onTimeout line).engine = { e with state := .initiator .ackLow } := by
  simp [onTimeout, deadlineMove?, h, Outgoing.onDeadline, perform, enter, target, entry, initiatorEntry]

/-- A bit of a block is out, the next one begins. -/
theorem onTimeout_high {f : BitKind} (h : e.state = .initiator (.high f)) (hf : f ≠ .eom) :
    (e.onTimeout line).engine =
      { e with state := .initiator (.low (({ e.tx with buffer := e.tx.buffer.advance } : Outgoing).next f)),
               tx := { e.tx with buffer := e.tx.buffer.advance } } := by
  cases f with
  | eom => exact absurd rfl hf
  | _ =>
    simp only [onTimeout, deadlineMove?, h, Outgoing.onDeadline, perform, enter, target, entry]
    generalize Outgoing.next _ _ = g
    cases g <;> simp [initiatorEntry]

theorem onTimeout_ackLow (h : e.state = .initiator .ackLow) :
    (e.onTimeout line).engine = { e with state := .initiator .ackHigh } := by
  simp [onTimeout, deadlineMove?, h, Outgoing.onDeadline, perform, enter, target, entry, initiatorEntry]

theorem onTimeout_ackHigh (h : e.state = .initiator .ackHigh) : (e.onTimeout line).engine =
    { e with state := .initiator .ackVerify,
             tx := { e.tx with acked := line.isLow != e.tx.isBroadcast } } := by
  simp [onTimeout, deadlineMove?, h, Outgoing.onDeadline, perform, enter, target, entry, initiatorEntry]

theorem onTimeout_acked (h : e.state = .initiator .ackVerify) (ha : e.tx.acked = true)
    (hl : e.tx.isLast = false) : (e.onTimeout line).engine = { e with state := .initiator (.low .data) } := by
  simp [onTimeout, deadlineMove?, h, Outgoing.onDeadline, judgeAck, ha, hl, perform, enter, target, entry,
    initiatorEntry]

theorem onTimeout_sent (h : e.state = .initiator .ackVerify) (ha : e.tx.acked = true)
    (hl : e.tx.isLast = true) :
    (e.onTimeout line).engine = { e with tx := e.tx.finish }.quit := by
  simp [onTimeout, deadlineMove?, h, Outgoing.onDeadline, judgeAck, ha, hl, perform, enter_idle]

theorem onTimeout_resend (h : e.state = .initiator .ackVerify) (ha : e.tx.acked = false)
    (hr : e.tx.resends < Outgoing.maxResends) : (e.onTimeout line).engine =
      { e with state := .initiator .freeTime, tx := { e.tx with resends := e.tx.resends + 1 } } := by
  simp [onTimeout, deadlineMove?, h, Outgoing.onDeadline, judgeAck, ha, Outgoing.refused?, hr, perform, enter,
    target, entry, initiatorEntry]

theorem onTimeout_failed (h : e.state = .initiator .ackVerify) (ha : e.tx.acked = false)
    (hr : ¬ e.tx.resends < Outgoing.maxResends) :
    (e.onTimeout line).engine = { e with tx := e.tx.finish }.quit := by
  simp [onTimeout, deadlineMove?, h, Outgoing.onDeadline, judgeAck, ha, Outgoing.refused?, hr, perform,
    enter_idle]

/-! Deadlines of a follower. -/

theorem onTimeout_follower_ackLow (h : e.state = .follower .ackLow) : (e.onTimeout line).engine =
    { e with state := .follower .ackVerify,
             rx := { e.rx with refused := e.rx.destination.isBroadcast && line.isLow } } := by
  simp [onTimeout, deadlineMove?, h, perform, enter, target, entry, followerEntry]

theorem onTimeout_refused (h : e.state = .follower .ackVerify) (hr : e.rx.refused = true) :
    (e.onTimeout line).engine = e.quit := by
  simp [onTimeout, deadlineMove?, h, hr, perform, enter_idle]

theorem onTimeout_follower_ackVerify (h : e.state = .follower .ackVerify) (hr : e.rx.refused = false) :
    (e.onTimeout line).engine = { e with state := .follower .ackFinish } := by
  simp [onTimeout, deadlineMove?, h, hr, perform, enter, target, entry, engine_ackFinish]

theorem onTimeout_follower {s : Follower} (h : e.state = .follower s) (h1 : s ≠ .ackLow)
    (h2 : s ≠ .ackVerify) : (e.onTimeout line).engine = e.quit := by
  cases s <;> first | contradiction | simp [onTimeout, deadlineMove?, h, perform, enter_idle]

/-! Edges. -/

theorem onCapture_idle (h : e.state = .idle) : (e.onCapture t).engine =
    { e with state := .follower .startLow, tx := { e.tx with presentInitiator := false } } := by
  simp [onCapture, edgeMove?, h, perform, enter, target, entry, followerEntry]

theorem onCapture_initiator {s : Initiator} (h : e.state = .initiator s)
    (hs : s = .freeTime ∨ s = .startHigh ∨ s = .high .headerInit) : (e.onCapture t).engine =
      { e with state := .follower .startLow, tx := { e.tx.rewind with presentInitiator := false } } := by
  rcases hs with rfl | rfl | rfl <;>
    simp [onCapture, edgeMove?, h, perform, enter, target, entry, followerEntry]

theorem onCapture_deaf {s : Initiator} (h : e.state = .initiator s)
    (hs : ¬ (s = .freeTime ∨ s = .startHigh ∨ s = .high .headerInit)) : e.onCapture t = { engine := e } := by
  cases s with
  | high f => cases f <;> simp_all [onCapture, edgeMove?]
  | _ => simp_all [onCapture, edgeMove?]

theorem onCapture_startLow_valid (h : e.state = .follower .startLow) (ht : Symbol.start.ValidLow t) :
    (e.onCapture t).engine =
      { e with state := .follower .startHigh, rx := { e.rx with lowTicks := t, glitches := {} } } := by
  simp [onCapture, edgeMove?, h, Incoming.onEdge, StartPulse.ofLow_eq_valid_iff.2 ht, perform, enter, target,
    entry, followerEntry]

theorem onCapture_startLow_quit (h : e.state = .follower .startLow) (ht : StartPulse.ofLow t = .invalid) :
    (e.onCapture t).engine = e.quit := by
  simp only [onCapture, edgeMove?, h, Incoming.onEdge, ht, perform, enter_idle]
  rfl

theorem onCapture_startLow_invalid (h : e.state = .follower .startLow) (ht : ¬ Symbol.start.ValidLow t) :
    (e.onCapture t).engine = e.quit ∨ (e.onCapture t).engine =
      { e with state := .follower .debounce, rx := { e.rx with glitches := e.rx.glitches.note } } := by
  cases hp : StartPulse.ofLow t with
  | valid => exact absurd (StartPulse.ofLow_eq_valid_iff.1 hp) ht
  | glitch =>
    right
    simp [onCapture, edgeMove?, h, Incoming.onEdge, hp, perform, enter, target, entry, followerEntry]
  | invalid => exact .inl (onCapture_startLow_quit h hp)

theorem onCapture_startHigh (h : e.state = .follower .startHigh) : (e.onCapture t).engine =
    if Symbol.start.ValidTotal e.rx.lowTicks t then { e with state := .follower (.low .headerInit) }
    else e.quit := by
  by_cases ht : Symbol.start.ValidTotal e.rx.lowTicks t
  · simp [onCapture, edgeMove?, h, Incoming.onEdge, ht, perform, enter, target, entry, followerEntry]
  · simp only [onCapture, edgeMove?, h, Incoming.onEdge, ht, perform, enter_idle, if_false]
    rfl

theorem onCapture_low {f : BitKind} {b : Bool} (h : e.state = .follower (.low f)) (ht : bitOfLow? t = some b) :
    (e.onCapture t).engine = { e with state := .follower (.high f), rx := e.rx.noteLow f b t } := by
  simp [onCapture, edgeMove?, h, Incoming.onEdge, ht, perform, enter, target, entry, followerEntry]

theorem onCapture_low_invalid {f : BitKind} (h : e.state = .follower (.low f)) (ht : bitOfLow? t = none) :
    (e.onCapture t).engine = e.quit := by
  simp only [onCapture, edgeMove?, h, Incoming.onEdge, ht, perform, enter_idle]
  rfl

theorem onCapture_high_eom (h : e.state = .follower (.high .eom))
    (ht : (Symbol.ofBit e.rx.eom).ValidTotal e.rx.lowTicks t) :
    (e.onCapture t).engine = { e with state := .follower .ackLow } := by
  simp [onCapture, edgeMove?, h, Incoming.onEdge, Incoming.bit, ht, Incoming.endBit, perform, enter, target,
    entry, followerEntry]

theorem onCapture_high {f : BitKind} (h : e.state = .follower (.high f)) (hf : f ≠ .eom)
    (ht : (Symbol.ofBit e.rx.buffer.current).ValidTotal e.rx.lowTicks t) : (e.onCapture t).engine =
      { e with state := .follower (.low (f.next e.rx.buffer.advance)),
               rx := { e.rx with buffer := e.rx.buffer.advance } } := by
  simp [onCapture, edgeMove?, h, Incoming.onEdge, Incoming.bit, hf, ht, Incoming.endBit, perform, enter, target,
    entry, followerEntry]

theorem onCapture_high_invalid {f : BitKind} (h : e.state = .follower (.high f))
    (ht : ¬ (Symbol.ofBit (e.rx.bit f)).ValidTotal e.rx.lowTicks t) : (e.onCapture t).engine = e.quit := by
  simp only [onCapture, edgeMove?, h, Incoming.onEdge, ht, perform, enter_idle, if_false]
  rfl

theorem onCapture_ackLow (h : e.state = .follower .ackLow) :
    (e.onCapture t).engine = { e with state := .follower .ackFinish } := by
  simp [onCapture, edgeMove?, h, Incoming.onEdge, perform, enter, target, entry, engine_ackFinish]

theorem onCapture_ackFinish (h : e.state = .follower .ackFinish) :
    (e.onCapture t).engine = { e with state := .follower (.low .data) } := by
  simp [onCapture, edgeMove?, h, Incoming.onEdge, perform, enter, target, entry, followerEntry]

/-! All that an event can do. -/

theorem same_quit (e : Engine) : e.quit.tx.Same e.tx := ⟨rfl, rfl, rfl⟩

inductive Lapses (e : Engine) : Engine → Prop
  | same : e.state = .disabled ∨ e.state = .idle → Lapses e e
  | quit : Lapses e e.quit
  | ended : e.state = .initiator .ackVerify → Lapses e { e with tx := e.tx.finish }.quit
  | again : e.state = .initiator .ackVerify → Lapses e
      { e with state := .initiator .freeTime, tx := { e.tx with resends := e.tx.resends + 1 } }
  | goes {s u : Initiator} {x : Outgoing} : e.state = .initiator s → s.leads u = true → x.Same e.tx →
      Lapses e { e with state := .initiator u, tx := x }
  | answers {s u : Follower} {r : Incoming} : e.state = .follower s →
      s = .ackLow ∧ u = .ackVerify ∨ s = .ackVerify ∧ u = .ackFinish ∧ e.rx.refused = false →
      Lapses e { e with state := .follower u, rx := r }

theorem onTimeout_lapses (e : Engine) (line : Reading) : e.Lapses (e.onTimeout line).engine := by
  cases hs : e.state with
  | disabled => simpa only [onTimeout, deadlineMove?, hs] using .same (.inl hs)
  | idle => simpa only [onTimeout, deadlineMove?, hs] using .same (.inr hs)
  | initiator s =>
    cases s with
    | freeTime => rw [onTimeout_freeTime hs]; exact .goes hs rfl ⟨rfl, rfl, rfl⟩
    | startLow => rw [onTimeout_startLow hs]; exact .goes hs rfl .refl
    | startHigh => rw [onTimeout_startHigh hs]; exact .goes hs rfl .refl
    | low f => rw [onTimeout_low hs]; exact .goes hs (beq_self_eq_true f) .refl
    | high f =>
      by_cases hf : f = .eom
      · subst hf; rw [onTimeout_high_eom hs]; exact .goes hs rfl .refl
      · rw [onTimeout_high hs hf]; exact .goes hs (by cases f <;> rfl) ⟨rfl, rfl, rfl⟩
    | ackLow => rw [onTimeout_ackLow hs]; exact .goes hs rfl .refl
    | ackHigh => rw [onTimeout_ackHigh hs]; exact .goes hs rfl ⟨rfl, rfl, rfl⟩
    | ackVerify =>
      cases ha : e.tx.acked with
      | true =>
        cases hl : e.tx.isLast with
        | true => rw [onTimeout_sent hs ha hl]; exact .ended hs
        | false => rw [onTimeout_acked hs ha hl]; exact .goes hs rfl .refl
      | false =>
        by_cases hr : e.tx.resends < Outgoing.maxResends
        · rw [onTimeout_resend hs ha hr]; exact .again hs
        · rw [onTimeout_failed hs ha hr]; exact .ended hs
  | follower s =>
    by_cases h1 : s = .ackLow
    · subst h1; rw [onTimeout_follower_ackLow hs]; exact .answers hs (.inl ⟨rfl, rfl⟩)
    by_cases h2 : s = .ackVerify
    · subst h2
      cases hr : e.rx.refused with
      | true => rw [onTimeout_refused hs hr]; exact .quit
      | false => rw [onTimeout_follower_ackVerify hs hr]; exact .answers hs (.inr ⟨rfl, rfl, hr⟩)
    · rw [onTimeout_follower hs h1 h2]; exact .quit

inductive Hears (e : Engine) : Engine → Prop
  | same : Hears e e
  | quit : Hears e e.quit
  | opens {x : Outgoing} : e.state = .idle ∨ (∃ s, e.state = .initiator s) → x.Same e.tx →
      Hears e { e with state := .follower .startLow, tx := x }
  | goes {s u : Follower} {r : Incoming} : e.state = .follower s → s.leads u = true →
      Hears e { e with state := .follower u, rx := r }

theorem onCapture_hears (e : Engine) (t : Ticks) : e.Hears (e.onCapture t).engine := by
  cases hs : e.state with
  | disabled => simpa only [onCapture, edgeMove?, hs] using .same
  | idle => rw [onCapture_idle hs]; exact .opens (.inl hs) ⟨rfl, rfl, rfl⟩
  | initiator s =>
    by_cases hy : s = .freeTime ∨ s = .startHigh ∨ s = .high .headerInit
    · rw [onCapture_initiator hs hy]; exact .opens (.inr ⟨s, hs⟩) ⟨rfl, rfl, rfl⟩
    · rw [onCapture_deaf hs hy]; exact .same
  | follower s =>
    cases s with
    | startLow =>
      by_cases ht : Symbol.start.ValidLow t
      · rw [onCapture_startLow_valid hs ht]; exact .goes hs rfl
      · rcases onCapture_startLow_invalid hs ht with hq | hq
        · rw [hq]; exact .quit
        · rw [hq]; exact .goes hs rfl
    | startHigh =>
      rw [onCapture_startHigh hs]
      split
      · exact .goes hs rfl
      · exact .quit
    | low f =>
      cases ht : bitOfLow? t with
      | some b => rw [onCapture_low hs ht]; exact .goes hs (beq_self_eq_true f)
      | none => rw [onCapture_low_invalid hs ht]; exact .quit
    | high f =>
      by_cases ht : (Symbol.ofBit (e.rx.bit f)).ValidTotal e.rx.lowTicks t
      · by_cases hf : f = .eom
        · subst hf; rw [onCapture_high_eom hs ht]; exact .goes hs rfl
        · rw [Incoming.bit, if_neg hf] at ht
          rw [onCapture_high hs hf ht]
          exact .goes hs (by cases f <;> rfl)
      · rw [onCapture_high_invalid hs ht]; exact .quit
    | ackFinish => rw [onCapture_ackFinish hs]; exact .goes hs rfl
    | ackLow => rw [onCapture_ackLow hs]; exact .goes hs rfl
    | debounce => simpa only [onCapture, edgeMove?, hs, Incoming.onEdge] using .same
    | ackVerify => simpa only [onCapture, edgeMove?, hs, Incoming.onEdge] using .same

/-! What comes of frames. -/

/-- What comes of frames when the deadline passes. -/
def verdict (e : Engine) : Option Completion :=
  match e.state with
  | .initiator .ackVerify =>
    if e.tx.acked then if e.tx.isLast then some .sendOk else none
    else if e.tx.resends < Outgoing.maxResends then none
    else some .sendFailed
  | .follower .ackVerify =>
    if e.rx.refused = false ∧ e.rx.isLast ∧ e.hears e.rx.destination then some (.received e.rx.message) else none
  | _ => none

theorem outcome_enter (e : Engine) {s : State} (h : s ≠ .follower .ackFinish) (line : Reading) :
    (e.enter s line).outcome = none := by
  unfold enter
  have hn : e.target s ≠ .follower .ackFinish := by
    unfold target
    split
    · simp
    · exact h
  generalize (if s = .idle then e.rest else e) = e'
  cases hs : e.target s with
  | initiator u =>
    cases u with
    | low f => cases f <;> rfl
    | high f => cases f <;> rfl
    | _ => rfl
  | follower u => cases u <;> first | rfl | exact absurd hs hn
  | _ => rfl

/-- The end of an ACK hands over the message of a frame that is complete and meant for this device. -/
theorem outcome_enter_ackFinish (e : Engine) (line : Reading) :
    (e.enter (.follower .ackFinish) line).outcome =
      if e.rx.isLast ∧ e.hears e.rx.destination then some (.received e.rx.message) else none := by
  by_cases hl : e.rx.isLast <;> by_cases hh : e.hears e.rx.destination <;>
    simp_all [enter, target, entry, followerEntry, hears]

theorem outcome_onTimeout (e : Engine) (line : Reading) : (e.onTimeout line).outcome = e.verdict := by
  cases hs : e.state with
  | disabled => simp [onTimeout, deadlineMove?, hs, verdict]
  | idle => simp [onTimeout, deadlineMove?, hs, verdict]
  | initiator s =>
    by_cases hv : s = .ackVerify
    · subst hv
      simp only [onTimeout, deadlineMove?, hs, Outgoing.onDeadline, perform, verdict, judgeAck, Outgoing.refused?]
      split
      · split
        · rfl
        · simp [outcome_enter]
      · split <;> simp_all [outcome_enter]
    · have hd : e.tx.onDeadline s ≠ none := by cases s with
        | high f => cases f <;> simp [Outgoing.onDeadline]
        | _ => simp_all [Outgoing.onDeadline]
      obtain ⟨⟨x, u⟩, hx⟩ := Option.ne_none_iff_exists'.1 hd
      have : e.verdict = none := by cases s <;> simp_all [verdict]
      simp [onTimeout, deadlineMove?, hs, hx, perform, outcome_enter, this]
  | follower s =>
    cases s with
    | ackVerify =>
      cases hr : e.rx.refused with
      | true => simp [onTimeout, deadlineMove?, hs, hr, perform, outcome_enter, verdict]
      | false =>
        simp [onTimeout, deadlineMove?, hs, hr, perform, outcome_enter_ackFinish, verdict]
    | ackLow => simp [onTimeout, deadlineMove?, hs, perform, outcome_enter, verdict]
    | _ => simp [onTimeout, deadlineMove?, hs, perform, outcome_enter, verdict]

theorem received_of_verdict {m : Message} (h : e.verdict = some (.received m)) :
    e.state = .follower .ackVerify ∧ e.rx.isLast = true ∧ e.hears e.rx.destination = true ∧ m = e.rx.message := by
  unfold verdict at h
  split at h
  · split at h <;> split at h <;> simp at h
  · next hs =>
    split at h
    · next hc => exact ⟨hs, hc.2.1, hc.2.2, by simpa using h.symm⟩
    · cases h
  · cases h

/-- An edge that is waited for never ends anything. -/
theorem outcome_onCapture (h : e.state ≠ .follower .ackLow) : (e.onCapture t).outcome = none := by
  cases hs : e.state with
  | disabled => simp [onCapture, edgeMove?, hs]
  | idle => simp [onCapture, edgeMove?, hs, perform, outcome_enter]
  | initiator s =>
    cases s with
    | high f => cases f <;> simp [onCapture, edgeMove?, hs, perform, outcome_enter]
    | _ => simp [onCapture, edgeMove?, hs, perform, outcome_enter]
  | follower s =>
    cases s with
    | startLow =>
      cases hp : StartPulse.ofLow t <;>
        simp [onCapture, edgeMove?, hs, Incoming.onEdge, hp, perform, outcome_enter]
    | startHigh =>
      by_cases ht : Symbol.start.ValidTotal e.rx.lowTicks t <;>
        simp [onCapture, edgeMove?, hs, Incoming.onEdge, ht, perform, outcome_enter]
    | low f =>
      cases ht : bitOfLow? t <;>
        simp [onCapture, edgeMove?, hs, Incoming.onEdge, ht, perform, outcome_enter]
    | high f =>
      by_cases ht : (Symbol.ofBit (e.rx.bit f)).ValidTotal e.rx.lowTicks t
      · by_cases hf : f = .eom
        · subst hf
          simp [onCapture, edgeMove?, hs, Incoming.onEdge, ht, Incoming.endBit, perform, outcome_enter]
        · simp [onCapture, edgeMove?, hs, Incoming.onEdge, ht, Incoming.endBit, hf, perform, outcome_enter]
      · simp [onCapture, edgeMove?, hs, Incoming.onEdge, ht, perform, outcome_enter]
    | ackLow => exact absurd hs h
    | _ => simp [onCapture, edgeMove?, hs, Incoming.onEdge, perform, outcome_enter]

/-- An edge that comes while the line is held for an acknowledgement. -/
theorem outcome_onCapture_ackLow (h : e.state = .follower .ackLow) : (e.onCapture t).outcome =
    if e.rx.isLast ∧ e.hears e.rx.destination then some (.received e.rx.message) else none := by
  rw [← outcome_enter_ackFinish e none]
  simp only [onCapture, edgeMove?, h, Incoming.onEdge, perform]
  rfl

/-! No event changes the address. -/

theorem address_judgeAck (e : Engine) : e.judgeAck.engine.address = e.address := by
  unfold judgeAck
  split
  · split <;> rfl
  · split <;> rfl

theorem address_onTimeout (e : Engine) (line : Reading) : (e.onTimeout line).engine.address = e.address := by
  cases hs : e.state with
  | disabled => simp only [onTimeout, deadlineMove?, hs]
  | idle => simp only [onTimeout, deadlineMove?, hs]
  | initiator s =>
    cases hx : e.tx.onDeadline s with
    | none => simp only [onTimeout, deadlineMove?, hs, hx, perform, address_enter, address_judgeAck]
    | some p => simp only [onTimeout, deadlineMove?, hs, hx, perform, address_enter]
  | follower s =>
    cases s with
    | ackVerify =>
      cases hr : e.rx.refused <;>
        simp [onTimeout, deadlineMove?, hs, hr, perform, address_enter]
    | _ => simp only [onTimeout, deadlineMove?, hs, perform, address_enter]

theorem address_onCapture (e : Engine) (t : Ticks) : (e.onCapture t).engine.address = e.address := by
  cases hs : e.state with
  | disabled => simp only [onCapture, edgeMove?, hs]
  | idle => simp only [onCapture, edgeMove?, hs, perform, address_enter]
  | initiator s =>
    cases s with
    | high f => cases f <;> simp only [onCapture, edgeMove?, hs, perform, address_enter]
    | _ => simp only [onCapture, edgeMove?, hs, perform, address_enter]
  | follower s =>
    cases hr : e.rx.onEdge s t with
    | none => simp only [onCapture, edgeMove?, hs, hr]
    | some p => simp only [onCapture, edgeMove?, hs, hr, perform, address_enter]

/-! Calls from outside. -/

def load (e : Engine) (m : Message) : Engine :=
  { e with tx := { e.tx with buffer := e.tx.buffer.load m, length := m.length } }

@[simp] theorem load_state (e : Engine) (m : Message) : (e.load m).state = e.state := by simp only [load]

@[simp] theorem load_rx (e : Engine) (m : Message) : (e.load m).rx = e.rx := by simp only [load]

@[simp] theorem load_address (e : Engine) (m : Message) : (e.load m).address = e.address := by
  simp only [load]

theorem load_tx (e : Engine) (m : Message) : (e.load m).tx =
    { e.tx with buffer := e.tx.buffer.load m, length := m.length } := by simp only [load]

theorem isSending_load {m : Message} (h : m.Legal) : (e.load m).isSending = true := by
  have := h.length_pos
  simp only [isSending, load, Outgoing.isPending, bne_iff_ne]
  omega

theorem submit_eq_ok_iff {m : Message} {r : Reaction} :
    e.submit m = .ok r ↔ e.isEnabled = true ∧ m.Legal ∧ e.isSending = false ∧
      r = { engine := e.load m, notices := [.submitted m] } := by
  by_cases hd : e.isEnabled = true
  · by_cases hm : m.Legal
    · by_cases hp : e.tx.isPending = true
      · simp [submit, Outgoing.load, isSending, hd, hm, hp]
      · simp only [submit, Outgoing.load, isSending, hd, hm, not_true_eq_false, if_false, true_and]
        rw [if_neg hp]
        constructor
        · intro h; cases h; exact ⟨Bool.eq_false_iff.2 hp, rfl⟩
        · rintro ⟨-, h⟩; rw [h]; rfl
    · simp [submit, Outgoing.load, hd, hm]
  · simp [submit, hd]

/-- A frame is taken by an engine that is on and has no other. It goes out at once if the engine is
idle. -/
theorem send_eq_ok_iff {m : Message} {r : Reaction} :
    e.send m = .ok r ↔ e.isEnabled = true ∧ m.Legal ∧ e.isSending = false ∧
      r = { (e.load m).startSend with notices := .submitted m :: (e.load m).startSend.notices } := by
  unfold send
  cases hs : e.submit m with
  | ok q =>
    obtain ⟨hd, hm, hp, rfl⟩ := submit_eq_ok_iff.1 hs
    simp [hd, hm, hp, eq_comm]
  | error x =>
    simp only [reduceCtorEq, false_iff, not_and]
    intro hd hm hp _
    rw [submit_eq_ok_iff.2 ⟨hd, hm, hp, rfl⟩] at hs
    cases hs

theorem startSend_of_idle (h : e.state = .idle) (hp : e.isSending = true) :
    e.startSend = e.enter (.initiator .freeTime) none := by
  simp [startSend, h, hp]

theorem startSend_of_ne_idle (h : e.state ≠ .idle) : e.startSend = { engine := e } := by
  simp [startSend, h]

/-- Switching an engine on or off ends no frame and leaves its address. -/
theorem setEnabled_keeps (e : Engine) (on : Bool) :
    (e.setEnabled on).outcome = none ∧ (e.setEnabled on).engine.address = e.address := by
  unfold setEnabled
  split
  · exact ⟨rfl, rfl⟩
  · split
    · exact ⟨outcome_enter e (by simp) none, address_enter e .idle none⟩
    · exact ⟨outcome_enter e (by simp) none, address_enter e .disabled none⟩

theorem send_keeps {m : Message} {r : Reaction} (h : e.send m = .ok r) :
    r.outcome = none ∧ r.engine.address = e.address := by
  obtain ⟨-, hm, -, rfl⟩ := send_eq_ok_iff.1 h
  by_cases hs : e.state = .idle
  · rw [startSend_of_idle (by rw [load_state, hs]) (isSending_load hm)]
    exact ⟨outcome_enter _ (by simp) none, (address_enter _ _ none).trans (e.load_address m)⟩
  · rw [startSend_of_ne_idle (by rw [load_state]; exact hs)]
    exact ⟨rfl, e.load_address m⟩

end Engine
end HdmiCec
