import HdmiCec.Proofs.Engine.Fit

/-! What an engine waits for in each state, which states hold the line, and where deadlines and edges
can lead. Whatever state is entered, the wait that goes with it is armed (`awaits_entry`). -/
namespace HdmiCec

def Initiator.isLow : Initiator → Bool
  | startLow | low _ | ackLow => true
  | _ => false

def Follower.answers : Follower → Bool
  | ackLow | ackVerify => true
  | _ => false

def Initiator.edge? : Initiator → Option Edge
  | freeTime | startHigh | high .headerInit => some .falling
  | _ => none

theorem Initiator.of_edge? {s : Initiator} (h : s.edge?.isSome = true) :
    s = .freeTime ∨ s = .startHigh ∨ s = .high .headerInit := by
  cases s with
  | freeTime => exact .inl rfl
  | startHigh => exact .inr (.inl rfl)
  | high f => cases f <;> first | exact .inr (.inr rfl) | cases h
  | _ => cases h

def Initiator.span (s : Initiator) (x : Outgoing) : Ticks :=
  match s with
  | freeTime => x.freeTime.ticks
  | startLow => Symbol.start.window.low
  | startHigh => Symbol.start.window.high
  | low f => lowDuration (x.bit f)
  | high f => highDuration (x.bit f)
  | ackLow => lowDuration true
  | ackHigh => ackHighBeforeSample
  | ackVerify => ackAfterSample

def Follower.edge? (s : Follower) (r : Incoming) : Option Edge :=
  match s with
  | startLow | low _ => some .rising
  | startHigh | high _ => some .falling
  | ackFinish => if r.isLast then none else some .falling
  | debounce | ackLow | ackVerify => none

def Follower.span (s : Follower) (r : Incoming) : Ticks :=
  match s with
  | startLow => startLowLimit
  | startHigh => startHighLimit
  | debounce => GlitchCount.quietLong
  | low _ => dataLowLimit
  | high _ => dataHighLimit
  | ackLow => sampleTime
  | ackVerify => ackHoldAfterSample
  | ackFinish => if r.isLast then ackFinishLast else dataHighLimit

/-- The wait that goes with the state of an engine. How long a follower leaves the line alone after
a glitch depends on the glitches before. -/
def Engine.Awaits (e : Engine) (w : Wait) : Prop :=
  match e.state with
  | .disabled => False
  | .idle => w = .onEdge .falling
  | .initiator s => w = ⟨s.edge?, some (s.span e.tx)⟩
  | .follower .debounce => w = .pause GlitchCount.quietShort ∨ w = .pause GlitchCount.quietLong
  | .follower s => w = ⟨s.edge? e.rx, some (s.span e.rx)⟩

def State.mayPull : State → Bool
  | .initiator s => s.isLow
  | .follower s => s.answers
  | _ => false

namespace Engine

theorem awaits_initiatorEntry (e : Engine) (s : Initiator) (line : Reading) (h : e.state = .initiator s) :
    ∃ w, (e.initiatorEntry s line).wait = some w ∧ (e.initiatorEntry s line).engine.Awaits w := by
  cases s with
  | low f => cases f <;> exact ⟨_, rfl, by simp [Awaits, initiatorEntry, h]; rfl⟩
  | high f => cases f <;> exact ⟨_, rfl, by simp [Awaits, initiatorEntry, h]; rfl⟩
  | _ => exact ⟨_, rfl, by simp [Awaits, initiatorEntry, h]; rfl⟩

theorem awaits_followerEntry (e : Engine) (s : Follower) (line : Reading) (h : e.state = .follower s) :
    ∃ w, (e.followerEntry s line).wait = some w ∧ (e.followerEntry s line).engine.Awaits w := by
  cases s with
  | ackFinish =>
    rw [engine_ackFinish]
    by_cases hl : e.rx.isLast
    · refine ⟨.pause ackFinishLast, ?_, ?_⟩
      · by_cases hh : e.hears e.rx.destination <;> simp [followerEntry, hl, hh]
      · simp [Awaits, h, Follower.edge?, Follower.span, hl, Wait.pause]
    · refine ⟨.within .falling dataHighLimit, ?_, ?_⟩
      · simp [followerEntry, hl]
      · simp [Awaits, h, Follower.edge?, Follower.span, hl, Wait.within]
  | debounce =>
    refine ⟨_, rfl, ?_⟩
    simp only [Awaits, followerEntry, h, GlitchCount.quietPeriod]
    split
    · exact .inl rfl
    · exact .inr rfl
  | _ => exact ⟨_, rfl, by simp [Awaits, followerEntry, h]; rfl⟩

/-- Whatever state is entered, the wait that goes with it is armed. -/
theorem awaits_entry (e : Engine) (line : Reading) (h : e.state ≠ .disabled) :
    ∃ w, (e.entry e.state line).wait = some w ∧ (e.entry e.state line).engine.Awaits w := by
  cases hs : e.state with
  | disabled => exact absurd hs h
  | idle => exact ⟨_, rfl, by simp [Awaits, entry, hs]⟩
  | initiator s => exact awaits_initiatorEntry e s line hs
  | follower s => exact awaits_followerEntry e s line hs

/-- Entering a state pulls the line, lets go of it or leaves it as it is. -/
theorem level_entry (e : Engine) (s : State) (line : Reading) :
    ((e.entry s line).level = some .low → s.mayPull = true) ∧
    (∀ u, s = .initiator u → u.isLow = true → (e.entry s line).level = some .low) ∧
    ((e.entry s line).level = none → s = .initiator .ackVerify ∨ ∃ u, s = .follower u ∧ u ≠ .ackFinish) := by
  cases s with
  | disabled => simp [entry]
  | idle => simp [entry]
  | initiator s =>
    cases s with
    | low f => cases f <;> simp [entry, initiatorEntry, State.mayPull, Initiator.isLow]
    | high f => cases f <;> simp [entry, initiatorEntry, Initiator.isLow]
    | _ => simp [entry, initiatorEntry, State.mayPull, Initiator.isLow]
  | follower s =>
    cases s with
    | ackFinish =>
      by_cases hl : e.rx.isLast <;> by_cases hh : e.hears e.rx.destination <;>
        simp [entry, followerEntry, hl, hh]
    | _ => simp [entry, followerEntry, State.mayPull, Follower.answers]

end Engine

/-- An initiator that has left its free time behind. -/
def State.speaks : State → Bool
  | .initiator .freeTime => false
  | .initiator _ => true
  | _ => false

def State.drives : State → Bool
  | .initiator s => s.isLow
  | _ => false

def State.answers : State → Bool
  | .follower s => s.answers
  | _ => false

theorem State.answers_cases {s : State} (h : s.answers = true) :
    s = .follower .ackLow ∨ s = .follower .ackVerify := by
  cases s with
  | follower u => cases u <;> simp_all [answers, Follower.answers]
  | _ => cases h

def State.Eases (s : State) : Prop :=
  s ≠ .initiator .ackVerify ∧ ∀ u, s = .follower u → u ≠ .ackFinish → u.answers = true

namespace Engine

theorem quit_state (e : Engine) :
    e.quit.state = .idle ∧ e.isSending = false ∨ e.quit.state = .initiator .freeTime ∧ e.isSending = true := by
  cases h : e.isSending <;> simp [quit, h]

/-- A deadline never switches an engine off, and a line that was held low is held on only as an
answer. -/
theorem onTimeout_state {e : Engine} (line : Reading) (h : e.state ≠ .disabled) :
    (e.onTimeout line).engine.state ≠ .disabled ∧
      (e.state.mayPull = true → (e.onTimeout line).engine.state.Eases) := by
  have idle : ∀ e' : Engine, e'.quit.state ≠ .disabled ∧ e'.quit.state.Eases := by
    intro e'
    rcases e'.quit_state with ⟨hq, -⟩ | ⟨hq, -⟩ <;> simp [hq, State.Eases]
  have hx := e.onTimeout_lapses line
  generalize (e.onTimeout line).engine = d at hx
  cases hx with
  | same hs =>
    refine ⟨h, fun hp => ?_⟩
    rcases hs with hs | hs <;> rw [hs] at hp <;> cases hp
  | quit => exact ⟨(idle e).1, fun _ => (idle e).2⟩
  | ended => exact ⟨(idle _).1, fun _ => (idle _).2⟩
  | again hs => exact ⟨by simp, fun _ => by simp [State.Eases]⟩
  | @goes s u x hs hl _ =>
    refine ⟨by simp, fun hp => ⟨fun hu => ?_, by simp⟩⟩
    cases hu
    rw [hs, Initiator.of_leads_ackVerify hl] at hp
    cases hp
  | answers hs hl =>
    refine ⟨by simp, fun _ => ?_⟩
    rcases hl with ⟨-, rfl⟩ | ⟨-, rfl, -⟩ <;> simp [State.Eases, Follower.answers]

theorem deadlineMove?_isSome {e : Engine} (h : (∃ s, e.state = .initiator s) ∨ ∃ s, e.state = .follower s) :
    e.deadlineMove?.isSome = true := by
  rcases h with ⟨s, hs⟩ | ⟨s, hs⟩
  · simp only [deadlineMove?, hs]
    cases e.tx.onDeadline s <;> rfl
  · cases s <;> simp only [deadlineMove?, hs, Option.isSome_some]
    split <;> rfl

/-- An edge brings an engine that waits for one and follows nobody to a start bit. -/
theorem startLow_of_edge {e : Engine} (t : Ticks) (h : e.state = .idle ∨ ∃ s, e.state = .initiator s ∧ s.edge?.isSome = true) :
    (e.onCapture t).engine.state = .follower .startLow := by
  rcases h with hs | ⟨s, hs, hedge⟩
  · rw [onCapture_idle hs]
  · rw [onCapture_initiator hs (Initiator.of_edge? hedge)]

/-- An edge that an initiator or a follower waits for always leads somewhere. -/
theorem edgeMove?_isSome {e : Engine} (t : Ticks) (h : e.state = .idle ∨
    (∃ s, e.state = .initiator s ∧ s.edge?.isSome = true) ∨
    ∃ s, e.state = .follower s ∧ (s.edge? e.rx).isSome = true) : (e.edgeMove? t).isSome = true := by
  rcases h with hs | ⟨s, hs, he⟩ | ⟨s, hs, he⟩
  · simp [edgeMove?, hs]
  · rcases Initiator.of_edge? he with rfl | rfl | rfl <;> simp [edgeMove?, hs]
  · have hr : (e.rx.onEdge s t).isSome = true := by
      cases s with
      | startLow => cases hp : StartPulse.ofLow t <;> simp [Incoming.onEdge, hp]
      | startHigh => simp only [Incoming.onEdge]; split <;> rfl
      | low f => cases hb : bitOfLow? t <;> simp [Incoming.onEdge, hb]
      | high f => simp only [Incoming.onEdge]; split <;> rfl
      | ackFinish => rfl
      | _ => simp [Follower.edge?] at he
    obtain ⟨⟨r, next⟩, hr⟩ := Option.isSome_iff_exists.1 hr
    simp [edgeMove?, hs, hr]

theorem onCapture_state {e : Engine} (t : Ticks) (h : e.state ≠ .disabled) :
    (e.onCapture t).engine.state ≠ .disabled := by
  have hx := e.onCapture_hears t
  generalize (e.onCapture t).engine = d at hx
  cases hx with
  | same => exact h
  | quit => rcases e.quit_state with ⟨hq, -⟩ | ⟨hq, -⟩ <;> simp [hq]
  | opens => simp
  | goes => simp

theorem not_speaks_quit (e : Engine) : e.quit.state.speaks = false := by
  rcases e.quit_state with ⟨hq, -⟩ | ⟨hq, -⟩ <;> rw [hq] <;> rfl

theorem not_framed_quit (e : Engine) : e.quit.state.framed = false := by
  rcases e.quit_state with ⟨hq, -⟩ | ⟨hq, -⟩ <;> rw [hq] <;> rfl

end Engine
end HdmiCec
