import HdmiCec.Proofs.Device.Timekeeping

/-! The line's task with the wait in its own hands. It takes the wait out of the timer before it sleeps, puts it back
when a request wakes it up, and writes down when an event happened for the time that the engine reacts to it. A timer
that is left armed and told where a wait begins does the same (`play_in_hand`). -/
namespace HdmiCec

/-- A timer with the time of the event in hand, if there is one. The next wait begins then, else now. -/
structure Capture where
  start : Nat := 0
  armed : Option Armed := none
  eventAt : Option Nat := none
  deriving DecidableEq, Repr

namespace Capture

def takeArmed (c : Capture) : Armed × Capture := (c.armed.getD ⟨none, none⟩, { c with armed := none })

def arm (c : Capture) (w : Wait) (now : Nat) : Capture :=
  let start := c.eventAt.getD now
  { c with start := start, armed := some { edge := w.edge, deadline := w.timeout.map (start + ·) } }

def elapsed (c : Capture) (now : Nat) : Ticks := (c.eventAt.getD now - c.start) % 0x100000000

def stop (c : Capture) : Capture := { c with armed := none }

end Capture

/-- The line's task while it sleeps, with the rest of the device. The timer of `device` is not looked at. -/
structure LineLoop where
  device : Device := {}
  capture : Capture := {}
  hand : Armed := ⟨none, none⟩

namespace LineLoop

def next (l : LineLoop) : LineLoop where
  device := l.device
  capture := { l.capture.takeArmed.2 with eventAt := none }
  hand := l.capture.takeArmed.1

def act (l : LineLoop) : LineAction → LineLoop
  | .set level => { l with device := l.device.act l.device.now (.set level) }
  | .arm w => { l with capture := l.capture.arm w l.device.now }
  | .stop => { l with capture := l.capture.stop }

def absorb (l : LineLoop) (r : Reaction) : LineLoop :=
  let l := r.actions.foldl act { l with device := { l.device with engine := r.engine } }
  { l with device := l.device.report r.notices }

def react (l : LineLoop) (r : Reaction) : LineLoop :=
  let l := l.absorb r
  match r.outcome with
  | some c => { l with device := l.device.settleOutcome c }.next
  | none => l.next

def onEdge (l : LineLoop) : LineLoop :=
  let capture := { l.capture with eventAt := some l.device.now }
  { l with device := { l.device with edgeSeen := false }, capture := capture }.react
    (l.device.engine.onCapture (capture.elapsed l.device.now))

def onDeadline (l : LineLoop) : LineLoop :=
  { l with capture := { l.capture with eventAt := l.hand.deadline } }.react
    (l.device.engine.onTimeout (some l.device.level))

def takeEvent (l : LineLoop) : LineLoop :=
  if l.device.edgeSeen then l.onEdge
  else if l.hand.deadline.any (· ≤ l.device.now) then l.onDeadline
  else l

def onControl (l : LineLoop) (c : Control) : LineLoop :=
  let dropped := c = .enable false ∧ l.device.engine.isSending = true
  let l := { l with capture := { l.capture with armed := some l.hand } }.absorb (l.device.engine.answer c.call).2
  if dropped then { l with device := { l.device with lastResult := some (.error (.rejected .disabled)) } }.next
  else l.next

def takeControl (l : LineLoop) : LineLoop :=
  match l.device.request? with
  | some c => { l with device := { l.device with controls := l.device.controls.tail } }.onControl c
  | none => l

def hold (l : LineLoop) (low : Bool) : LineLoop :=
  let level := Level.ofPulls (l.device.pulling || low)
  { l with
    device :=
      { l.device with
        heldLow := low,
        edgeSeen := l.device.edgeSeen || (l.device.level.edge? level).any fun e => l.hand.edge == some e } }

def happen (l : LineLoop) : Device.Happening → LineLoop
  | .event => l.takeEvent
  | .control => l.takeControl
  | .hold low => l.hold low
  | x => { l with device := l.device.happen x }

def through (l : LineLoop) (hs : List Device.Happening) : LineLoop := hs.foldl happen l

end LineLoop

namespace Device

theorem happen_timed (d : Device) (x : EdgeTimer) {h : Happening} (hh : h.untimed = true) :
    (d.timed x).happen h = (d.happen h).timed x := by
  cases h with
  | event | control | hold => cases hh
  | turn id => exact d.pollCall_timed x id
  | ask c => rfl
  | _ => exact (happen_blind rfl hh).timed d x

theorem now_settleOutcome (d : Device) (c : Completion) : (d.settleOutcome c).now = d.now := by
  cases c with
  | received m =>
    rw [settleOutcome]
    split <;> rfl
  | _ => rfl

theorem timer_happen (d : Device) {h : Happening} (hh : h.untimed = true) : (d.happen h).timer = d.timer := by
  have hsame : d.happen h = (d.happen h).timed d.timer := d.happen_timed d.timer hh
  rw [hsame]
  rfl

end Device

namespace LineLoop

variable {l : LineLoop} {d : Device} {time : Nat}

/-- The task sleeps, with the wait in its hand that the timer is armed for. -/
structure Holds (l : LineLoop) (d : Device) : Prop where
  device : l.device = d.timed {}
  start : l.capture.start = d.timer.start
  armed : l.capture.armed = none
  eventAt : l.capture.eventAt = none
  hand : l.hand = d.timer.armed.getD ⟨none, none⟩

/-- The task is at work, and a wait begins at `time`. A timer that is armed for nothing is as good as one that is not
armed. -/
structure Works (time : Nat) (l : LineLoop) (d : Device) : Prop where
  device : l.device = d.timed {}
  start : l.capture.start = d.timer.start
  armed : l.capture.armed.getD ⟨none, none⟩ = d.timer.armed.getD ⟨none, none⟩
  origin : l.capture.eventAt.getD d.now = time

theorem Holds.deadline (h : l.Holds d) : l.hand.deadline = d.timer.deadline? := by
  rw [h.hand, EdgeTimer.deadline?]
  cases d.timer.armed <;> rfl

theorem Holds.waitsFor (h : l.Holds d) (e : Edge) : (l.hand.edge == some e) = d.timer.waitsFor e := by
  rw [h.hand, EdgeTimer.waitsFor]
  cases d.timer.armed <;> rfl

theorem Works.act (h : l.Works time d) (a : LineAction) : (l.act a).Works time (d.act time a) := by
  have hnow : l.device.now = d.now := by
    rw [h.device]
    rfl
  cases a with
  | set level =>
    refine ⟨?_, h.start, h.armed, h.origin⟩
    show l.device.act l.device.now (.set level) = (d.act time (.set level)).timed {}
    rw [h.device]
    rfl
  | arm w =>
    have hstart : l.capture.eventAt.getD l.device.now = time := by rw [hnow, h.origin]
    refine ⟨h.device, hstart, ?_, h.origin⟩
    show Option.getD (some (Armed.mk w.edge (w.timeout.map (l.capture.eventAt.getD l.device.now + ·)))) _ = _
    rw [hstart]
    rfl
  | stop => exact ⟨h.device, h.start, rfl, h.origin⟩

theorem Works.absorb (h : l.Works time d) (r : Reaction) : (l.absorb r).Works time (d.absorb r time) := by
  have hall : ∀ (as : List LineAction) {l : LineLoop} {d : Device}, l.Works time d →
      (as.foldl LineLoop.act l).Works time (as.foldl (Device.act time) d) := by
    intro as
    induction as with
    | nil => exact fun h => h
    | cons a as ih => exact fun h => ih (h.act a)
  have hfirst : Works time { l with device := { l.device with engine := r.engine } } { d with engine := r.engine } :=
    ⟨by rw [h.device]; rfl, h.start, h.armed, h.origin⟩
  have hlast := hall r.actions hfirst
  refine ⟨?_, hlast.start, hlast.armed, hlast.origin⟩
  show Device.report _ r.notices = _
  rw [hlast.device]
  rfl

theorem Works.next (h : l.Works time d) : l.next.Holds d := ⟨h.device, h.start, rfl, rfl, h.armed⟩

theorem Works.settle (h : l.Works time d) (c : Completion) :
    Works time { l with device := l.device.settleOutcome c } (d.settleOutcome c) := by
  have hblind := Device.settleOutcome_blind c
  obtain ⟨htimer, -⟩ := hblind.keeps d
  have hnow : (d.settleOutcome c).now = d.now := d.now_settleOutcome c
  refine ⟨?_, ?_, ?_, ?_⟩
  · rw [h.device]
    exact hblind.timed d {}
  · rw [htimer]
    exact h.start
  · rw [htimer]
    exact h.armed
  · rw [hnow]
    exact h.origin

/-- An event ends the wait in hand. -/
theorem Works.react (h : l.Works time { d with timer := d.timer.stop, edgeSeen := false }) (r : Reaction) :
    (l.react r).Holds (d.onEvent time r) := by
  have habsorbed := h.absorb r
  cases ho : r.outcome with
  | none =>
    simp only [LineLoop.react, Device.onEvent, ho]
    exact habsorbed.next
  | some c =>
    simp only [LineLoop.react, Device.onEvent, ho]
    exact (habsorbed.settle c).next

theorem Holds.onEdge (h : l.Holds d) : l.onEdge.Holds (d.onEvent d.now (d.engine.onCapture (d.timer.elapsed d.now))) := by
  have hworks : Works d.now
      { l with
        device := { l.device with edgeSeen := false },
        capture := { l.capture with eventAt := some l.device.now } }
      { d with timer := d.timer.stop, edgeSeen := false } :=
    ⟨by rw [h.device]; rfl, h.start, by rw [h.armed]; rfl, by rw [h.device]; rfl⟩
  have hreaction : l.device.engine.onCapture (Capture.elapsed { l.capture with eventAt := some l.device.now } l.device.now) =
      d.engine.onCapture (d.timer.elapsed d.now) := by
    rw [h.device, EdgeTimer.elapsed, ← h.start]
    rfl
  rw [← hreaction]
  exact hworks.react _

theorem Holds.onDeadline (h : l.Holds d) {t : Nat} (ht : d.timer.deadline? = some t) (hseen : d.edgeSeen = false) :
    l.onDeadline.Holds (d.onEvent t (d.engine.onTimeout (some d.level))) := by
  have hdue : l.hand.deadline = some t := by rw [h.deadline, ht]
  have hworks : Works t { l with capture := { l.capture with eventAt := l.hand.deadline } }
      { d with timer := d.timer.stop, edgeSeen := false } :=
    ⟨by rw [h.device, ← hseen]; rfl, h.start, by rw [h.armed]; rfl, by rw [hdue]; rfl⟩
  have hreaction : l.device.engine.onTimeout (some l.device.level) = d.engine.onTimeout (some d.level) := by
    rw [h.device]
    rfl
  rw [← hreaction]
  exact hworks.react _

theorem Holds.takeEvent (h : l.Holds d) : l.takeEvent.Holds d.takeEvent := by
  have hnow : l.device.now = d.now := by rw [h.device]; rfl
  have hsame : l.device.edgeSeen = d.edgeSeen := by rw [h.device]; rfl
  cases hseen : d.edgeSeen with
  | true =>
    rw [LineLoop.takeEvent, Device.takeEvent, if_pos (hsame.trans hseen), if_pos hseen]
    exact h.onEdge
  | false =>
    rw [LineLoop.takeEvent, Device.takeEvent, hsame, hseen, h.deadline, hnow]
    cases ht : d.timer.deadline? with
    | none => exact h
    | some t =>
      by_cases hle : t ≤ d.now
      · simp only [Bool.false_eq_true, if_false, Option.any_some, hle, decide_true, if_true]
        exact h.onDeadline ht hseen
      · simp only [Bool.false_eq_true, if_false, Option.any_some, hle, decide_false]
        exact h

/-- A request leaves the wait in hand as it was, unless the engine acts on it. -/
theorem Holds.onControl (h : l.Holds d) (c : Control) : (l.onControl c).Holds (d.control c) := by
  have hengine : l.device.engine = d.engine := by rw [h.device]; rfl
  have hworks : Works d.now { l with capture := { l.capture with armed := some l.hand } } d :=
    ⟨h.device, h.start, h.hand, by rw [h.eventAt]; rfl⟩
  have habsorbed := hworks.absorb (d.engine.answer c.call).2
  rw [LineLoop.onControl, hengine]
  cases c with
  | startSend => exact habsorbed.next
  | enable on =>
    cases on with
    | true => exact habsorbed.next
    | false =>
      by_cases hsending : d.engine.isSending = true
      · rw [Device.control, if_pos hsending, if_pos ⟨rfl, hsending⟩]
        refine Works.next ⟨?_, habsorbed.start, habsorbed.armed, habsorbed.origin⟩
        rw [habsorbed.device]
        rfl
      · rw [Device.control, if_neg hsending, if_neg fun hd => hsending hd.2]
        exact habsorbed.next

theorem Holds.takeControl (h : l.Holds d) : l.takeControl.Holds d.takeControl := by
  have hrequest : l.device.request? = d.request? := by rw [h.device]; rfl
  cases hr : d.request? with
  | none =>
    rw [LineLoop.takeControl, Device.takeControl_of_none hr, hrequest, hr]
    exact h
  | some c =>
    rw [LineLoop.takeControl, Device.takeControl, hrequest, hr]
    have hnext : Holds { l with device := { l.device with controls := l.device.controls.tail } }
        { d with controls := d.controls.tail } := ⟨by rw [h.device]; rfl, h.start, h.armed, h.eventAt, h.hand⟩
    exact hnext.onControl c

theorem Holds.hold (h : l.Holds d) (low : Bool) : (l.hold low).Holds (d.hold low) := by
  rw [Device.hold_eq]
  refine ⟨?_, h.start, h.armed, h.eventAt, h.hand⟩
  simp only [LineLoop.hold, h.waitsFor]
  rw [h.device]
  rfl

theorem happen_of_untimed {x : Device.Happening} (hx : x.untimed = true) :
    l.happen x = { l with device := l.device.happen x } := by
  cases x with
  | event | control | hold => cases hx
  | _ => rfl

theorem Holds.untimed (h : l.Holds d) {x : Device.Happening} (hx : x.untimed = true) :
    (l.happen x).Holds (d.happen x) := by
  rw [happen_of_untimed hx]
  refine ⟨?_, ?_, h.armed, h.eventAt, ?_⟩
  · rw [h.device]
    exact d.happen_timed {} hx
  · rw [d.timer_happen hx]
    exact h.start
  · rw [d.timer_happen hx]
    exact h.hand

theorem Holds.happen (h : l.Holds d) (x : Device.Happening) : (l.happen x).Holds (d.happen x) := by
  cases x with
  | event => exact h.takeEvent
  | control => exact h.takeControl
  | hold low => exact h.hold low
  | _ => exact h.untimed rfl

theorem Holds.through (h : l.Holds d) (hs : List Device.Happening) : (l.through hs).Holds (d.through hs) := by
  induction hs generalizing l d with
  | nil => exact h
  | cons x hs ih => exact ih (h.happen x)

end LineLoop

namespace Device

theorem play_through (d : Device) (steps : List Step) : ∃ hs, d.play steps = d.through hs := by
  induction steps generalizing d with
  | nil => exact ⟨[], rfl⟩
  | cons s steps ih =>
    obtain ⟨u, hu⟩ := d.perform_through s
    obtain ⟨v, hv⟩ := ih (d.perform s).1
    exact ⟨u ++ v, by rw [through_append, ← hu]; exact hv⟩

/-- Whatever is done to a device, its tasks take their turns in some order, and in the same order a task that holds
its wait in its own hands brings about the same. -/
theorem play_in_hand (c : Config) (off : Bool) (steps : List Step) :
    ∃ hs, (opened c off).play steps = (opened c off).through hs ∧
      (LineLoop.through { device := opened c off } hs).Holds ((opened c off).play steps) := by
  obtain ⟨hs, heq⟩ := (opened c off).play_through steps
  have hfirst : LineLoop.Holds { device := opened c off } (opened c off) := ⟨rfl, rfl, rfl, rfl, rfl⟩
  exact ⟨hs, heq, heq ▸ hfirst.through hs⟩

end Device
end HdmiCec
