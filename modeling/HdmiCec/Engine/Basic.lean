import HdmiCec.Engine.Outgoing
import HdmiCec.Notice
import HdmiCec.Wire.Line

/-! The engine of one device. Entering a state is the only place where it drives the line or sets
its timer: at most one level, then at most one wait. -/
namespace HdmiCec

structure Engine where
  state : State := .disabled
  rx : Incoming := {}
  tx : Outgoing := {}
  address : LogicalAddress := .unregistered
  deriving DecidableEq, Repr

structure Reaction where
  engine : Engine
  actions : List LineAction := []
  notices : List Notice := []
  outcome : Option Completion := none
  deriving DecidableEq, Repr

structure Entry where
  engine : Engine
  level : Option Level := none
  wait : Option Wait := none
  notices : List Notice := []
  outcome : Option Completion := none
  deriving DecidableEq, Repr

def Entry.actions (x : Entry) : List LineAction := (x.level.map .set).toList ++ (x.wait.map .arm).toList

namespace Engine

def isEnabled (e : Engine) : Bool := e.state != .disabled

def isSending (e : Engine) : Bool := e.tx.isPending

def hears (e : Engine) (dest : LogicalAddress) : Bool := dest == e.address || dest.isBroadcast

/-- The line is read once, where the ACK is judged. A broadcast is acknowledged by leaving it
alone, any other block by pulling it low. -/
def initiatorEntry (e : Engine) (s : Initiator) (line : Reading) : Entry :=
  match s with
  | .freeTime =>
    { engine := e, level := some .high, wait := some (.within .falling e.tx.freeTime.ticks) }
  | .startLow =>
    { engine := { e with tx := { e.tx.rewind with presentInitiator := true } },
      level := some .low, wait := some (.pause Symbol.start.window.low) }
  | .startHigh =>
    { engine := e, level := some .high, wait := some (.within .falling Symbol.start.window.high) }
  | .low .eom => { engine := e, level := some .low, wait := some (.pause (lowDuration e.tx.isLast)) }
  | .low _ =>
    { engine := e, level := some .low, wait := some (.pause (lowDuration e.tx.buffer.current)) }
  | .high .eom =>
    { engine := e, level := some .high, wait := some (.pause (highDuration e.tx.isLast)) }
  -- Others may still be speaking, a falling edge shows them.
  | .high .headerInit =>
    { engine := e, level := some .high,
      wait := some (.within .falling (highDuration e.tx.buffer.current)) }
  | .high _ =>
    { engine := e, level := some .high, wait := some (.pause (highDuration e.tx.buffer.current)) }
  | .ackLow => { engine := e, level := some .low, wait := some (.pause (lowDuration true)) }
  | .ackHigh => { engine := e, level := some .high, wait := some (.pause ackHighBeforeSample) }
  | .ackVerify =>
    { engine := { e with tx := { e.tx with acked := line.isLow != e.tx.isBroadcast } },
      wait := some (.pause ackAfterSample) }

/-- A follower pulls the ACK slot of frames to its own address only. The last ACK of a frame that
it hears hands the message over. -/
def followerEntry (e : Engine) (s : Follower) (line : Reading) : Entry :=
  match s with
  | .startLow =>
    { engine := { e with tx := { e.tx with presentInitiator := false } },
      wait := some (.within .rising startLowLimit) }
  | .startHigh =>
    { engine := { e with rx := { e.rx with glitches := {} } },
      wait := some (.within .falling startHighLimit) }
  | .debounce =>
    { engine := { e with rx := { e.rx with glitches := e.rx.glitches.note } },
      wait := some (.pause e.rx.glitches.quietPeriod) }
  | .low _ => { engine := e, wait := some (.within .rising dataLowLimit) }
  | .high _ => { engine := e, wait := some (.within .falling dataHighLimit) }
  | .ackLow =>
    { engine := e, level := if e.rx.destination = e.address then some .low else none,
      wait := some (.pause sampleTime) }
  | .ackVerify =>
    { engine := { e with rx := { e.rx with refused := e.rx.destination.isBroadcast && line.isLow } },
      wait := some (.pause ackHoldAfterSample) }
  | .ackFinish =>
    if ¬ e.rx.isLast then
      { engine := e, level := some .high, wait := some (.within .falling dataHighLimit) }
    else if e.hears e.rx.destination then
      { engine := e, level := some .high, wait := some (.pause ackFinishLast),
        notices := [.received e.rx.message], outcome := some (.received e.rx.message) }
    else { engine := e, level := some .high, wait := some (.pause ackFinishLast) }

def entry (e : Engine) (s : State) (line : Reading) : Entry :=
  match s with
  | .disabled => { engine := { e with rx := {}, tx := {} }, level := some .high }
  | .idle => { engine := e, level := some .high, wait := some (.onEdge .falling) }
  | .initiator s => e.initiatorEntry s line
  | .follower s => e.followerEntry s line

def rest (e : Engine) : Engine := { e with rx := e.rx.restart, tx := e.tx.rewind }

/-- A frame that had to wait for its turn is due as soon as the device would be idle. -/
def target (e : Engine) (s : State) : State :=
  if s = .idle ∧ e.isSending then .initiator .freeTime else s

def enter (e : Engine) (s : State) (line : Reading) : Reaction :=
  let next := e.target s
  let e := if s = .idle then e.rest else e
  let x := ({ e with state := next } : Engine).entry next line
  { engine := x.engine, actions := x.actions, notices := .state next :: x.notices, outcome := x.outcome }

theorem state_initiatorEntry (e : Engine) (s : Initiator) (line : Reading) :
    (e.initiatorEntry s line).engine.state = e.state := by
  cases s with
  | low f => cases f <;> rfl
  | high f => cases f <;> rfl
  | _ => rfl

theorem address_initiatorEntry (e : Engine) (s : Initiator) (line : Reading) :
    (e.initiatorEntry s line).engine.address = e.address := by
  cases s with
  | low f => cases f <;> rfl
  | high f => cases f <;> rfl
  | _ => rfl

/-- The end of an ACK only drives the line and hands messages over. -/
theorem engine_ackFinish (e : Engine) (line : Reading) :
    (e.followerEntry .ackFinish line).engine = e := by
  by_cases last : e.rx.isLast
  · by_cases heard : e.hears e.rx.destination <;> simp [followerEntry, last, heard]
  · simp [followerEntry, last]

theorem state_followerEntry (e : Engine) (s : Follower) (line : Reading) :
    (e.followerEntry s line).engine.state = e.state := by
  cases s with
  | ackFinish => rw [engine_ackFinish]
  | _ => rfl

theorem address_followerEntry (e : Engine) (s : Follower) (line : Reading) :
    (e.followerEntry s line).engine.address = e.address := by
  cases s with
  | ackFinish => rw [engine_ackFinish]
  | _ => rfl

theorem state_entry (e : Engine) (s : State) (line : Reading) :
    (e.entry s line).engine.state = e.state := by
  cases s with
  | initiator s => exact state_initiatorEntry e s line
  | follower s => exact state_followerEntry e s line
  | _ => rfl

theorem address_entry (e : Engine) (s : State) (line : Reading) :
    (e.entry s line).engine.address = e.address := by
  cases s with
  | initiator s => exact address_initiatorEntry e s line
  | follower s => exact address_followerEntry e s line
  | _ => rfl

theorem state_enter (e : Engine) (s : State) (line : Reading) :
    (e.enter s line).engine.state = e.target s := by simp only [enter, state_entry]

theorem address_enter (e : Engine) (s : State) (line : Reading) :
    (e.enter s line).engine.address = e.address := by
  unfold enter
  rw [address_entry]
  by_cases h : s = .idle <;> simp [h, rest]

theorem target_of_ne_idle (e : Engine) {s : State} (h : s ≠ .idle) : e.target s = s := by
  simp [target, h]

theorem target_idle (e : Engine) :
    e.target .idle = if e.isSending then .initiator .freeTime else .idle := by simp [target]

end Engine
end HdmiCec
