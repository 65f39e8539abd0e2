import HdmiCec.Device.Basic

/-! The task that owns the line. Each time it runs it takes the edge or the deadline it waited for,
an edge before a deadline, and then the requests that callers have left. -/
namespace HdmiCec.Device

def settleOutcome (d : Device) : Completion → Device
  | .received m =>
    if d.received.length < receivedCapacity then { d with received := d.received ++ [m] }
    else d.report [.receiveChannelFull]
  | .sendOk =>
    { d with
      lastResult := some (.ok ()), resultPending := true,
      mailbox := d.mailbox.raiseEvents .sendOk }
  | .sendFailed =>
    { d with
      lastResult := some (.error .nack), resultPending := true,
      mailbox := d.mailbox.raiseEvents .sendFailed }

def onEvent (d : Device) (time : Nat) (r : Reaction) : Device :=
  let d := ({ d with timer := d.timer.stop, edgeSeen := false } : Device).absorb r time
  match r.outcome with
  | some c => d.settleOutcome c
  | none => d

/-- Takes the event that the timer waited for, if it has come. An edge happens now, a deadline at
its own time, however late it is noticed. -/
def takeEvent (d : Device) : Device :=
  if d.edgeSeen then d.onEvent d.now (d.engine.onCapture (d.timer.elapsed d.now))
  else match d.timer.deadline? with
    | some t => if t ≤ d.now then d.onEvent t (d.engine.onTimeout (some d.level)) else d
    | none => d

/-- Requests leave the wait under way alone unless the engine acts on them. Whoever waits for a
frame is told if it is dropped. -/
def control (d : Device) : Control → Device
  | .enable false =>
    if d.engine.isSending then
      { d.absorb (d.engine.setEnabled false) d.now with
        lastResult := some (.error (.rejected .disabled)) }
    else d.absorb (d.engine.setEnabled false) d.now
  | .enable true => d.absorb (d.engine.setEnabled true) d.now
  | .startSend => d.absorb d.engine.startSend d.now

def takeControls (d : Device) : Device := d.controls.foldl control { d with controls := [] }

def pollLine (d : Device) : Device := d.takeEvent.takeControls

def lineReady (d : Device) : Bool := d.edgeSeen || d.timer.due d.now || !d.controls.isEmpty

end HdmiCec.Device
