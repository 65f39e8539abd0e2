import HdmiCec.Engine.Basic

/-! What can be asked of an engine, and the two events that drive it: the awaited edge came, or
the deadline passed. -/
namespace HdmiCec

structure Move where
  engine : Engine
  next : State
  notices : List Notice := []
  outcome : Option Completion := none
  deriving DecidableEq, Repr

namespace Engine

def perform (m : Move) (line : Reading) : Reaction :=
  let r := m.engine.enter m.next line
  { r with notices := m.notices ++ r.notices, outcome := m.outcome <|> r.outcome }

def judgeAck (e : Engine) : Move :=
  if e.tx.acked then
    if e.tx.isLast then
      { engine := { e with tx := e.tx.finish }, next := .idle, notices := [.sent], outcome := some .sendOk }
    else { engine := e, next := .initiator (.low .data) }
  else match e.tx.refused? with
    | some tx =>
      { engine := { e with tx := tx }, next := .initiator .freeTime, notices := [.resend tx.resends] }
    | none =>
      { engine := { e with tx := e.tx.finish }, next := .idle, notices := [.sendFailed],
        outcome := some .sendFailed }

/-- Where a deadline leads. A follower whose initiator falls silent within a bit gives up the frame. -/
def deadlineMove? (e : Engine) : Option Move :=
  match e.state with
  | .disabled | .idle => none
  | .initiator s => match e.tx.onDeadline s with
    | some (tx, next) => some { engine := { e with tx := tx }, next := .initiator next }
    | none => some e.judgeAck
  | .follower .ackLow => some { engine := e, next := .follower .ackVerify }
  | .follower .ackVerify =>
    if e.rx.refused then some { engine := e, next := .idle, notices := [.broadcastRefused] }
    else some { engine := e, next := .follower .ackFinish }
  | .follower _ => some { engine := e, next := .idle }

/-- Where an edge leads that comes `t` ticks after the last wait began. On the idle bus it opens
the frame of another. An initiator that sees it before its own address is out gives way; its frame
is kept for later. -/
def edgeMove? (e : Engine) (t : Ticks) : Option Move :=
  match e.state with
  | .idle => some { engine := e, next := .follower .startLow }
  | .initiator .freeTime | .initiator .startHigh | .initiator (.high .headerInit) =>
    some
      { engine := { e with tx := e.tx.rewind }, next := .follower .startLow,
        notices := [.lostArbitration] }
  | .follower s => match e.rx.onEdge s t with
    | some (rx, next) => some { engine := { e with rx := rx }, next := next }
    | none => none
  | _ => none

def onTimeout (e : Engine) (line : Reading) : Reaction :=
  match e.deadlineMove? with
  | some m => perform m line
  | none => { engine := e }

/-- The awaited edge came after `t` ticks. No state that an edge leads to reads the line. -/
def onCapture (e : Engine) (t : Ticks) : Reaction :=
  match e.edgeMove? t with
  | some m => perform m none
  | none => { engine := e }

def setAddress (e : Engine) (a : LogicalAddress) : Except AddressError Reaction :=
  if a.Assignable then .ok { engine := { e with address := a }, notices := [.addressSet a] }
  else .error (.invalid a)

def setEnabled (e : Engine) (on : Bool) : Reaction :=
  if on = e.isEnabled then { engine := e }
  else if on then
    let r := e.enter .idle none
    { r with notices := r.notices ++ [.enabled] }
  else
    let r := e.enter .disabled none
    { r with actions := .stop :: r.actions, notices := r.notices ++ [.disabled] }

def submit (e : Engine) (m : Message) : Except SendError Reaction :=
  if ¬ e.isEnabled then .error .disabled
  else match e.tx.load m with
    | .ok tx => .ok { engine := { e with tx := tx }, notices := [.submitted m] }
    | .error err => .error err

def startSend (e : Engine) : Reaction :=
  if e.state = .idle ∧ e.isSending then e.enter (.initiator .freeTime) none else { engine := e }

def send (e : Engine) (m : Message) : Except SendError Reaction :=
  match e.submit m with
  | .ok r =>
    let s := r.engine.startSend
    .ok { s with notices := r.notices ++ s.notices }
  | .error err => .error err

end Engine
end HdmiCec
