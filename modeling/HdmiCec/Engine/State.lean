import HdmiCec.Message.Basic

/-! Where a device stands on the bus: off, waiting, speaking as the initiator of a frame, or
following the frame of another. -/
namespace HdmiCec

/-- Which bit of a block is on the line. The header block has a part for each of its addresses. -/
inductive BitKind where
  | headerInit | headerDest | data | eom
  deriving DecidableEq, Repr

inductive Initiator where
  /-- Waits until the line has been free for long enough. -/
  | freeTime
  | startLow
  | startHigh
  | low (f : BitKind)
  | high (f : BitKind)
  | ackLow
  | ackHigh
  | ackVerify
  deriving DecidableEq, Repr

inductive Follower where
  | startLow
  | startHigh
  /-- Leaves the line alone after a glitch. -/
  | debounce
  | low (f : BitKind)
  | high (f : BitKind)
  | ackLow
  | ackVerify
  | ackFinish
  deriving DecidableEq, Repr

inductive State where
  | disabled
  | idle
  | initiator (s : Initiator)
  | follower (s : Follower)
  deriving DecidableEq, Repr

def BitKind.name : BitKind → String
  | headerInit => "HeaderInit"
  | headerDest => "HeaderDest"
  | data => "Data"
  | eom => "Eom"

def Initiator.name : Initiator → String
  | freeTime => "FreeTime"
  | startLow => "StartLow"
  | startHigh => "StartHigh"
  | low f => "Low(" ++ f.name ++ ")"
  | high f => "High(" ++ f.name ++ ")"
  | ackLow => "AckLow"
  | ackHigh => "AckHigh"
  | ackVerify => "AckVerify"

def Follower.name : Follower → String
  | startLow => "StartLow"
  | startHigh => "StartHigh"
  | debounce => "Debounce"
  | low f => "Low(" ++ f.name ++ ")"
  | high f => "High(" ++ f.name ++ ")"
  | ackLow => "AckLow"
  | ackVerify => "AckVerify"
  | ackFinish => "AckFinish"

def State.name : State → String
  | disabled => "Disabled"
  | idle => "Idle"
  | initiator s => "Initiator(" ++ s.name ++ ")"
  | follower s => "Follower(" ++ s.name ++ ")"

inductive Completion where
  /-- A frame for this device or for all of them arrived. -/
  | received (m : Message)
  | sendOk
  /-- No attempt was acknowledged. -/
  | sendFailed
  deriving DecidableEq, Repr

end HdmiCec
