import HdmiCec.Engine.State
import HdmiCec.Fault

/-! What the parts of the library report about their doings, and how grave it is. -/
namespace HdmiCec

inductive Severity where
  | trace | debug | info | warn | error
  deriving DecidableEq, Repr

namespace Severity

def name : Severity → String
  | trace => "TRACE"
  | debug => "DEBUG"
  | info => "INFO"
  | warn => "WARN"
  | error => "ERROR"

def rank : Severity → Nat
  | trace => 0
  | debug => 1
  | info => 2
  | warn => 3
  | error => 4

end Severity

inductive Notice where
  | state (s : State)
  | addressSet (a : LogicalAddress)
  | enabled
  | disabled
  | submitted (m : Message)
  | lostArbitration
  | broadcastRefused
  | sent
  | resend (n : Nat)
  | sendFailed
  | received (m : Message)
  | inStandby (m : Message)
  | consumedInStandby
  | backlogDropped
  | badEntrySize (n : Nat)
  | messageDropped (e : QueueError)
  | receiveChannelFull
  deriving DecidableEq, Repr

namespace Notice

def severity : Notice → Severity
  | state _ => .trace
  | submitted _ | lostArbitration | broadcastRefused | resend _ | received _ | inStandby _ => .debug
  | addressSet _ | enabled | disabled | sent | consumedInStandby => .info
  | sendFailed | backlogDropped | messageDropped _ | receiveChannelFull => .warn
  | badEntrySize _ => .error

def text : Notice → String
  | state s => "CEC state " ++ s.name
  | addressSet a => s!"CEC address set to: {a.value}"
  | enabled => "CEC enabled"
  | disabled => "CEC disabled"
  | submitted m => "Send CEC: " ++ m.text
  | lostArbitration => "Lost arbitration, postponing send"
  | broadcastRefused => "Broadcast NAKed by a follower"
  | sent => "SEND OKAY"
  | resend n => s!"NAK, resend {n}"
  | sendFailed => "SEND FAILED"
  | received m => "Received CEC: " ++ m.text
  | inStandby m => "Offline MSG: " ++ m.text
  | consumedInStandby => "Message consumed offline"
  | backlogDropped => "CEC rx queue full, dropping backlog"
  | badEntrySize n => s!"Invalid CEC msg size: {n}"
  | messageDropped e => "Dropping CEC message: " ++ e.name
  | receiveChannelFull => "CEC receive channel full, dropping"

def atLeast (s : Severity) (n : Notice) : Bool := s.rank ≤ n.severity.rank

end Notice
end HdmiCec
