import HdmiCec.Message.Address

/-! Why a call is turned down. Every cause has a name and a sentence. -/
namespace HdmiCec

inductive SendError where
  | disabled
  /-- No block at all, or more than sixteen. -/
  | invalidLength
  | busy
  deriving DecidableEq, Repr

namespace SendError

def name : SendError → String
  | disabled => "Disabled"
  | invalidLength => "InvalidLength"
  | busy => "Busy"

def message : SendError → String
  | disabled => "CEC disabled"
  | invalidLength => "invalid CEC frame length"
  | busy => "CEC transmission already pending"

end SendError

inductive AddressError where
  /-- Neither 0 to 14 nor 255. -/
  | invalid (a : LogicalAddress)
  deriving DecidableEq, Repr

namespace AddressError

def name : AddressError → String
  | invalid a => s!"InvalidAddress({a.value})"

def message : AddressError → String
  | invalid a => s!"invalid logical address {a.value}"

end AddressError

inductive QueueError where
  | invalidLength
  | overflow
  deriving DecidableEq, Repr

namespace QueueError

def name : QueueError → String
  | invalidLength => "InvalidLength"
  | overflow => "Overflow"

def message : QueueError → String
  | invalidLength => "invalid message length"
  | overflow => "receive queue full"

end QueueError

inductive StandbyError where
  /-- The system is on, its host sees to the message. -/
  | notHandled
  | invalidLength
  deriving DecidableEq, Repr

namespace StandbyError

def name : StandbyError → String
  | notHandled => "NotHandled"
  | invalidLength => "InvalidLength"

def message : StandbyError → String
  | notHandled => "not handled offline"
  | invalidLength => "invalid message length"

end StandbyError

inductive CodeError where
  | opcode (value : UInt8)
  | deviceType (value : UInt8)
  deriving DecidableEq, Repr

namespace CodeError

def name : CodeError → String
  | opcode _ => "UnknownOpcode"
  | deviceType _ => "UnknownDeviceType"

def message : CodeError → String
  | opcode v => s!"No discriminant in enum `CecOpCode` matches the value `{v}`"
  | deviceType v => s!"No discriminant in enum `CecDeviceType` matches the value `{v}`"

end CodeError

inductive Refusal where
  | send (e : SendError)
  | address (e : AddressError)
  | queue (e : QueueError)
  | standby (e : StandbyError)
  deriving DecidableEq, Repr

namespace Refusal

def name : Refusal → String
  | send e => e.name
  | address e => e.name
  | queue e => e.name
  | standby e => e.name

def message : Refusal → String
  | send e => e.message
  | address e => e.message
  | queue e => e.message
  | standby e => e.message

end Refusal
end HdmiCec
