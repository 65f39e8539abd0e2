import HdmiCec.Inbox.Mailbox

/-! What a caller gets back. -/
namespace HdmiCec

inductive Reply where
  | nothing
  | ok
  | refused (r : Refusal)
  | completion (c : Option Completion)
  | message (m : Option Message)
  | events (bits : EventBits)
  | flag (b : Bool)
  /-- Whether an engine is on, its address, and whether it lets go of the line. -/
  | condition (enabled : Bool) (address : LogicalAddress) (released : Bool)
  /-- What was to be started runs already. -/
  | runsAlready
  deriving DecidableEq, Repr

end HdmiCec
