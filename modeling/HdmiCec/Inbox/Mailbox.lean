import HdmiCec.Inbox.ByteRing
import HdmiCec.Inbox.Standby

/-! What a host finds when it looks: queued messages, and one bit for each kind of send result
since it looked last. -/
namespace HdmiCec

abbrev EventBits := UInt32

namespace EventBits

def sendOk : EventBits := 1

def sendFailed : EventBits := 2

def ofCompletion? : Completion → Option EventBits
  | .sendOk => some sendOk
  | .sendFailed => some sendFailed
  | .received _ => none

end EventBits

structure Mailbox (n : Nat) where
  queue : ByteRing n
  events : EventBits := 0
  deriving DecidableEq, Repr

structure Delivery (n : Nat) where
  mailbox : Mailbox n
  told : List (HostCall × Mailbox n) := []
  notices : List Notice := []
  deriving DecidableEq, Repr

def Delivery.calls {n : Nat} (x : Delivery n) : List HostCall := x.told.map (·.1)

namespace Mailbox

variable {n : Nat}

def empty (n : Nat) (h : ByteRing.minCapacity ≤ n) : Mailbox n := { queue := .empty n h }

def raiseEvents (b : Mailbox n) (bits : EventBits) : Mailbox n := { b with events := b.events ||| bits }

def takeEvents (b : Mailbox n) : Mailbox n × EventBits := ({ b with events := 0 }, b.events)

def record? (b : Mailbox n) (c : Completion) : Option (Mailbox n) :=
  (EventBits.ofCompletion? c).map b.raiseEvents

def pop (b : Mailbox n) : Mailbox n × Option Message × List Notice :=
  let (queue, m, notices) := b.queue.pop
  ({ b with queue := queue }, m, notices)

def reset (b : Mailbox n) : Mailbox n := { queue := b.queue.flush, events := 0 }

def deliverMessage (b : Mailbox n) (c : Config) (off : Bool) (m : Message) : Delivery n :=
  let (handled, calls, notices) := c.inStandby off m
  let notices := match handled with
    | .ok _ => notices ++ [.consumedInStandby]
    | .error _ => notices
  let told := calls.map fun call => (call, b)
  let (queue, pushed, dropped) := b.queue.pushNewest m
  let b := { b with queue := queue }
  match pushed with
  | .ok _ =>
    { mailbox := b, told := told ++ [(.messageAvailable, b)], notices := notices ++ dropped }
  | .error e => { mailbox := b, told := told, notices := notices ++ dropped ++ [.messageDropped e] }

def deliver (b : Mailbox n) (c : Config) (off : Bool) : Completion → Delivery n
  | .received m => b.deliverMessage c off m
  | .sendOk =>
    let b := b.raiseEvents .sendOk
    { mailbox := b, told := [(.eventsPending, b)] }
  | .sendFailed =>
    let b := b.raiseEvents .sendFailed
    { mailbox := b, told := [(.eventsPending, b)] }

end Mailbox
end HdmiCec
