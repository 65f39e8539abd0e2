import HdmiCec.Bench.Reply

/-! A mailbox and its host, who may switch the system off and on. -/
namespace HdmiCec

structure Desk (n : Nat) where
  mailbox : Mailbox n
  config : Config := {}
  /-- The system is in standby. -/
  off : Bool := false
  deriving DecidableEq, Repr

namespace Desk

variable {n : Nat}

inductive Step where
  | handle (c : Completion)
  | pop
  | takeEvents
  | reset
  | setOff (off : Bool)
  | raiseEvents (bits : EventBits)
  | record (c : Completion)
  | push (m : Message)
  deriving DecidableEq, Repr

structure Report where
  reply : Reply
  calls : List HostCall := []
  notices : List Notice := []
  deriving DecidableEq, Repr

def handle (d : Desk n) (c : Completion) : Desk n × Report :=
  let x := d.mailbox.deliver d.config d.off c
  ({ d with mailbox := x.mailbox }, { reply := .nothing, calls := x.calls, notices := x.notices })

def perform (d : Desk n) : Step → Desk n × Report
  | .handle c => d.handle c
  | .pop =>
    let (mailbox, m, notices) := d.mailbox.pop
    ({ d with mailbox := mailbox }, { reply := .message m, notices := notices })
  | .takeEvents =>
    let (mailbox, bits) := d.mailbox.takeEvents
    ({ d with mailbox := mailbox }, { reply := .events bits })
  | .reset => ({ d with mailbox := d.mailbox.reset }, { reply := .nothing })
  | .setOff off => ({ d with off := off }, { reply := .nothing })
  | .raiseEvents bits => ({ d with mailbox := d.mailbox.raiseEvents bits }, { reply := .nothing })
  | .record c => match d.mailbox.record? c with
    | some mailbox => ({ d with mailbox := mailbox }, { reply := .flag true })
    | none => (d, { reply := .flag false })
  | .push m =>
    let (queue, r) := d.mailbox.queue.push m
    let d := { d with mailbox := { d.mailbox with queue := queue } }
    match r with
    | .ok _ => (d, { reply := .ok })
    | .error e => (d, { reply := .refused (.queue e) })

end Desk
end HdmiCec
