import HdmiCec.Bench.Reply
import HdmiCec.Engine.Call
import HdmiCec.Wire.EdgeTimer

/-! A device on a pin of its own. One task owns the pin and the timer; callers and the host reach
it through small channels. Everything between two waits of a task happens in one go. -/
namespace HdmiCec

inductive SendFailure where
  | rejected (e : SendError)
  | nack
  deriving DecidableEq, Repr

def SendFailure.name : SendFailure → String
  | rejected e => "Rejected(" ++ e.name ++ ")"
  | nack => "Nack"

inductive Control where
  | enable (on : Bool)
  | startSend
  deriving DecidableEq, Repr

/-- A call that takes time, and how far it has come. -/
inductive Call where
  /-- Has yet to hand over its request. -/
  | enabling (on : Bool)
  | submitting (m : Message)
  /-- Its frame is taken; has yet to ask for it to be sent. -/
  | starting
  /-- Wants the lock that lets one caller at a time wait for a result. -/
  | locking (m : Message)
  /-- As `starting`, with the lock. -/
  | startingLocked
  /-- Waits for the result, with the lock. -/
  | awaiting
  deriving DecidableEq, Repr

def Call.holdsLock : Call → Bool
  | startingLocked | awaiting => true
  | _ => false

inductive CallResult where
  | finished
  | sent (r : Except SendError Unit)
  | told (r : Except SendFailure Unit)

structure Trace where
  writes : Array (Nat × Level) := #[]
  results : Array (Nat × CallResult) := #[]
  calls : Array HostCall := #[]
  notices : Array Notice := #[]

structure Device where
  now : Nat := 0
  engine : Engine := {}
  timer : EdgeTimer := {}
  /-- The edge that the timer waits for has come. -/
  edgeSeen : Bool := false
  pulling : Bool := false
  /-- Someone else pulls the line low. -/
  heldLow : Bool := false
  controls : List Control := []
  /-- Messages that have not been put into the mailbox yet. -/
  received : List Message := []
  /-- The result of a send has not been announced yet. -/
  resultPending : Bool := false
  /-- The last result of a send, until a caller takes it. -/
  lastResult : Option (Except SendFailure Unit) := none
  locked : Bool := false
  mailbox : Mailbox ByteRing.defaultCapacity := .empty _ (by decide)
  /-- Calls under way, in the order they were made. -/
  calls : List (Nat × Call) := []
  nextId : Nat := 0
  config : Config := {}
  /-- Someone sees to the received messages. -/
  serving : Bool := false
  /-- The system is in standby. -/
  off : Bool := false
  trace : Trace := {}

namespace Device

def controlCapacity : Nat := 2

def receivedCapacity : Nat := 4

def level (d : Device) : Level := .ofPulls (d.pulling || d.heldLow)

def report (d : Device) (ns : List Notice) : Device :=
  { d with trace := { d.trace with notices := d.trace.notices ++ ns } }

def act (time : Nat) (d : Device) : LineAction → Device
  | .set level =>
    { d with
      pulling := level == .low,
      trace := { d.trace with writes := d.trace.writes.push (d.now, level) } }
  | .arm w => { d with timer := .arm w time }
  | .stop => { d with timer := d.timer.stop }

def absorb (d : Device) (r : Reaction) (time : Nat) : Device :=
  (r.actions.foldl (act time) { d with engine := r.engine }).report r.notices

end Device
end HdmiCec
