import HdmiCec.Engine.Incoming
import HdmiCec.Fault

/-! The frame that an initiator sends: one at a time, tried again up to five times. -/
namespace HdmiCec

structure Outgoing where
  buffer : BitBuffer := {}
  /-- Blocks of the frame; none if there is no frame. -/
  length : Nat := 0
  resends : Nat := 0
  /-- The last block was acknowledged. -/
  acked : Bool := false
  /-- This device drove the last start bit on the bus. -/
  presentInitiator : Bool := false
  deriving DecidableEq, Repr

namespace Outgoing

def maxResends : Nat := 5

def isPending (x : Outgoing) : Bool := x.length != 0

def load (x : Outgoing) (m : Message) : Except SendError Outgoing :=
  if ¬ m.Legal then .error .invalidLength
  else if x.isPending then .error .busy
  else .ok { x with buffer := x.buffer.load m, length := m.length }

def isBroadcast (x : Outgoing) : Bool := (LogicalAddress.destination x.buffer.header).isBroadcast

def isLast (x : Outgoing) : Bool := x.buffer.atEnd x.length

def freeTime (x : Outgoing) : FreeTime :=
  if 0 < x.resends then .retransmit
  else if x.presentInitiator then .presentInitiator
  else .newInitiator

def refused? (x : Outgoing) : Option Outgoing :=
  if x.resends < maxResends then some { x with resends := x.resends + 1 } else none

/-- Ends the frame. Who spoke last is still known, the next frame has to wait longer. -/
def finish (x : Outgoing) : Outgoing := { x with length := 0, resends := 0, acked := false }

def rewind (x : Outgoing) : Outgoing := { x with buffer := x.buffer.rewind }

/-- Which bit is sent next, once the cursor has passed one of this kind. The header is known to be over
by the block that the cursor has left behind. -/
def next (x : Outgoing) (f : BitKind) : BitKind :=
  match f with
  | .headerInit => if x.buffer.offset = 4 then .headerDest else .headerInit
  | .headerDest => if x.buffer.blocks = 1 then .eom else .headerDest
  | .data => if x.buffer.offset = 0 then .eom else .data
  | .eom => .eom

def onDeadline (x : Outgoing) : Initiator → Option (Outgoing × Initiator)
  | .freeTime => some (x, .startLow)
  | .startLow => some (x, .startHigh)
  | .startHigh => some (x, .low .headerInit)
  | .low f => some (x, .high f)
  | .high .eom => some (x, .ackLow)
  | .high f =>
    let x := { x with buffer := x.buffer.advance }
    some (x, .low (x.next f))
  | .ackLow => some (x, .ackHigh)
  | .ackHigh => some (x, .ackVerify)
  | .ackVerify => none

end Outgoing
end HdmiCec
