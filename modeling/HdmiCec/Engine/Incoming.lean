import HdmiCec.Engine.State
import HdmiCec.Message.Address
import HdmiCec.Wire.BitBuffer
import HdmiCec.Wire.Glitch

/-! The frame that a follower takes in, and what an edge on the line means to it. -/
namespace HdmiCec

/-- Which bit a follower expects next, once its cursor has passed one of this kind. -/
def BitKind.next (f : BitKind) (b : BitBuffer) : BitKind :=
  match f with
  | headerInit => if b.offset = 4 then headerDest else headerInit
  | _ => if b.offset = 0 then eom else f

structure Incoming where
  buffer : BitBuffer := {}
  /-- The current block is the last one. -/
  eom : Bool := false
  /-- Someone pulled the ACK slot of a broadcast low. -/
  refused : Bool := false
  /-- Low part of the bit being measured. -/
  lowTicks : Ticks := 0
  glitches : GlitchCount := {}
  deriving DecidableEq, Repr

namespace Incoming

/-- Drops the frame. The glitches stay counted, a burst of noise may come with pauses. -/
def restart (r : Incoming) : Incoming := { buffer := r.buffer.rewind, glitches := r.glitches }

def destination (r : Incoming) : LogicalAddress := .destination r.buffer.header

def message (r : Incoming) : Message := r.buffer.completed

def isLast (r : Incoming) : Bool := r.eom || Message.maxLength ≤ r.buffer.blocks

def bit (r : Incoming) (f : BitKind) : Bool := if f = .eom then r.eom else r.buffer.current

def noteLow (r : Incoming) (f : BitKind) (b : Bool) (low : Ticks) : Incoming :=
  if f = .eom then { r with eom := b, lowTicks := low }
  else { r with buffer := r.buffer.put b, lowTicks := low }

def endBit (r : Incoming) (f : BitKind) : Incoming × Follower :=
  if f = .eom then (r, .ackLow)
  else
    let buffer := r.buffer.advance
    ({ r with buffer := buffer }, .low (f.next buffer))

/-- What a follower makes of an edge that comes `t` ticks after the last one. Without an answer
the edge means nothing; a pulse that fits no symbol ends the frame. -/
def onEdge (r : Incoming) (s : Follower) (t : Ticks) : Option (Incoming × State) :=
  match s with
  | .startLow => match StartPulse.ofLow t with
    | .valid => some ({ r with lowTicks := t }, .follower .startHigh)
    | .glitch => some (r, .follower .debounce)
    | .invalid => some (r, .idle)
  | .startHigh =>
    if Symbol.start.ValidTotal r.lowTicks t then some (r, .follower (.low .headerInit))
    else some (r, .idle)
  | .low f => match bitOfLow? t with
    | some b => some (r.noteLow f b t, .follower (.high f))
    | none => some (r, .idle)
  | .high f =>
    if (Symbol.ofBit (r.bit f)).ValidTotal r.lowTicks t then
      let (r, next) := r.endBit f
      some (r, .follower next)
    else some (r, .idle)
  | .ackLow => some (r, .follower .ackFinish)
  | .ackFinish => some (r, .follower (.low .data))
  | .debounce | .ackVerify => none

end Incoming
end HdmiCec
