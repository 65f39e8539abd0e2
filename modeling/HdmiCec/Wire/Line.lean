import HdmiCec.Wire.Pulse

/-! The line seen from one device. It can be pulled low or let go, it can be read, and a timer can
wait for the next edge on it, for a deadline, or for whichever comes first. -/
namespace HdmiCec

inductive Level where
  | low | high
  deriving DecidableEq, Repr

inductive Edge where
  | rising | falling
  deriving DecidableEq, Repr

def Level.ofPulls (pulled : Bool) : Level := if pulled then .low else .high

def Level.edge? : Level → Level → Option Edge
  | low, high => some .rising
  | high, low => some .falling
  | _, _ => none

abbrev Reading := Option Level

/-- A line that cannot be read passes for high. -/
def Reading.isLow (r : Reading) : Bool := r == some .low

structure Wait where
  edge : Option Edge
  /-- Ticks to the deadline; without one it waits for the edge alone. -/
  timeout : Option Ticks
  deriving DecidableEq, Repr

namespace Wait

def onEdge (e : Edge) : Wait := { edge := some e, timeout := none }

def within (e : Edge) (n : Ticks) : Wait := { edge := some e, timeout := some n }

def pause (n : Ticks) : Wait := { edge := none, timeout := some n }

def forever : Ticks := 0

def ofTicks (edge : Option Edge) (n : Ticks) : Wait where
  edge := edge
  timeout := if n = forever then none else some n

def ticks (w : Wait) : Ticks := w.timeout.getD forever

end Wait

inductive LineAction where
  /-- Pulls the line low or lets go of it. -/
  | set (level : Level)
  | arm (wait : Wait)
  | stop
  deriving DecidableEq, Repr

end HdmiCec
