import HdmiCec.Wire.Line

/-! A timer that waits for an edge, a deadline or both, on a clock of its own. Times are absolute;
what it measures is the time since it was last armed. -/
namespace HdmiCec

structure Armed where
  edge : Option Edge
  /-- When the wait ends without an edge. -/
  deadline : Option Nat
  deriving DecidableEq, Repr

structure EdgeTimer where
  start : Nat := 0
  armed : Option Armed := none
  deriving DecidableEq, Repr

namespace EdgeTimer

def arm (w : Wait) (time : Nat) : EdgeTimer where
  start := time
  armed := some { edge := w.edge, deadline := w.timeout.map (time + ·) }

def stop (t : EdgeTimer) : EdgeTimer := { t with armed := none }

/-- Ticks since the last arm, in a counter of 32 bits. -/
def elapsed (t : EdgeTimer) (time : Nat) : Ticks := (time - t.start) % 0x100000000

def deadline? (t : EdgeTimer) : Option Nat := t.armed.bind (·.deadline)

def waitsFor (t : EdgeTimer) (e : Edge) : Bool := t.armed.any fun a => a.edge == some e

def due (t : EdgeTimer) (time : Nat) : Bool := t.deadline?.any (· ≤ time)

end EdgeTimer
end HdmiCec
