/-! How long the line is low and high for each symbol, and how far a measured pulse may lie off.
All times are in microseconds. -/
namespace HdmiCec

abbrev Ticks := Nat

def tolerance : Ticks := 100

def nominalBit : Ticks := 2400

def sampleTime : Ticks := 1050

inductive Symbol where
  | start | zero | one
  deriving DecidableEq, Repr

structure Window where
  low : Ticks
  minLow : Ticks
  maxLow : Ticks
  high : Ticks
  minTotal : Ticks
  maxTotal : Ticks

namespace Symbol

def window : Symbol → Window
  | start => { low := 3700, minLow := 3500, maxLow := 3900, high := 800, minTotal := 4300, maxTotal := 5700 }
  | zero => { low := 1500, minLow := 1300, maxLow := 1700, high := 900, minTotal := 2050, maxTotal := 2750 }
  | one => { low := 600, minLow := 400, maxLow := 800, high := 1800, minTotal := 2050, maxTotal := 2750 }

def ofBit (b : Bool) : Symbol := if b then one else zero

def ValidLow (s : Symbol) (low : Ticks) : Prop :=
  s.window.minLow - tolerance ≤ low ∧ low ≤ s.window.maxLow + tolerance

def ValidTotal (s : Symbol) (low high : Ticks) : Prop :=
  s.window.minTotal - tolerance ≤ low + high ∧ low + high ≤ s.window.maxTotal + tolerance

instance (s : Symbol) (low : Ticks) : Decidable (s.ValidLow low) :=
  inferInstanceAs (Decidable (_ ∧ _))

instance (s : Symbol) (low high : Ticks) : Decidable (s.ValidTotal low high) :=
  inferInstanceAs (Decidable (_ ∧ _))

end Symbol

def lowDuration (b : Bool) : Ticks := (Symbol.ofBit b).window.low

def highDuration (b : Bool) : Ticks := (Symbol.ofBit b).window.high

def bitOfLow? (low : Ticks) : Option Bool :=
  if Symbol.zero.ValidLow low then some false
  else if Symbol.one.ValidLow low then some true
  else none

/-! Deadlines of a follower. Those of a high line are short of the longest that is still valid. -/

def startLowLimit : Ticks := Symbol.start.window.maxLow + tolerance

def startHighLimit : Ticks := Symbol.start.window.maxTotal - Symbol.start.window.minLow + tolerance

def dataLowLimit : Ticks := Symbol.zero.window.maxLow + tolerance

def dataHighLimit : Ticks := Symbol.one.window.maxTotal - Symbol.one.window.minLow + tolerance

/-! The ACK slot. The initiator begins it like a one and lets go in time for the follower's level
to be read; a follower that pulls it makes it a zero. -/

def ackHighBeforeSample : Ticks :=
  (Symbol.one.window.low + Symbol.zero.window.low) / 2 - Symbol.one.window.low

def ackAfterSample : Ticks := nominalBit - sampleTime

def ackHoldAfterSample : Ticks := Symbol.zero.window.low - sampleTime

def ackFinishLast : Ticks := Symbol.zero.window.high

/-! How long the line has to be free before a start bit, by what came before. -/

inductive FreeTime where
  /-- The frame was refused before. -/
  | retransmit
  /-- Another device spoke last. -/
  | newInitiator
  /-- This device spoke last. -/
  | presentInitiator
  deriving DecidableEq, Repr

namespace FreeTime

/-- Free time in nominal bits. It counts from the end of the last bit and not from its start. -/
def bits : FreeTime → Nat
  | retransmit => 2
  | newInitiator => 4
  | presentInitiator => 6

def ticks (k : FreeTime) : Ticks := k.bits * nominalBit

end FreeTime

theorem validLow_zero {t : Ticks} : Symbol.zero.ValidLow t ↔ 1200 ≤ t ∧ t ≤ 1800 := Iff.rfl

theorem validLow_one {t : Ticks} : Symbol.one.ValidLow t ↔ 300 ≤ t ∧ t ≤ 900 := Iff.rfl

theorem validLow_start {t : Ticks} : Symbol.start.ValidLow t ↔ 3400 ≤ t ∧ t ≤ 4000 := Iff.rfl

/-- No pulse stands for two bits. -/
theorem bitOfLow?_eq_some_iff {t : Ticks} {b : Bool} :
    bitOfLow? t = some b ↔ (Symbol.ofBit b).ValidLow t := by
  cases b with
  | false => simp [bitOfLow?, Symbol.ofBit, validLow_zero]
  | true =>
    simp [bitOfLow?, Symbol.ofBit, validLow_zero, validLow_one]
    grind

end HdmiCec
