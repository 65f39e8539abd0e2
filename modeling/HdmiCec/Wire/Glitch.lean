import HdmiCec.Wire.Pulse

/-! Noise on the idle bus. A low pulse too short for a start bit is a glitch; the follower then
leaves the line alone for a while, and for longer once three glitches have come in a row. -/
namespace HdmiCec

inductive StartPulse where
  | valid
  | glitch
  /-- Neither a start bit nor short enough for noise. -/
  | invalid
  deriving DecidableEq, Repr

namespace StartPulse

def glitchLimit : Ticks := 200

def ofLow (low : Ticks) : StartPulse :=
  if Symbol.start.ValidLow low then valid
  else if low < glitchLimit then glitch
  else invalid

theorem ofLow_eq_valid_iff {t : Ticks} : ofLow t = valid ↔ Symbol.start.ValidLow t := by
  unfold ofLow
  grind

theorem ofLow_eq_invalid {t : Nat} (h : 200 ≤ t ∧ t < 3400 ∨ 4000 < t) : ofLow t = invalid := by
  have hvalid : ¬ Symbol.start.ValidLow t := by
    intro hv
    obtain ⟨hmin, hmax⟩ : 3400 ≤ t ∧ t ≤ 4000 := hv
    omega
  have hglitch : ¬ t < glitchLimit := by
    simp only [glitchLimit]
    omega
  rw [ofLow, if_neg hvalid, if_neg hglitch]

end StartPulse

/-- Glitches since the last valid start bit, as far as they matter. -/
structure GlitchCount where
  count : Nat := 0
  deriving DecidableEq, Repr

namespace GlitchCount

def cutoff : Nat := 3

def quietShort : Ticks := 100

def quietLong : Ticks := 500

/-- How long the line is left alone after one more glitch. -/
def quietPeriod (g : GlitchCount) : Ticks := if g.count < cutoff then quietShort else quietLong

def note (g : GlitchCount) : GlitchCount := if g.count < cutoff then ⟨g.count + 1⟩ else g

theorem count_note (g : GlitchCount) (h : g.count ≤ cutoff) :
    g.note.count = min (g.count + 1) cutoff := by
  unfold note
  split
  · show g.count + 1 = _
    omega
  · omega

end GlitchCount
end HdmiCec
