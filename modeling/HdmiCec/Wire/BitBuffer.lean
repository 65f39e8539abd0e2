import HdmiCec.Message.Basic
import HdmiCec.Wire.Byte

/-! The bits of one frame with a cursor, most significant bit of each byte first. Past the last of
the 128 places writing does nothing, reading gives zero and the cursor stands still. -/
namespace HdmiCec

structure BitBuffer where
  bits : Vector Bool (8 * Message.maxLength) := .replicate _ false
  pos : Nat := 0
  deriving DecidableEq, Repr

namespace BitBuffer

def capacity : Nat := 8 * Message.maxLength

def bitAt (b : BitBuffer) (i : Nat) : Bool := if h : i < 8 * Message.maxLength then b.bits[i] else false

def byteAt (b : BitBuffer) (k : Nat) : UInt8 := Byte.ofBits fun j => b.bitAt (8 * k + j)

def blocks (b : BitBuffer) : Nat := b.pos / 8

def offset (b : BitBuffer) : Nat := b.pos % 8

def current (b : BitBuffer) : Bool := b.bitAt b.pos

def put (b : BitBuffer) (v : Bool) : BitBuffer := { b with bits := b.bits.setIfInBounds b.pos v }

def advance (b : BitBuffer) : BitBuffer := { b with pos := min (b.pos + 1) capacity }

def push (b : BitBuffer) (v : Bool) : BitBuffer := (b.put v).advance

def rewind (b : BitBuffer) : BitBuffer := { b with pos := 0 }

/-- Writes the bytes of a message from the start, as many as there is room for, and rewinds. -/
def load (b : BitBuffer) (m : Message) : BitBuffer where
  bits := .ofFn fun i => match m[i.val / 8]? with
    | some byte => Byte.bit byte (i.val % 8)
    | none => b.bits.get i
  pos := 0

def atEnd (b : BitBuffer) (n : Nat) : Bool := b.pos == 8 * n

def header (b : BitBuffer) : UInt8 := b.byteAt 0

def completed (b : BitBuffer) : Message := (List.range b.blocks).map b.byteAt

theorem bitAt_advance (b : BitBuffer) (i : Nat) : b.advance.bitAt i = b.bitAt i := rfl

theorem bitAt_put (b : BitBuffer) (v : Bool) (i : Nat) :
    (b.put v).bitAt i = if b.pos = i ∧ i < capacity then v else b.bitAt i := by
  unfold bitAt put capacity
  split
  · next h =>
    rw [Vector.getElem_setIfInBounds]
    simp [h]
  · next h => simp [h]

theorem bitAt_load (b : BitBuffer) (m : Message) {i : Nat} (hi : i < capacity) :
    (b.load m).bitAt i = match m[i / 8]? with
      | some byte => Byte.bit byte (i % 8)
      | none => b.bitAt i := by
  have hi' : i < 8 * Message.maxLength := hi
  simp only [bitAt, load, hi', dite_true, Vector.getElem_ofFn]
  rfl

theorem bit_byteAt (b : BitBuffer) (k : Nat) {j : Nat} (hj : j < 8) :
    Byte.bit (b.byteAt k) j = b.bitAt (8 * k + j) := Byte.bit_ofBits _ hj

theorem byteAt_load (b : BitBuffer) {m : Message} {k : Nat} (hk : k < Message.maxLength) (hm : k < m.length) :
    (b.load m).byteAt k = m[k] := by
  apply Byte.ext
  intro j hj
  have hc : 8 * k + j < capacity := by
    simp only [capacity]
    omega
  have hq : (8 * k + j) / 8 = k := by omega
  have hr : (8 * k + j) % 8 = j := by omega
  rw [bit_byteAt _ _ hj, bitAt_load _ _ hc, hq, hr]
  simp [hm]

theorem pos_push (b : BitBuffer) (v : Bool) : (b.push v).pos = min (b.pos + 1) capacity := rfl

end BitBuffer
end HdmiCec
