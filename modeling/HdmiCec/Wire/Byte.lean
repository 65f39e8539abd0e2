/-! Bytes as they travel on the bus: eight bits, the most significant one first. Reading the bits
of a byte and putting them together again are inverse to each other. -/
namespace HdmiCec.Byte

def bit (b : UInt8) (j : Nat) : Bool := b.toNat.testBit (7 - j)

def ofBits (f : Nat → Bool) : UInt8 :=
  UInt8.ofNat ((List.range 8).foldl (fun n j => 2 * n + (f j).toNat) 0)

theorem ofBits_congr {f g : Nat → Bool} (h : ∀ j < 8, f j = g j) : ofBits f = ofBits g := by
  simp [ofBits, List.range, List.range.loop, h]

theorem bit_horner (c0 c1 c2 c3 c4 c5 c6 c7 : Bool) :
    ∀ j < 8, bit (UInt8.ofNat (2 * (2 * (2 * (2 * (2 * (2 * (2 * (2 * 0 + c0.toNat) + c1.toNat) +
      c2.toNat) + c3.toNat) + c4.toNat) + c5.toNat) + c6.toNat) + c7.toNat)) j =
      [c0, c1, c2, c3, c4, c5, c6, c7].getD j false := by
  revert c0 c1 c2 c3 c4 c5 c6 c7
  decide +kernel

theorem bit_ofBits (f : Nat → Bool) {j : Nat} (h : j < 8) : bit (ofBits f) j = f j := by
  have hb := bit_horner (f 0) (f 1) (f 2) (f 3) (f 4) (f 5) (f 6) (f 7) j h
  have hj : j = 0 ∨ j = 1 ∨ j = 2 ∨ j = 3 ∨ j = 4 ∨ j = 5 ∨ j = 6 ∨ j = 7 := by omega
  rcases hj with rfl | rfl | rfl | rfl | rfl | rfl | rfl | rfl <;>
    simpa [ofBits, List.range, List.range.loop] using hb

theorem ofBits_bit_of_lt : ∀ n < 256, ofBits (bit (UInt8.ofNat n)) = UInt8.ofNat n := by
  decide +kernel

theorem ofBits_bit (b : UInt8) : ofBits (bit b) = b := by
  simpa using ofBits_bit_of_lt b.toNat b.toNat_lt

theorem ext {a b : UInt8} (h : ∀ j < 8, bit a j = bit b j) : a = b := by
  rw [← ofBits_bit a, ← ofBits_bit b, ofBits_congr h]

end HdmiCec.Byte
