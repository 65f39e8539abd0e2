import HdmiCec.Wire.BitBuffer

/-! The bits of messages in the order in which they travel, and the bits that a buffer has taken in. The blocks
that a buffer has completed are the bytes that these bits make up (`completed_eq_ofBits`). -/
namespace HdmiCec

def Byte.bits (b : UInt8) : List Bool := (List.range 8).map (Byte.bit b)

def Message.bits (m : Message) : List Bool := m.flatMap Byte.bits

/-- The bytes that bits make up, eight bits each, the most significant one first. Bits that are left over make up
no byte. -/
def Message.ofBits : List Bool → Message
  | b0 :: b1 :: b2 :: b3 :: b4 :: b5 :: b6 :: b7 :: rest =>
    UInt8.ofNat (128 * b0.toNat + 64 * b1.toNat + 32 * b2.toNat + 16 * b3.toNat + 8 * b4.toNat + 4 * b5.toNat +
      2 * b6.toNat + b7.toNat) :: ofBits rest
  | _ => []

theorem Byte.ofBits_eq (f : Nat → Bool) : ofBits f =
    UInt8.ofNat (128 * (f 0).toNat + 64 * (f 1).toNat + 32 * (f 2).toNat + 16 * (f 3).toNat + 8 * (f 4).toNat +
      4 * (f 5).toNat + 2 * (f 6).toNat + (f 7).toNat) := by
  simp only [ofBits, List.range, List.range.loop, List.foldl_cons, List.foldl_nil]
  refine congrArg UInt8.ofNat ?_
  omega

theorem Byte.length_bits (b : UInt8) : (Byte.bits b).length = 8 := rfl

theorem Byte.bits_injective {b c : UInt8} (h : Byte.bits b = Byte.bits c) : b = c :=
  Byte.ext fun j hj => List.map_inj_left.1 h j (List.mem_range.2 hj)

namespace Message

theorem bits_append (m : Message) (byte : UInt8) : bits (m ++ [byte]) = m.bits ++ Byte.bits byte := by
  simp [bits]

theorem length_bits (m : Message) : m.bits.length = 8 * m.length := by
  induction m with
  | nil => rfl
  | cons byte rest ih =>
    show (Byte.bits byte ++ bits rest).length = 8 * (rest.length + 1)
    rw [List.length_append, Byte.length_bits, ih]
    omega

theorem getElem?_bits (m : Message) {k j : Nat} (hk : k < m.length) (hj : j < 8) :
    m.bits[8 * k + j]? = some (Byte.bit m[k] j) := by
  induction m generalizing k with
  | nil => cases hk
  | cons byte rest ih =>
    show (Byte.bits byte ++ bits rest)[8 * k + j]? = _
    cases k with
    | zero =>
      rw [List.getElem?_append_left (by rw [Byte.length_bits]; omega)]
      simp [Byte.bits, hj]
    | succ k =>
      have hplace : 8 * (k + 1) + j - (Byte.bits byte).length = 8 * k + j := by
        rw [Byte.length_bits]
        omega
      rw [List.getElem?_append_right (by rw [Byte.length_bits]; omega), hplace, ih (Nat.lt_of_succ_lt_succ hk)]
      rfl

theorem ofBits_bits (m : Message) : ofBits m.bits = m := by
  induction m with
  | nil => rfl
  | cons byte rest ih =>
    show UInt8.ofNat _ :: ofBits (bits rest) = _
    rw [ih, ← Byte.ofBits_eq (Byte.bit byte), Byte.ofBits_bit]

theorem ofBits_eq_map (l : List Bool) :
    ofBits l = (List.range (l.length / 8)).map fun k => Byte.ofBits fun j => l.getD (8 * k + j) false := by
  induction l using ofBits.induct with
  | case1 b0 b1 b2 b3 b4 b5 b6 b7 rest ih =>
    have hlength : (b0 :: b1 :: b2 :: b3 :: b4 :: b5 :: b6 :: b7 :: rest).length / 8 = rest.length / 8 + 1 := by
      simp only [List.length_cons]
      omega
    rw [hlength, List.range_succ_eq_map, List.map_cons, List.map_map, ofBits, ih, Byte.ofBits_eq]
    rfl
  | case2 l h =>
    have hshort : l.length / 8 = 0 := by
      match l with
      | [] | [_] | [_, _] | [_, _, _] | [_, _, _, _] | [_, _, _, _, _] | [_, _, _, _, _, _] | [_, _, _, _, _, _, _] =>
        simp
      | b0 :: b1 :: b2 :: b3 :: b4 :: b5 :: b6 :: b7 :: rest => exact absurd rfl (h b0 b1 b2 b3 b4 b5 b6 b7 rest)
    rw [hshort, ofBits]
    · rfl
    · exact h

end Message

namespace BitBuffer

variable {b : BitBuffer} {m : Message}

/-- The bits before the cursor. -/
def taken (b : BitBuffer) : List Bool := (List.range b.pos).map b.bitAt

theorem length_taken (b : BitBuffer) : b.taken.length = b.pos := by simp [taken]

theorem pos_advance (h : b.pos < capacity) : b.advance.pos = b.pos + 1 := by
  simp only [advance]
  omega

theorem taken_put (b : BitBuffer) (v : Bool) : (b.put v).taken = b.taken := by
  refine List.map_congr_left fun i hi => ?_
  rw [bitAt_put, if_neg]
  rw [List.mem_range] at hi
  rintro ⟨rfl, -⟩
  exact Nat.lt_irrefl _ hi

theorem taken_advance (h : b.pos < capacity) : b.advance.taken = b.taken ++ [b.current] := by
  rw [taken, pos_advance h, List.range_succ, List.map_append]
  rfl

theorem getElem?_taken (b : BitBuffer) {i : Nat} (hi : i < b.pos) : b.taken[i]? = some (b.bitAt i) := by
  simp [taken, hi]

theorem pos_of_taken {l : List Bool} (h : b.taken = m.bits ++ l) : b.pos = 8 * m.length + l.length := by
  rw [← b.length_taken, h, List.length_append, m.length_bits]

theorem blocks_of_taken (h : b.taken = m.bits) : b.blocks = m.length := by
  have hpos := b.length_taken
  rw [h, m.length_bits] at hpos
  rw [blocks, ← hpos]
  omega

theorem completed_eq_ofBits (b : BitBuffer) : b.completed = Message.ofBits b.taken := by
  rw [Message.ofBits_eq_map, b.length_taken, completed, blocks]
  refine List.map_congr_left fun k hk => Byte.ofBits_congr fun j hj => ?_
  rw [List.mem_range] at hk
  rw [List.getD_eq_getElem?_getD, b.getElem?_taken (by omega), Option.getD_some]

/-- Where the bits that were taken in are those of a message, the blocks are its bytes. -/
theorem completed_of_taken (h : b.taken = m.bits) : b.completed = m := by
  rw [completed_eq_ofBits, h, Message.ofBits_bits]

theorem header_of_taken (h : b.taken = m.bits) (hm : m ≠ []) : b.header = m.headD 0 := by
  have hc := completed_of_taken h
  rw [completed] at hc
  cases hb : b.blocks with
  | zero =>
    rw [hb] at hc
    exact absurd hc.symm hm
  | succ n =>
    rw [hb, List.range_succ_eq_map] at hc
    rw [← hc]
    rfl

theorem exists_byte {l : List Bool} (h : b.taken = m.bits ++ l) (hl : l.length = 8) : ∃ byte, l = Byte.bits byte := by
  refine ⟨b.byteAt m.length, List.ext_getElem hl fun j h1 h2 => ?_⟩
  have hj : j < 8 := by omega
  have hpos := pos_of_taken h
  have hbit := b.getElem?_taken (i := 8 * m.length + j) (by omega)
  rw [h, List.getElem?_append_right (by rw [m.length_bits]; omega), m.length_bits, Nat.add_sub_cancel_left,
    List.getElem?_eq_getElem h1] at hbit
  simp only [Byte.bits, List.getElem_map, List.getElem_range, bit_byteAt b _ hj]
  exact Option.some.inj hbit

end BitBuffer
end HdmiCec
