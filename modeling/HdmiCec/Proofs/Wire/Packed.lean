import HdmiCec.Wire.BitBuffer

/-! The bit buffer as it lies in memory: sixteen bytes and a cursor of two counters. A bit is read and written
through a mask that is shifted to its place, and a shift or a sum that is too wide for its byte is an overflow.
Whatever is done to a buffer, none occurs, and the bytes show the bits that the buffer holds (`packed_shows`). -/
namespace HdmiCec

namespace Byte

def mask (i : UInt8) : UInt8 := 0x80 >>> i

def write (x mask : UInt8) (v : Bool) : UInt8 := if v then x &&& ~~~mask ||| mask else x &&& ~~~mask

theorem bit_and (x y : UInt8) (j : Nat) : bit (x &&& y) j = (bit x j && bit y j) := by
  simp only [bit, UInt8.toNat_and, Nat.testBit_and]

theorem bit_or (x y : UInt8) (j : Nat) : bit (x ||| y) j = (bit x j || bit y j) := by
  simp only [bit, UInt8.toNat_or, Nat.testBit_or]

theorem bit_not (x : UInt8) (j : Nat) : bit (~~~x) j = !bit x j := by
  have hplace : 7 - j < 8 := by omega
  have hbit (y : UInt8) : bit y j = y.toBitVec.getLsbD (7 - j) := rfl
  rw [hbit, hbit, UInt8.toBitVec_not, BitVec.getLsbD_not, decide_eq_true hplace, Bool.true_and]

theorem bit_mask_ofNat : ∀ n < 8, ∀ j < 8, bit (mask (UInt8.ofNat n)) j = decide (j = n) := by decide

theorem bit_mask {i : UInt8} (hi : i < 8) {j : Nat} (hj : j < 8) : bit (mask i) j = decide (j = i.toNat) := by
  have h := bit_mask_ofNat i.toNat (UInt8.lt_iff_toNat_lt.1 hi) j hj
  rwa [UInt8.ofNat_toNat] at h

theorem bit_write {i : UInt8} (hi : i < 8) (x : UInt8) (v : Bool) {j : Nat} (hj : j < 8) :
    bit (write x (mask i) v) j = if j = i.toNat then v else bit x j := by
  unfold write
  cases v with
  | true =>
    simp only [if_true, bit_or, bit_and, bit_not, bit_mask hi hj]
    split <;> simp [*]
  | false =>
    simp only [Bool.false_eq_true, if_false, bit_and, bit_not, bit_mask hi hj]
    split <;> simp [*]

/-- Reading under a mask. -/
theorem and_mask_ne_zero {i : UInt8} (hi : i < 8) (x : UInt8) : (x &&& mask i != 0) = bit x i.toNat := by
  have hi' : i.toNat < 8 := UInt8.lt_iff_toNat_lt.1 hi
  cases hx : bit x i.toNat with
  | true =>
    have hzero : x &&& mask i ≠ 0 := by
      intro h
      have hbit := congrArg (bit · i.toNat) h
      simp only [bit_and, hx, bit_mask hi hi', decide_true, Bool.and_self] at hbit
      rw [show bit 0 i.toNat = false by simp [bit]] at hbit
      cases hbit
    simpa using hzero
  | false =>
    have hzero : x &&& mask i = 0 := by
      refine Byte.ext fun j hj => ?_
      rw [bit_and, bit_mask hi hj, show bit 0 j = false by simp [bit]]
      by_cases h : j = i.toNat
      · rw [h, hx, Bool.false_and]
      · simp [h]
    simp [hzero]

end Byte

namespace BitBuffer

inductive Op where
  | renew
  | rewind
  | load (m : Message)
  | put (v : Bool)
  | advance
  deriving DecidableEq, Repr

def perform (b : BitBuffer) : Op → BitBuffer
  | .renew => {}
  | .rewind => b.rewind
  | .load m => b.load m
  | .put v => b.put v
  | .advance => b.advance

def made (ops : List Op) : BitBuffer := ops.foldl perform {}

theorem pos_eq (b : BitBuffer) : b.pos = 8 * b.blocks + b.offset := (Nat.div_add_mod b.pos 8).symm

theorem offset_lt (b : BitBuffer) : b.offset < 8 := Nat.mod_lt b.pos (by decide)

end BitBuffer

structure PackedBuffer where
  bytes : Vector UInt8 Message.maxLength := .replicate _ 0
  /-- The byte that the cursor stands on. -/
  byte : Nat := 0
  /-- Its place in that byte. -/
  bit : UInt8 := 0
  deriving DecidableEq, Repr

namespace PackedBuffer

/-- The mask of the bit under the cursor; nothing if the shift overflows. -/
def mask? (p : PackedBuffer) : Option UInt8 := if p.bit < 8 then some (Byte.mask p.bit) else none

def current? (p : PackedBuffer) : Option Bool :=
  match p.bytes[p.byte]? with
  | some x => p.mask?.map fun mask => x &&& mask != 0
  | none => some false

def put? (p : PackedBuffer) (v : Bool) : Option PackedBuffer :=
  p.mask?.map fun mask => match p.bytes[p.byte]? with
    | some x => { p with bytes := p.bytes.setIfInBounds p.byte (Byte.write x mask v) }
    | none => p

/-- Nothing if the sum overflows. -/
def advance? (p : PackedBuffer) : Option PackedBuffer :=
  if Message.maxLength ≤ p.byte then some p
  else if p.bit = 255 then none
  else if p.bit + 1 = 8 then some { p with byte := p.byte + 1, bit := 0 }
  else some { p with bit := p.bit + 1 }

def rewind (p : PackedBuffer) : PackedBuffer := { p with byte := 0, bit := 0 }

def load (p : PackedBuffer) (m : Message) : PackedBuffer where
  bytes := .ofFn fun i => m[i.val]?.getD (p.bytes.get i)

def perform? (p : PackedBuffer) : BitBuffer.Op → Option PackedBuffer
  | .renew => some {}
  | .rewind => some p.rewind
  | .load m => some (p.load m)
  | .put v => p.put? v
  | .advance => p.advance?

def made? (ops : List BitBuffer.Op) : Option PackedBuffer := ops.foldlM perform? {}

def atEnd (p : PackedBuffer) (n : Nat) : Bool := p.bit == 0 && p.byte == n

def header (p : PackedBuffer) : UInt8 := p.bytes.get ⟨0, by decide⟩

def completed (p : PackedBuffer) : Message := p.bytes.toList.take (min p.byte Message.maxLength)

/-- The bytes show the bits of a buffer, and both cursors stand at the same place. -/
structure Shows (p : PackedBuffer) (b : BitBuffer) : Prop where
  bytes : ∀ (k : Nat) (hk : k < Message.maxLength), p.bytes[k] = b.byteAt k
  byte : p.byte = b.blocks
  bit : p.bit.toNat = b.offset
  pos_le : b.pos ≤ BitBuffer.capacity

variable {p : PackedBuffer} {b : BitBuffer}

namespace Shows

theorem bit_lt (h : p.Shows b) : p.bit < 8 := by
  rw [UInt8.lt_iff_toNat_lt, h.bit]
  exact b.offset_lt

theorem mask? (h : p.Shows b) : p.mask? = some (Byte.mask p.bit) := by rw [PackedBuffer.mask?, if_pos h.bit_lt]

theorem byteAt? (h : p.Shows b) : p.bytes[p.byte]? = if b.blocks < Message.maxLength then some (b.byteAt b.blocks) else none := by
  rw [h.byte]
  split
  · next hk => rw [Vector.getElem?_eq_getElem hk, h.bytes _ hk]
  · next hk => exact Vector.getElem?_eq_none (Nat.le_of_not_lt hk)

theorem current? (h : p.Shows b) : p.current? = some b.current := by
  rw [PackedBuffer.current?, h.byteAt?, h.mask?]
  split
  · next x hx =>
    split at hx
    · next hk =>
      cases hx
      rw [Option.map_some, Byte.and_mask_ne_zero h.bit_lt, h.bit, BitBuffer.bit_byteAt _ _ b.offset_lt, ← b.pos_eq]
      rfl
    · cases hx
  · next hx =>
    split at hx
    · cases hx
    · next hk =>
      have hout : ¬ b.pos < 8 * Message.maxLength := by
        have := b.pos_eq
        omega
      rw [BitBuffer.current, BitBuffer.bitAt, dif_neg hout]

theorem header (h : p.Shows b) : p.header = b.header := h.bytes 0 (by decide)

theorem atEnd (h : p.Shows b) (n : Nat) : p.atEnd n = b.atEnd n := by
  have hbit : p.bit = 0 ↔ b.offset = 0 := by rw [← UInt8.toNat_inj, h.bit]; rfl
  have hpos := b.pos_eq
  have hlt := b.offset_lt
  rw [Bool.eq_iff_iff, PackedBuffer.atEnd, BitBuffer.atEnd, Bool.and_eq_true, beq_iff_eq, beq_iff_eq, beq_iff_eq, hbit,
    h.byte]
  omega

theorem completed (h : p.Shows b) : p.completed = b.completed := by
  have hle : b.blocks ≤ Message.maxLength := by
    have := h.pos_le
    have := b.pos_eq
    simp only [BitBuffer.capacity] at *
    omega
  refine List.ext_getElem ?_ fun k hk _ => ?_
  · simp [PackedBuffer.completed, BitBuffer.completed, h.byte, hle]
  · simp only [PackedBuffer.completed, h.byte, Nat.min_eq_left hle, List.length_take, Vector.length_toList] at hk
    simp only [PackedBuffer.completed, BitBuffer.completed, List.getElem_take, Vector.getElem_toList, List.getElem_map,
      List.getElem_range]
    exact h.bytes k (by omega)

theorem renew : ({} : PackedBuffer).Shows {} where
  bytes := by decide
  byte := rfl
  bit := rfl
  pos_le := Nat.zero_le _

theorem rewind (h : p.Shows b) : p.rewind.Shows b.rewind := ⟨h.bytes, (Nat.zero_div 8).symm, (Nat.zero_mod 8).symm, Nat.zero_le _⟩

theorem load (h : p.Shows b) (m : Message) : (p.load m).Shows (b.load m) where
  bytes := fun k hk => by
    refine Byte.ext fun j hj => ?_
    have hplace : 8 * k + j < BitBuffer.capacity := by
      simp only [BitBuffer.capacity]
      omega
    have hk8 : (8 * k + j) / 8 = k := by omega
    have hj8 : (8 * k + j) % 8 = j := by omega
    rw [BitBuffer.bit_byteAt _ _ hj, BitBuffer.bitAt_load _ _ hplace, hk8, hj8]
    simp only [PackedBuffer.load, Vector.getElem_ofFn]
    cases m[k]? with
    | some x => rfl
    | none =>
      rw [← BitBuffer.bit_byteAt _ _ hj, ← h.bytes k hk]
      rfl
  byte := (Nat.zero_div 8).symm
  bit := (Nat.zero_mod 8).symm
  pos_le := Nat.zero_le _

/-- Only the bit under the cursor is written, its neighbours stay. -/
theorem byteAt_put (h : p.Shows b) (v : Bool) {k : Nat} (hk : k < Message.maxLength) : (b.put v).byteAt k =
    if b.blocks = k then Byte.write (b.byteAt k) (Byte.mask p.bit) v else b.byteAt k := by
  have hpos := b.pos_eq
  have hlt := b.offset_lt
  refine Byte.ext fun j hj => ?_
  rw [BitBuffer.bit_byteAt _ _ hj, BitBuffer.bitAt_put]
  have hplace : b.pos = 8 * k + j ∧ 8 * k + j < BitBuffer.capacity ↔ b.blocks = k ∧ j = b.offset := by
    simp only [BitBuffer.capacity]
    omega
  simp only [hplace]
  split
  · next hat => rw [if_pos hat.1, Byte.bit_write h.bit_lt _ _ hj, h.bit, if_pos hat.2]
  · next hat =>
    split
    · next hblock =>
      rw [Byte.bit_write h.bit_lt _ _ hj, h.bit, if_neg fun hj' => hat ⟨hblock, hj'⟩, BitBuffer.bit_byteAt _ _ hj]
    · rw [BitBuffer.bit_byteAt _ _ hj]

theorem put (h : p.Shows b) (v : Bool) : ∃ q, p.put? v = some q ∧ q.Shows (b.put v) := by
  rw [PackedBuffer.put?, h.mask?, h.byteAt?, Option.map_some]
  refine ⟨_, rfl, ?_⟩
  by_cases hin : b.blocks < Message.maxLength
  · simp only [hin, if_true]
    refine ⟨fun k hk => ?_, h.byte, h.bit, h.pos_le⟩
    rw [Vector.getElem_setIfInBounds, h.byteAt_put v hk, h.byte]
    split
    · next hat => rw [hat]
    · exact h.bytes k hk
  · simp only [hin, if_false]
    refine ⟨fun k hk => ?_, h.byte, h.bit, h.pos_le⟩
    rw [h.byteAt_put v hk, if_neg (by omega)]
    exact h.bytes k hk

/-- The place in a byte is far from the largest number that there is room for. -/
theorem bit_ne_max (h : p.Shows b) : p.bit ≠ 255 := by
  rintro heq
  have hlt := h.bit_lt
  rw [heq] at hlt
  exact absurd hlt (by decide)

theorem toNat_bit_succ (h : p.Shows b) : (p.bit + 1).toNat = b.offset + 1 := by
  have hlt := b.offset_lt
  rw [UInt8.toNat_add, h.bit]
  show (b.offset + 1) % 256 = _
  omega

/-- Both cursors wrap at the same place. -/
theorem bit_wraps_iff (h : p.Shows b) : p.bit + 1 = 8 ↔ b.offset = 7 := by
  rw [← UInt8.toNat_inj, h.toNat_bit_succ]
  show b.offset + 1 = 8 ↔ _
  omega

theorem advance_full (h : p.Shows b) (hfull : Message.maxLength ≤ b.blocks) : p.Shows b.advance := by
  have hpos := b.pos_eq
  have hle := h.pos_le
  have hcap : BitBuffer.capacity = 8 * Message.maxLength := rfl
  have hstill : b.advance.pos = b.pos := by
    show min (b.pos + 1) BitBuffer.capacity = b.pos
    omega
  refine ⟨h.bytes, ?_, ?_, hstill ▸ hle⟩
  · rw [h.byte, BitBuffer.blocks, BitBuffer.blocks, hstill]
  · rw [h.bit, BitBuffer.offset, BitBuffer.offset, hstill]

theorem advance (h : p.Shows b) : ∃ q, p.advance? = some q ∧ q.Shows b.advance := by
  unfold PackedBuffer.advance?
  split
  · next hend => exact ⟨p, rfl, h.advance_full (h.byte ▸ hend)⟩
  · next hin =>
    rw [h.byte] at hin
    have hpos := b.pos_eq
    have hlt := b.offset_lt
    have hmoved : b.advance.pos = b.pos + 1 := Nat.min_eq_left (by simp only [BitBuffer.capacity]; omega)
    have hle : b.advance.pos ≤ BitBuffer.capacity := Nat.min_le_right _ _
    rw [if_neg h.bit_ne_max]
    split
    · next hlast =>
      rw [h.bit_wraps_iff] at hlast
      refine ⟨_, rfl, h.bytes, ?_, ?_, hle⟩
      · show p.byte + 1 = b.advance.pos / 8
        rw [h.byte]
        omega
      · show (0 : Nat) = b.advance.pos % 8
        omega
    · next hmore =>
      rw [h.bit_wraps_iff] at hmore
      refine ⟨_, rfl, h.bytes, ?_, ?_, hle⟩
      · show p.byte = b.advance.pos / 8
        rw [h.byte]
        omega
      · show (p.bit + 1).toNat = b.advance.pos % 8
        rw [h.toNat_bit_succ]
        omega

theorem perform (h : p.Shows b) (op : BitBuffer.Op) : ∃ q, p.perform? op = some q ∧ q.Shows (b.perform op) := by
  cases op with
  | renew => exact ⟨_, rfl, renew⟩
  | rewind => exact ⟨_, rfl, h.rewind⟩
  | load m => exact ⟨_, rfl, h.load m⟩
  | put v => exact h.put v
  | advance => exact h.advance

theorem foldl (h : p.Shows b) (ops : List BitBuffer.Op) :
    ∃ q, ops.foldlM perform? p = some q ∧ q.Shows (ops.foldl BitBuffer.perform b) := by
  induction ops generalizing p b with
  | nil => exact ⟨p, rfl, h⟩
  | cons op rest ih =>
    obtain ⟨q, hq, hshows⟩ := h.perform op
    obtain ⟨r, hr, hlast⟩ := ih hshows
    exact ⟨r, by rw [List.foldlM_cons, hq]; exact hr, hlast⟩

end Shows

/-- Nothing overflows, whatever is done to a buffer, and its bytes show its bits. -/
theorem packed_shows (ops : List BitBuffer.Op) : ∃ p, made? ops = some p ∧ p.Shows (BitBuffer.made ops) :=
  Shows.renew.foldl ops

end PackedBuffer
end HdmiCec
