import HdmiCec.Proofs.Wire.Bits
import HdmiCec.Proofs.Wire.Packed

/-! The bit buffer as a codec. Whatever was done to a buffer before: once it is rewound, the bits that are clocked
into it come out as bytes and as bits, up to the last of its places, and the bits of a message make up that message
in any other buffer (`codes_bits`). -/
namespace HdmiCec

theorem Message.length_ofBits (l : List Bool) : (ofBits l).length = l.length / 8 := by
  rw [ofBits_eq_map, List.length_map, List.length_range]

theorem Message.ofBits_take (l : List Bool) (n : Nat) : ofBits (l.take (8 * n)) = (ofBits l).take n := by
  have hcount : (l.take (8 * n)).length / 8 = min n (l.length / 8) := by
    rw [List.length_take]
    omega
  rw [ofBits_eq_map, ofBits_eq_map, hcount, ← List.map_take, List.take_range]
  refine List.map_congr_left fun k hk => Byte.ofBits_congr fun j hj => ?_
  rw [List.mem_range] at hk
  rw [List.getD_eq_getElem?_getD, List.getD_eq_getElem?_getD, List.getElem?_take_of_lt (by omega)]

namespace BitBuffer

def clock (b : BitBuffer) (l : List Bool) : BitBuffer := l.foldl push b

def skip (b : BitBuffer) : Nat → BitBuffer
  | 0 => b
  | n + 1 => b.advance.skip n

def reads (b : BitBuffer) : Nat → List Bool
  | 0 => []
  | n + 1 => b.current :: b.advance.reads n

variable {b : BitBuffer} {m : Message}

theorem bitAt_of_ge (b : BitBuffer) {i : Nat} (h : capacity ≤ i) : b.bitAt i = false := dif_neg (Nat.not_lt.2 h)

theorem current_put_of_lt (h : b.pos < capacity) (v : Bool) : (b.put v).current = v := by
  show (b.put v).bitAt b.pos = v
  rw [bitAt_put, if_pos ⟨rfl, h⟩]

theorem push_full (h : b.pos = capacity) (v : Bool) : b.push v = b := by
  obtain ⟨bits, pos⟩ := b
  obtain rfl : pos = capacity := h
  have hout : ¬ capacity < 8 * Message.maxLength := Nat.lt_irrefl _
  simp only [push, put, advance, mk.injEq]
  refine ⟨?_, Nat.min_eq_right (Nat.le_succ _)⟩
  refine Vector.ext fun i hi => ?_
  rw [Vector.getElem_setIfInBounds, if_neg]
  rintro rfl
  exact hout hi

theorem pos_push_le (b : BitBuffer) (v : Bool) : (b.push v).pos ≤ capacity := Nat.min_le_right _ _

theorem taken_push (h : b.pos ≤ capacity) (v : Bool) : (b.push v).taken = (b.taken ++ [v]).take capacity := by
  rcases Nat.lt_or_eq_of_le h with hlt | hfull
  · have hroom : (b.taken ++ [v]).length ≤ capacity := by
      rw [List.length_append, length_taken]
      exact hlt
    rw [push, taken_advance (b := b.put v) hlt, taken_put, current_put_of_lt hlt, List.take_of_length_le hroom]
  · rw [push_full hfull, List.take_left' (by rw [length_taken, hfull])]

def Op.clock (l : List Bool) : List Op := l.flatMap fun v => [.put v, .advance]

theorem foldl_clock (b : BitBuffer) (l : List Bool) : (Op.clock l).foldl perform b = b.clock l := by
  induction l generalizing b with
  | nil => rfl
  | cons v rest ih => exact ih (b.push v)

theorem made_append (before after : List Op) : made (before ++ after) = after.foldl perform (made before) :=
  List.foldl_append

theorem clock_append (b : BitBuffer) (l r : List Bool) : b.clock (l ++ r) = (b.clock l).clock r := List.foldl_append

theorem clock_full (h : b.pos = capacity) (l : List Bool) : b.clock l = b := by
  induction l with
  | nil => rfl
  | cons v rest ih =>
    show (b.push v).clock rest = b
    rw [push_full h]
    exact ih

theorem pos_clock (h : b.pos ≤ capacity) (l : List Bool) : (b.clock l).pos = min (b.pos + l.length) capacity := by
  induction l generalizing b with
  | nil => exact (Nat.min_eq_left h).symm
  | cons v rest ih =>
    show ((b.push v).clock rest).pos = _
    rw [ih (b.pos_push_le v), pos_push, List.length_cons]
    omega

theorem taken_clock (h : b.pos ≤ capacity) (l : List Bool) : (b.clock l).taken = (b.taken ++ l).take capacity := by
  induction l generalizing b with
  | nil =>
    have hall : (b.taken ++ []).length ≤ capacity := by
      rw [List.append_nil, length_taken]
      exact h
    rw [List.take_of_length_le hall, List.append_nil]
    rfl
  | cons v rest ih =>
    show ((b.push v).clock rest).taken = _
    rw [ih (b.pos_push_le v), taken_push h]
    rcases Nat.lt_or_eq_of_le h with hlt | hfull
    · have hroom : (b.taken ++ [v]).length ≤ capacity := by
        rw [List.length_append, length_taken]
        exact hlt
      rw [List.take_of_length_le hroom, List.append_assoc, List.singleton_append]
    · have hlength : b.taken.length = capacity := by rw [length_taken, hfull]
      rw [List.take_left' hlength, List.take_left' hlength, List.take_left' hlength]

/-- What comes after the last place changes nothing. -/
theorem clock_take (b : BitBuffer) (l : List Bool) : b.rewind.clock l = b.rewind.clock (l.take capacity) := by
  rcases Nat.le_total capacity l.length with hlong | hshort
  · have hfull : (b.rewind.clock (l.take capacity)).pos = capacity := by
      rw [pos_clock (Nat.zero_le _), List.length_take]
      show min (0 + min capacity l.length) capacity = capacity
      omega
    conv => lhs; rw [← List.take_append_drop capacity l, clock_append, clock_full hfull]
  · rw [List.take_of_length_le hshort]

theorem bitAt_advance_pos (h : b.pos ≤ capacity) (i : Nat) : b.bitAt (b.advance.pos + i) = b.bitAt (b.pos + (i + 1)) := by
  have hnext : b.advance.pos = min (b.pos + 1) capacity := rfl
  rcases Nat.lt_or_eq_of_le h with hlt | hfull
  · rw [show b.advance.pos + i = b.pos + (i + 1) by omega]
  · rw [b.bitAt_of_ge (by omega), b.bitAt_of_ge (by omega)]

theorem reads_eq (h : b.pos ≤ capacity) (n : Nat) : b.reads n = (List.range n).map fun i => b.bitAt (b.pos + i) := by
  induction n generalizing b with
  | zero => rfl
  | succ n ih =>
    rw [reads, ih (Nat.min_le_right _ _), List.range_succ_eq_map, List.map_cons, List.map_map]
    refine congrArg (_ :: ·) (List.map_congr_left fun i _ => ?_)
    rw [bitAt_advance]
    exact bitAt_advance_pos h i

/-- Read from the start, a buffer gives back what it took in. -/
theorem reads_rewind (b : BitBuffer) : b.rewind.reads b.pos = b.taken := by
  rw [reads_eq (Nat.zero_le _)]
  refine List.map_congr_left fun i _ => ?_
  show b.bitAt (0 + i) = b.bitAt i
  rw [Nat.zero_add]

theorem reads_load (b : BitBuffer) (hm : m.length ≤ Message.maxLength) : (b.load m).reads (8 * m.length) = m.bits := by
  rw [reads_eq (Nat.zero_le _)]
  refine List.ext_getElem? fun i => ?_
  by_cases hi : i < 8 * m.length
  · have hk : i / 8 < m.length := by omega
    have hj : i % 8 < 8 := Nat.mod_lt _ (by decide)
    have hplace : i = 8 * (i / 8) + i % 8 := (Nat.div_add_mod i 8).symm
    have hroom : i < capacity := by
      simp only [capacity]
      omega
    have hbit := m.getElem?_bits hk hj
    rw [← hplace] at hbit
    rw [hbit, List.getElem?_map, List.getElem?_range hi, Option.map_some]
    show some ((b.load m).bitAt (0 + i)) = _
    rw [Nat.zero_add, bitAt_load b m hroom, List.getElem?_eq_getElem hk]
  · rw [List.getElem?_eq_none (by simpa using hi), List.getElem?_eq_none (by rw [m.length_bits]; omega)]

theorem pos_skip (h : b.pos ≤ capacity) (n : Nat) : (b.skip n).pos = min (b.pos + n) capacity := by
  induction n generalizing b with
  | zero => exact (Nat.min_eq_left h).symm
  | succ n ih =>
    show (b.advance.skip n).pos = _
    rw [ih (Nat.min_le_right _ _)]
    show min (min (b.pos + 1) capacity + n) capacity = _
    omega

/-- From the start, the end of a frame is reached after its last bit, and not left where the buffer is full. -/
theorem atEnd_skip (h : b.pos = 0) {len : Nat} (hlen : len ≤ 16) (n : Nat) :
    (b.skip n).atEnd len = true ↔ if len = 16 then 128 ≤ n else n = 8 * len := by
  rw [atEnd, beq_iff_eq, pos_skip (h ▸ Nat.zero_le _), h]
  show min (0 + n) 128 = 8 * len ↔ _
  split <;> omega

end BitBuffer

namespace PackedBuffer

structure Mirrors (p : PackedBuffer) (b : BitBuffer) : Prop where
  completed : p.completed = b.completed
  current : p.current? = some b.current
  header : p.header = b.header
  place : (p.byte, p.bit.toNat) = (b.blocks, b.offset)
  atEnd : ∀ n, p.atEnd n = b.atEnd n

theorem Shows.mirrors {p : PackedBuffer} {b : BitBuffer} (h : p.Shows b) : p.Mirrors b :=
  ⟨h.completed, h.current?, h.header, Prod.ext h.byte h.bit, h.atEnd⟩

/-- However a buffer was made, it is the same in memory. -/
theorem mirrors_made {ops : List BitBuffer.Op} {b : BitBuffer} (h : BitBuffer.made ops = b) :
    ∃ p, made? ops = some p ∧ p.Mirrors b := by
  obtain ⟨p, hp, hshows⟩ := packed_shows ops
  exact ⟨p, hp, (h ▸ hshows).mirrors⟩

end PackedBuffer

namespace BitBuffer

/-- For any buffers, however they were made. A buffer that is rewound takes bits in: its blocks are the first
sixteen bytes that they make up, its cursor counts them, those from the 129th on change nothing and a full buffer
reads zero; rewound again it gives the bits back. The bits read off a message that was loaded make up that message
in any other buffer. The end of a frame of `len` blocks is reached after `8 * len` places, and a full buffer stays
at the end of the longest frame. In memory, with bytes, masks and counters, it is all the same and nothing
overflows. -/
theorem codes_bits (before other : List Op) (l : List Bool) {m : Message} (hm : m.length ≤ 16) :
    let b := (made before).rewind
    let c := b.clock l
    let loaded := (made before).load m
    c.completed = (Message.ofBits l).take (min (l.length / 8) 16) ∧
    (c.blocks, c.offset) = (min l.length 128 / 8, min l.length 128 % 8) ∧
    c = b.clock (l.take 128) ∧ (128 ≤ l.length → c.current = false) ∧
    c.rewind.reads (min l.length 128) = l.take 128 ∧
    ((made other).rewind.clock (loaded.reads (8 * m.length))).completed = m ∧
    (∀ len ≤ 16, ∀ n, ((b.skip n).atEnd len = true ↔ if len = 16 then 128 ≤ n else n = 8 * len) ∧
      ((loaded.skip n).atEnd len = true ↔ if len = 16 then 128 ≤ n else n = 8 * len)) ∧
    ∃ p, PackedBuffer.made? (before ++ .rewind :: Op.clock l) = some p ∧ p.Mirrors c := by
  intro b c loaded
  have htaken : c.taken = l.take 128 := taken_clock (Nat.zero_le _) l
  have hpos : c.pos = min l.length 128 := by rw [← c.length_taken, htaken, List.length_take, Nat.min_comm]
  have hmade : made (before ++ .rewind :: Op.clock l) = c := (made_append _ _).trans (foldl_clock b l)
  refine ⟨?_, by rw [blocks, offset, hpos], clock_take _ l, fun hlong => ?_, ?_, ?_, fun len hlen n => ?_, ?_⟩
  · rw [completed_eq_ofBits, htaken, Message.ofBits_take l 16, List.take_eq_take_min, Message.length_ofBits,
      Nat.min_comm]
  · exact c.bitAt_of_ge (by rw [hpos, Nat.min_eq_right hlong]; exact Nat.le_refl _)
  · rw [← hpos, reads_rewind, htaken]
  · have hfits : m.bits.length ≤ capacity := by
      rw [m.length_bits]
      exact Nat.mul_le_mul_left 8 hm
    have hbits : ((made other).rewind.clock m.bits).taken = m.bits :=
      (taken_clock (Nat.zero_le _) m.bits).trans (List.take_of_length_le hfits)
    rw [reads_load _ hm, completed_eq_ofBits, hbits, Message.ofBits_bits]
  · exact ⟨atEnd_skip rfl hlen n, atEnd_skip rfl hlen n⟩
  · exact PackedBuffer.mirrors_made hmade

/-- More bits than there are places for, in a buffer that is full of ones. -/
theorem codes_bits_overfull :
    let before : List Op := [.load (.replicate 16 0xff), .advance]
    let l := .replicate 8 false ++ .replicate 122 true
    let m : Message := [0x40, 0x04]
    let c := (made before).rewind.clock l
    m.length ≤ 16 ∧ 128 ≤ l.length ∧ c.current = false ∧ c.completed = 0x00 :: .replicate 15 0xff ∧
      ((made [.put true]).rewind.clock (((made before).load m).reads (8 * m.length))).completed = m := by
  intro before l m c
  have hm : m.length ≤ 16 := by decide
  have hlong : 128 ≤ l.length := by decide +kernel
  obtain ⟨hcompleted, -, -, hcurrent, -, hback, -⟩ := codes_bits before [.put true] l hm
  exact ⟨hm, hlong, hcurrent hlong, hcompleted.trans (by decide +kernel), hback⟩

end BitBuffer
end HdmiCec
