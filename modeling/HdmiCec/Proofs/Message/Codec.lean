import HdmiCec.Message.Frame

/-! Frames and their bytes. A message that the bus can carry is taken apart and put together again without a
change. The other way round there is more to a frame than its bytes can tell: an address wider than four bits, and
operands without a command. What comes back is the frame without these, and so the frame itself just where there
are none (`codec_contract`). -/
namespace HdmiCec

namespace LogicalAddress

def nibble (a : LogicalAddress) : LogicalAddress := ⟨a.value % 16⟩

theorem toNat_nibble (a : LogicalAddress) : a.nibble.value.toNat = a.value.toNat % 16 := by
  simp [nibble]

theorem toNat_header (src dest : LogicalAddress) :
    (header src dest).toNat = 16 * (src.value.toNat % 16) + dest.value.toNat % 16 := by
  have hlow : dest.value.toNat &&& 15 = dest.value.toNat % 16 := Nat.and_two_pow_sub_one_eq_mod _ 4
  have hhigh : src.value.toNat <<< 4 % 256 = 2 ^ 4 * (src.value.toNat % 16) := by
    rw [Nat.shiftLeft_eq]
    omega
  have hdisjoint := Nat.two_pow_add_eq_or_of_lt (i := 4) (b := dest.value.toNat % 16) (by omega) (src.value.toNat % 16)
  simp only [header, UInt8.toNat_or, UInt8.toNat_and, UInt8.toNat_shiftLeft]
  show (src.value.toNat <<< 4 % 256) ||| (dest.value.toNat &&& 15) = _
  rw [hlow, hhigh, ← hdisjoint]

theorem toNat_initiator (h : UInt8) : (initiator h).value.toNat = h.toNat / 16 := by
  show h.toNat >>> 4 = _
  rw [Nat.shiftRight_eq_div_pow]

theorem toNat_destination (h : UInt8) : (destination h).value.toNat = h.toNat % 16 := by
  show h.toNat &&& 15 = _
  exact Nat.and_two_pow_sub_one_eq_mod _ 4

theorem ext_toNat {a b : LogicalAddress} (h : a.value.toNat = b.value.toNat) : a = b := by
  obtain ⟨x⟩ := a
  obtain ⟨y⟩ := b
  exact congrArg LogicalAddress.mk (UInt8.toNat_inj.1 h)

theorem initiator_header (src dest : LogicalAddress) : initiator (header src dest) = src.nibble := by
  apply ext_toNat
  rw [toNat_initiator, toNat_header, toNat_nibble]
  omega

theorem destination_header (src dest : LogicalAddress) : destination (header src dest) = dest.nibble := by
  apply ext_toNat
  rw [toNat_destination, toNat_header, toNat_nibble]
  omega

theorem header_initiator_destination (h : UInt8) : header (initiator h) (destination h) = h := by
  apply UInt8.toNat_inj.1
  have hlt := h.toNat_lt
  rw [toNat_header, toNat_initiator, toNat_destination]
  omega

theorem nibble_eq_self_iff {a : LogicalAddress} : a.nibble = a ↔ a.value ≤ 15 := by
  have hle : a.value ≤ 15 ↔ a.value.toNat ≤ 15 := UInt8.le_iff_toNat_le
  rw [hle]
  constructor
  · intro h
    rw [← h, toNat_nibble]
    omega
  · intro h
    apply ext_toNat
    rw [toNat_nibble]
    omega

end LogicalAddress

namespace Frame

/-- The frame as far as its bytes can tell. -/
def told (f : Frame) : Frame where
  initiator := f.initiator.nibble
  destination := f.destination.nibble
  opcode := f.opcode
  operands := if f.opcode.isSome then f.operands else []
  operands_le := by
    split
    · exact f.operands_le
    · exact Nat.zero_le _

/-- Its bytes tell all of it: both addresses fit into a header block, and operands come with a command. -/
structure Telling (f : Frame) : Prop where
  initiator_le : f.initiator.value ≤ 15
  destination_le : f.destination.value ≤ 15
  operands_eq_nil : f.opcode = none → f.operands = []

theorem told_eq_self_iff {f : Frame} : f.told = f ↔ f.Telling := by
  obtain ⟨src, dest, op, operands, hle⟩ := f
  simp only [told, mk.injEq, LogicalAddress.nibble_eq_self_iff, true_and]
  cases op with
  | some op => exact ⟨fun ⟨hsrc, hdest, _⟩ => ⟨hsrc, hdest, nofun⟩, fun h => ⟨h.initiator_le, h.destination_le, rfl⟩⟩
  | none =>
    exact ⟨fun ⟨hsrc, hdest, hnil⟩ => ⟨hsrc, hdest, fun _ => hnil.symm⟩,
      fun h => ⟨h.initiator_le, h.destination_le, (h.operands_eq_nil rfl).symm⟩⟩

theorem parse?_isSome_iff (m : Message) : (parse? m).isSome = true ↔ 1 ≤ m.length ∧ m.length ≤ 16 := by
  match m with
  | [] => simp [parse?]
  | [h] => simp [parse?]
  | h :: op :: rest =>
    have hfits : rest.length ≤ Message.maxLength - 2 ↔ rest.length ≤ 14 := Iff.rfl
    rw [parse?, List.length_cons, List.length_cons]
    split
    · next h => exact iff_of_true rfl (by omega)
    · next h => exact iff_of_false Bool.false_ne_true (by omega)

theorem toMessage_of_parse? {m : Message} {f : Frame} (h : parse? m = some f) : f.toMessage = m := by
  match m with
  | [] => cases h
  | [b] =>
    cases h
    simp [toMessage, LogicalAddress.header_initiator_destination]
  | b :: op :: rest =>
    rw [parse?] at h
    split at h
    · cases h
      simp [toMessage, LogicalAddress.header_initiator_destination]
    · cases h

theorem parse?_toMessage (f : Frame) : parse? f.toMessage = some f.told := by
  obtain ⟨src, dest, op, operands, hle⟩ := f
  cases op with
  | none => simp [toMessage, parse?, told, LogicalAddress.initiator_header, LogicalAddress.destination_header]
  | some op => simp [toMessage, parse?, told, hle, LogicalAddress.initiator_header, LogicalAddress.destination_header]

/-- Just the messages of one to sixteen bytes can be taken apart, and their frames have the same bytes again. A
frame always has one to sixteen bytes, the operands of a command among them; read back they give the frame as far
as they tell it, which is the frame itself if and only if they tell all of it. -/
theorem codec_contract (m : Message) (f : Frame) :
    ((parse? m).isSome = true ↔ 1 ≤ m.length ∧ m.length ≤ 16) ∧
    (∀ g, parse? m = some g → g.toMessage = m) ∧
    (1 ≤ f.toMessage.length ∧ f.toMessage.length ≤ 16) ∧
    (∀ op, f.opcode = some op → f.toMessage.tail = op :: f.operands) ∧
    (parse? f.toMessage = some f ↔ f.Telling) ∧
    parse? f.toMessage = some f.told := by
  have hpos : 0 < f.toMessage.length := List.length_pos_iff.2 f.toMessage_ne_nil
  refine ⟨parse?_isSome_iff m, fun g hg => toMessage_of_parse? hg, ⟨hpos, f.toMessage_length_le⟩, fun op hop => ?_, ?_,
    parse?_toMessage f⟩
  · simp [toMessage, hop]
  · rw [parse?_toMessage, Option.some.injEq, told_eq_self_iff]

/-- The longest message that there is, and a command from an address that a header has no room for. -/
theorem codec_contract_widest :
    let m : Message := 0x4f :: 0x84 :: .replicate 14 0xff
    let g : Frame := { initiator := ⟨4⟩, destination := .broadcast, opcode := some 0x84, operands := .replicate 14 0xff }
    let f : Frame := { initiator := ⟨0x1f⟩, destination := ⟨5⟩, opcode := some 0x44, operands := [0x41] }
    parse? m = some g ∧ g.toMessage = m ∧ f.opcode = some 0x44 ∧ f.toMessage.tail = [0x44, 0x41] ∧
      parse? f.toMessage ≠ some f ∧ parse? f.toMessage = some { f with initiator := ⟨0x0f⟩ } := by
  intro m g f
  have hm : parse? m = some g := by decide
  obtain ⟨-, hbytes, -, hoperands, hsame, hback⟩ := codec_contract m f
  have hwide : ¬ f.Telling := fun h => absurd h.initiator_le (by decide)
  have htold : f.told = { f with initiator := ⟨0x0f⟩ } := by decide
  exact ⟨hm, hbytes g hm, rfl, hoperands 0x44 rfl, fun h => hwide (hsame.1 h), htold ▸ hback⟩

end Frame
end HdmiCec
