import HdmiCec.Proofs.Engine.Armed
import HdmiCec.Proofs.Engine.Pending
import HdmiCec.Proofs.Wire.Bits

/-! The frames that the bus knows, as the edges and deadlines a follower sees of them: a start bit,
then blocks of eight bits, an EOM bit and a slot for the ACK. The grammar says nothing of engines. -/
namespace HdmiCec

namespace Grammar

open Engine (Call)

/-- Pulses that stand for these bits. Each one is taken for its bit by its low part, and is as long
as that bit may be. -/
inductive Pulses : List Bool → List Call → Prop
  | none : Pulses [] []
  | more {bits : List Bool} {calls : List Call} {b : Bool} {low high : Ticks} : Pulses bits calls →
      bitOfLow? low = some b → (Symbol.ofBit b).ValidTotal low high →
      Pulses (bits ++ [b]) (calls ++ [.capture low, .capture high])

/-- A block. In its ACK slot the line is read, then the slot passes. -/
inductive Block (byte : UInt8) (eom : Bool) (sample : Reading) : List Call → Prop
  | mk {pulses : List Call} (line : Reading) : Pulses (Byte.bits byte ++ [eom]) pulses →
      Block byte eom sample (pulses ++ [.timeout sample, .timeout line])

/-- The beginning of a frame: the start bit and the blocks that others follow, each of them up to the
edge at which the next block begins. -/
inductive Begun : Message → List Reading → List Call → Prop
  | start {low high : Ticks} : StartPulse.ofLow low = .valid → Symbol.start.ValidTotal low high →
      Begun [] [] [.capture low, .capture high]
  | block {m : Message} {samples : List Reading} {calls block : List Call} {byte : UInt8} {sample : Reading}
      (gap : Ticks) : Begun m samples calls → Block byte false sample block →
      m.length + 1 < Message.maxLength → Begun (m ++ [byte]) (samples ++ [sample]) (calls ++ (block ++ [.capture gap]))

def Quiet (m : Message) (samples : List Reading) : Prop :=
  m.destination.isBroadcast = true → ∀ s ∈ samples, s.isLow = false

/-- A whole frame for the device with this address. It ends with the first block whose EOM bit is
one, or with the sixteenth block. -/
inductive WellFormed (own : LogicalAddress) : Message → List Call → Prop
  | mk {m : Message} {samples : List Reading} {calls block : List Call} {byte : UInt8} {eom : Bool}
      {sample : Reading} : Begun m samples calls → Block byte eom sample block →
      (eom = true ∨ m.length + 1 = Message.maxLength) → Quiet (m ++ [byte]) (samples ++ [sample]) →
      ((m ++ [byte]).destination = own ∨ (m ++ [byte]).destination.isBroadcast = true) →
      WellFormed own (m ++ [byte]) (calls ++ block)

variable {m : Message} {samples : List Reading} {calls : List Call}

theorem Begun.length_lt (h : Begun m samples calls) : m.length < Message.maxLength := by
  induction h with
  | start => exact Nat.zero_lt_succ 15
  | block _ _ _ hlt =>
    rw [List.length_append]
    exact hlt

theorem Begun.ne_nil_of_mem (h : Begun m samples calls) {s : Reading} (hs : s ∈ samples) : m ≠ [] := by
  cases h with
  | start => cases hs
  | block => simp

theorem Begun.two_le_length (h : Begun m samples calls) : 2 ≤ calls.length := by
  induction h with
  | start => exact Nat.le_refl 2
  | block _ _ _ _ ih =>
    rw [List.length_append]
    omega

theorem WellFormed.two_le_length {own : LogicalAddress} (h : WellFormed own m calls) : 2 ≤ calls.length := by
  cases h with
  | mk hb =>
    rw [List.length_append]
    exact Nat.le_add_right_of_le hb.two_le_length

theorem WellFormed.length_pos {own : LogicalAddress} (h : WellFormed own m calls) : 0 < m.length := by
  cases h with
  | mk =>
    rw [List.length_append]
    exact Nat.succ_pos _

theorem Begun.first (h : Begun m samples calls) : ∃ low rest, calls = .capture low :: rest := by
  induction h with
  | start => exact ⟨_, _, rfl⟩
  | block _ _ _ _ ih =>
    obtain ⟨low, rest, rfl⟩ := ih
    exact ⟨low, _, rfl⟩

theorem WellFormed.first {own : LogicalAddress} (h : WellFormed own m calls) : ∃ low rest, calls = .capture low :: rest := by
  cases h with
  | mk hb =>
    obtain ⟨low, rest, rfl⟩ := hb.first
    exact ⟨low, _, rfl⟩

theorem WellFormed.last {own : LogicalAddress} {c : Call} (h : WellFormed own m (calls ++ [c])) :
    ∃ line, c = .timeout line := by
  generalize hall : calls ++ [c] = all at h
  cases h with
  | @mk _ _ begun block _ _ sample _ hblock =>
    cases hblock with
    | @mk pulses line =>
      have hsplit : begun ++ (pulses ++ [Call.timeout sample, .timeout line]) =
          (begun ++ (pulses ++ [Call.timeout sample])) ++ [Call.timeout line] := by simp
      obtain ⟨-, hc⟩ := List.append_inj' (hall.trans hsplit) rfl
      exact ⟨line, List.head_eq_of_cons_eq hc⟩

theorem WellFormed.meant {own : LogicalAddress} (h : WellFormed own m calls) :
    m.destination = own ∨ m.destination.isBroadcast = true := by
  cases h with
  | mk _ _ _ _ hmeant => exact hmeant

end Grammar

/-- The header block says whom a message speaks to. -/
theorem Message.destination_append {m : Message} (hm : m ≠ []) (l : Message) :
    destination (m ++ l) = m.destination := by
  cases m with
  | nil => exact absurd rfl hm
  | cons => rfl

/-- Whether a frame is quiet shows block by block. -/
theorem Grammar.Begun.quiet_append {m : Message} {samples : List Reading} {calls : List Engine.Call}
    (h : Begun m samples calls) (byte : UInt8) (sample : Reading) :
    Quiet (m ++ [byte]) (samples ++ [sample]) ↔
      Quiet m samples ∧ ((m ++ [byte]).destination.isBroadcast = true → sample.isLow = false) := by
  constructor
  · refine fun hq => ⟨fun hb s hs => ?_, fun hb => hq hb sample (by simp)⟩
    rw [← Message.destination_append (h.ne_nil_of_mem hs) [byte]] at hb
    exact hq hb s (List.mem_append_left _ hs)
  · rintro ⟨hq, hlast⟩ hb s hs
    rcases List.mem_append.1 hs with hs | hs
    · rw [Message.destination_append (h.ne_nil_of_mem hs)] at hb
      exact hq hb s hs
    · rw [List.mem_singleton.1 hs]
      exact hlast hb

end HdmiCec
