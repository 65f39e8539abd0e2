import HdmiCec.Message.Basic
import HdmiCec.Message.Address
import HdmiCec.Message.Opcode

/-! A message taken apart: who speaks to whom, the command, its operands. -/
namespace HdmiCec

structure Frame where
  initiator : LogicalAddress
  destination : LogicalAddress
  opcode : Option UInt8 := none
  operands : List UInt8 := []
  operands_le : operands.length ≤ Message.maxLength - 2 := by decide
  deriving DecidableEq, Repr

namespace Frame

def command (src dest : LogicalAddress) (op : Opcode) : Frame :=
  { initiator := src, destination := dest, opcode := some op.code }

/-- A header from an address to itself, which finds out whether the address is taken. -/
def poll (a : LogicalAddress) : Frame := { initiator := a, destination := a }

def blank : Frame := poll ⟨0⟩

def isPoll (f : Frame) : Bool :=
  f.initiator == f.destination && f.opcode.isNone && f.operands.isEmpty

/-- The bytes of the frame. Operands say nothing without a command and are left out then. -/
def toMessage (f : Frame) : Message :=
  LogicalAddress.header f.initiator f.destination :: match f.opcode with
    | some op => op :: f.operands
    | none => []

def parse? : Message → Option Frame
  | [] => none
  | [h] => some { initiator := .initiator h, destination := .destination h }
  | h :: op :: rest =>
    if fits : rest.length ≤ Message.maxLength - 2 then
      some
        { initiator := .initiator h, destination := .destination h, opcode := some op,
          operands := rest, operands_le := fits }
    else none

theorem toMessage_ne_nil (f : Frame) : f.toMessage ≠ [] := by simp [toMessage]

theorem toMessage_length_le (f : Frame) : f.toMessage.length ≤ Message.maxLength := by
  have h := f.operands_le
  unfold toMessage
  split <;> simp [Message.maxLength] at h ⊢
  omega

end Frame
end HdmiCec
