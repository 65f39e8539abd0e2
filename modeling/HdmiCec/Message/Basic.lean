/-! A message is the bytes of one frame, header block first. The bus carries messages of one to
sixteen blocks. -/
namespace HdmiCec

abbrev Message := List UInt8

namespace Message

def maxLength : Nat := 16

def Legal (m : Message) : Prop := m ≠ [] ∧ m.length ≤ maxLength

instance (m : Message) : Decidable m.Legal := inferInstanceAs (Decidable (_ ∧ _))

theorem Legal.length_pos {m : Message} (h : m.Legal) : 0 < m.length :=
  List.length_pos_iff.2 h.1

def text (m : Message) : String := "[" ++ ", ".intercalate (m.map toString) ++ "]"

end Message
end HdmiCec
