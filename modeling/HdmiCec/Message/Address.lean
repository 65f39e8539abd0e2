/-! Logical addresses. A header block carries two of them, four bits each: who speaks and who is
spoken to. -/
namespace HdmiCec

/-- 0 to 14 name a device, 15 speaks to all of them, 255 stands for none assigned. -/
structure LogicalAddress where
  value : UInt8
  deriving DecidableEq, Repr

namespace LogicalAddress

def broadcast : LogicalAddress := ⟨15⟩

def unregistered : LogicalAddress := ⟨255⟩

def isBroadcast (a : LogicalAddress) : Bool := a == broadcast

def isRegistered (a : LogicalAddress) : Bool := a != unregistered

def Assignable (a : LogicalAddress) : Prop := a.value < broadcast.value ∨ a = unregistered

instance (a : LogicalAddress) : Decidable a.Assignable := inferInstanceAs (Decidable (_ ∨ _))

def initiator (header : UInt8) : LogicalAddress := ⟨header >>> 4⟩

def destination (header : UInt8) : LogicalAddress := ⟨header &&& 15⟩

/-- The header block from `src` to `dest`; an address wider than four bits loses its upper part. -/
def header (src dest : LogicalAddress) : UInt8 := (src.value <<< 4) ||| (dest.value &&& 15)

theorem eq_broadcast_iff {a : LogicalAddress} : a.isBroadcast = true ↔ a = broadcast := by
  simp [isBroadcast]

theorem Assignable.ne_broadcast {a : LogicalAddress} (h : a.Assignable) : a ≠ broadcast := by
  rintro rfl
  revert h
  decide

end LogicalAddress
end HdmiCec
