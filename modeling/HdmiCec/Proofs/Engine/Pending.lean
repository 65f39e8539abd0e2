import HdmiCec.Proofs.Engine.Fit

/-! The frame that an engine has taken for sending. It is kept byte for byte until it ends. -/
namespace HdmiCec

def Outgoing.message (x : Outgoing) : Message := (List.range x.length).map x.buffer.byteAt

theorem Outgoing.message_congr {x y : Outgoing} (hl : y.length = x.length) (hb : y.buffer.bits = x.buffer.bits) :
    y.message = x.message := by
  have : y.buffer.byteAt = x.buffer.byteAt := by
    funext k
    simp only [BitBuffer.byteAt, BitBuffer.bitAt, hb]
  rw [message, message, hl, this]

theorem Outgoing.length_message (x : Outgoing) : x.message.length = x.length := by simp [message]

theorem Outgoing.message_ne_nil {x : Outgoing} (h : x.isPending = true) : x.message ≠ [] := by
  have := Outgoing.length_pos h
  rw [← List.length_pos_iff, x.length_message]
  exact this

def Message.destination (m : Message) : LogicalAddress := .destination (m.headD 0)

theorem Outgoing.destination_message {x : Outgoing} (h : x.isPending = true) :
    x.message.destination = .destination x.buffer.header := by
  have := Outgoing.length_pos h
  rw [Message.destination, Outgoing.message]
  cases hl : x.length with
  | zero => omega
  | succ k => rw [List.range_succ_eq_map]; rfl

theorem Outgoing.isBroadcast_eq {x : Outgoing} (h : x.isPending = true) :
    x.isBroadcast = x.message.destination.isBroadcast := by
  rw [Outgoing.isBroadcast, Outgoing.destination_message h]

theorem Engine.message_load (e : Engine) {m : Message} (hm : m.Legal) : (e.load m).tx.message = m := by
  rw [load_tx, Outgoing.message]
  apply List.ext_getElem
  · simp
  · intro k h1 h2
    have hk : k < Message.maxLength := Nat.lt_of_lt_of_le h2 hm.2
    rw [List.getElem_map, List.getElem_range]
    exact BitBuffer.byteAt_load e.tx.buffer hk h2

namespace Engine

def Keeps (d e : Engine) : Prop := d.isSending = true → e.isSending = true ∧ d.tx.message = e.tx.message

variable {e d : Engine} {line : Reading} {t : Ticks}

theorem keeps_of_same (h : d.tx.Same e.tx) : d.Keeps e := by
  intro hd
  exact ⟨(isSending_of_same h).symm.trans hd, Outgoing.message_congr h.length h.bits⟩

theorem keeps_quit_finish (e : Engine) : ({ e with tx := e.tx.finish } : Engine).quit.Keeps e := by
  intro h
  simp [quit, rest, isSending, Outgoing.isPending, Outgoing.rewind, Outgoing.finish] at h

theorem onCapture_same (e : Engine) (t : Ticks) : (e.onCapture t).engine.tx.Same e.tx := by
  have hx := e.onCapture_hears t
  generalize (e.onCapture t).engine = d at hx
  cases hx with
  | same => exact .refl
  | quit => exact same_quit e
  | opens _ h => exact h
  | goes => exact .refl

/-- Before an initiator judges the ACK, a deadline is nothing to the frame that it sends. -/
theorem onTimeout_same (h : e.state ≠ .initiator .ackVerify) (line : Reading) :
    (e.onTimeout line).engine.tx.Same e.tx := by
  have hx := e.onTimeout_lapses line
  generalize (e.onTimeout line).engine = d at hx
  cases hx with
  | same => exact .refl
  | quit => exact same_quit e
  | ended hs => exact absurd hs h
  | again hs => exact absurd hs h
  | goes _ _ hx => exact hx
  | answers => exact .refl

theorem onTimeout_keeps (e : Engine) (line : Reading) : (e.onTimeout line).engine.Keeps e := by
  have hx := e.onTimeout_lapses line
  generalize (e.onTimeout line).engine = d at hx
  cases hx with
  | same => exact keeps_of_same .refl
  | quit => exact keeps_of_same (same_quit e)
  | ended => exact keeps_quit_finish e
  | again => exact fun hp => ⟨hp, rfl⟩
  | goes _ _ h => exact keeps_of_same h
  | answers => exact keeps_of_same .refl

end Engine
end HdmiCec
