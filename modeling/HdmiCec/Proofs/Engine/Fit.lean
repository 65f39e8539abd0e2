import HdmiCec.Proofs.Engine.Turns
import HdmiCec.Proofs.Wire.Bits

/-! What holds of an engine after any calls in any order: how its state goes with the frame it
sends, and where its cursors stand. -/
namespace HdmiCec

/-- Where the cursor stands for a bit of this kind in a frame of `n` blocks. -/
def BitKind.Within (f : BitKind) (pos n : Nat) : Prop :=
  match f with
  | headerInit => pos < 4
  | headerDest => 4 ≤ pos ∧ pos < 8
  | data => 8 ≤ pos ∧ pos < 8 * n
  | eom => pos % 8 = 0 ∧ 0 < pos ∧ pos ≤ 8 * n

theorem BitKind.Within.pos_lt {f : BitKind} {pos n : Nat} (h : f.Within pos n) (hf : f ≠ .eom) (hn : 0 < n) :
    pos < 8 * n := by
  cases f with
  | eom => exact absurd rfl hf
  | headerInit => simp only [Within] at h; omega
  | headerDest => simp only [Within] at h; omega
  | data => simp only [Within] at h; omega

theorem BitKind.Within.pos_lt_capacity {f : BitKind} {pos n : Nat} (h : f.Within pos n) (hf : f ≠ .eom)
    (hn : 0 < n) (hm : n ≤ Message.maxLength) : pos < BitBuffer.capacity := by
  have := h.pos_lt hf hn
  simp only [BitBuffer.capacity, Message.maxLength] at hm ⊢
  omega

namespace Incoming

theorem pos_noteLow (r : Incoming) (f : BitKind) (b : Bool) (low : Ticks) :
    (r.noteLow f b low).buffer.pos = r.buffer.pos := by
  unfold Incoming.noteLow
  split <;> rfl

theorem bit_noteLow (r : Incoming) (f : BitKind) (b : Bool) (low : Ticks)
    (hlt : f ≠ .eom → r.buffer.pos < BitBuffer.capacity) : (r.noteLow f b low).bit f = b := by
  by_cases hf : f = .eom
  · rw [Incoming.noteLow, if_pos hf, Incoming.bit, if_pos hf]
  · rw [Incoming.noteLow, if_neg hf, Incoming.bit, if_neg hf]
    show (r.buffer.put b).bitAt r.buffer.pos = b
    rw [BitBuffer.bitAt_put, if_pos ⟨rfl, hlt hf⟩]

theorem lowTicks_noteLow (r : Incoming) (f : BitKind) (b : Bool) (low : Ticks) :
    (r.noteLow f b low).lowTicks = low := by
  unfold noteLow
  split <;> rfl

end Incoming

theorem BitKind.Within.next {f : BitKind} {b : BitBuffer} {n : Nat} (h : f.Within b.pos n) (hf : f ≠ .eom)
    (hn : 0 < n) (hm : n ≤ Message.maxLength) : (f.next b.advance).Within b.advance.pos n := by
  have hlt := h.pos_lt hf hn
  have hp : b.advance.pos = b.pos + 1 := BitBuffer.pos_advance (h.pos_lt_capacity hf hn hm)
  have ho : b.advance.offset = (b.pos + 1) % 8 := by simp only [BitBuffer.offset, hp]
  rw [hp]
  cases f with
  | eom => exact absurd rfl hf
  | headerInit =>
    simp only [Within] at h
    by_cases h4 : (b.pos + 1) % 8 = 4
    · rw [show BitKind.next .headerInit b.advance = .headerDest by simp [BitKind.next, ho, h4]]
      simp only [Within]
      omega
    · rw [show BitKind.next .headerInit b.advance = .headerInit by simp [BitKind.next, ho, h4]]
      simp only [Within]
      omega
  | headerDest =>
    simp only [Within] at h
    by_cases h0 : (b.pos + 1) % 8 = 0
    · rw [show BitKind.next .headerDest b.advance = .eom by simp [BitKind.next, ho, h0]]
      simp only [Within]
      omega
    · rw [show BitKind.next .headerDest b.advance = .headerDest by simp [BitKind.next, ho, h0]]
      simp only [Within]
      omega
  | data =>
    simp only [Within] at h
    by_cases h0 : (b.pos + 1) % 8 = 0
    · rw [show BitKind.next .data b.advance = .eom by simp [BitKind.next, ho, h0]]
      simp only [Within]
      omega
    · rw [show BitKind.next .data b.advance = .data by simp [BitKind.next, ho, h0]]
      simp only [Within]
      omega

/-- An initiator knows the end of the header by the block that it has sent and a follower by the place in the block.
It is the same while the cursor is where it belongs. -/
theorem Outgoing.next_advance {x : Outgoing} {f : BitKind} (h : f.Within x.buffer.pos x.length) (hf : f ≠ .eom)
    (hn : 0 < x.length) (hm : x.length ≤ Message.maxLength) :
    ({ x with buffer := x.buffer.advance } : Outgoing).next f = f.next x.buffer.advance := by
  have hp : x.buffer.advance.pos = x.buffer.pos + 1 := BitBuffer.pos_advance (h.pos_lt_capacity hf hn hm)
  cases f with
  | eom => exact absurd rfl hf
  | headerDest =>
    obtain ⟨hmin, hmax⟩ : 4 ≤ x.buffer.pos ∧ x.buffer.pos < 8 := h
    have hiff : (x.buffer.pos + 1) / 8 = 1 ↔ (x.buffer.pos + 1) % 8 = 0 := by omega
    simp only [Outgoing.next, BitKind.next, BitBuffer.blocks, BitBuffer.offset, hp, hiff]
  | headerInit | data => rfl

structure Outgoing.Fit (x : Outgoing) : Prop where
  length_le : x.length ≤ Message.maxLength
  resends_le : x.resends ≤ maxResends
  /-- Without a frame nothing has been tried yet. -/
  fresh : x.isPending = false → x.resends = 0

def Initiator.Cursor (s : Initiator) (x : Outgoing) : Prop :=
  match s with
  | freeTime => True
  | startLow | startHigh => x.buffer.pos = 0
  | low f | high f => f.Within x.buffer.pos x.length
  | ackLow | ackHigh | ackVerify => BitKind.eom.Within x.buffer.pos x.length

def State.framed : State → Bool
  | .follower (.low _) | .follower (.high _) => true
  | .follower .ackLow | .follower .ackVerify | .follower .ackFinish => true
  | _ => false

structure Engine.Fit (e : Engine) : Prop where
  tx : e.tx.Fit
  busy : ∀ s, e.state = .initiator s → e.isSending = true ∧ s.Cursor e.tx
  /-- A frame never waits in an engine that is idle or off. -/
  prompt : e.state = .idle ∨ e.state = .disabled → e.isSending = false
  /-- What is taken in begins with the first bit. -/
  blank : e.state.framed = false → e.rx.buffer.pos = 0

namespace Outgoing

variable {x : Outgoing}

theorem length_pos (h : x.isPending = true) : 0 < x.length := by
  simp only [isPending, bne_iff_ne] at h
  omega

theorem fit_finish (x : Outgoing) : x.finish.Fit where
  length_le := by simp [Outgoing.finish]
  resends_le := by simp [Outgoing.finish]
  fresh := by simp [Outgoing.finish]

end Outgoing

namespace Engine

variable {e : Engine} {line : Reading} {t : Ticks}

theorem Fit.quit (h : e.tx.Fit) : e.quit.Fit where
  tx := ⟨h.length_le, h.resends_le, h.fresh⟩
  busy := by
    intro s hs
    by_cases hp : e.isSending
    · refine ⟨hp, ?_⟩
      have : s = .freeTime := by simpa [Engine.quit, hp] using hs.symm
      rw [this]
      trivial
    · simp [Engine.quit, hp] at hs
  prompt := by
    intro hs
    by_cases hp : e.isSending
    · simp [Engine.quit, hp] at hs
    · exact Bool.eq_false_iff.2 hp
  blank := fun _ => rfl

theorem Fit.initiator {s : Initiator} {x : Outgoing} (h : x.Fit) (hp : x.isPending = true) (hc : s.Cursor x)
    (hb : e.rx.buffer.pos = 0) : ({ e with state := .initiator s, tx := x } : Engine).Fit where
  tx := h
  busy := by
    intro u hu
    have : s = u := by simpa using hu
    exact ⟨hp, this ▸ hc⟩
  prompt := by simp
  blank := fun _ => hb

theorem Fit.follower {s : Follower} {x : Outgoing} {r : Incoming} (h : x.Fit)
    (hb : (State.follower s).framed = false → r.buffer.pos = 0) :
    ({ e with state := .follower s, tx := x, rx := r } : Engine).Fit where
  tx := h
  busy := by simp
  prompt := by simp
  blank := hb

theorem Fit.onTimeout_high (h : e.Fit) {f : BitKind} (hs : e.state = .initiator (.high f)) (hf : f ≠ .eom)
    (line : Reading) : (e.onTimeout line).engine =
      { e with state := .initiator (.low (f.next e.tx.buffer.advance)),
               tx := { e.tx with buffer := e.tx.buffer.advance } } := by
  obtain ⟨hp, hc⟩ := h.busy _ hs
  rw [Engine.onTimeout_high hs hf, Outgoing.next_advance hc hf (Outgoing.length_pos hp) h.tx.length_le]

theorem Fit.onTimeout (h : e.Fit) (line : Reading) : (e.onTimeout line).engine.Fit := by
  cases hs : e.state with
  | disabled => simpa [Engine.onTimeout, deadlineMove?, hs] using h
  | idle => simpa [Engine.onTimeout, deadlineMove?, hs] using h
  | initiator s =>
    obtain ⟨hp, hc⟩ := h.busy s hs
    have hb := h.blank (by rw [hs]; rfl)
    have hl := Outgoing.length_pos hp
    cases s with
    | freeTime =>
      rw [onTimeout_freeTime hs]
      exact Fit.initiator ⟨h.tx.length_le, h.tx.resends_le, h.tx.fresh⟩ hp rfl hb
    | startLow => rw [onTimeout_startLow hs]; exact Fit.initiator h.tx hp hc hb
    | startHigh =>
      rw [onTimeout_startHigh hs]
      refine Fit.initiator h.tx hp ?_ hb
      simp only [Initiator.Cursor, BitKind.Within] at hc ⊢
      omega
    | low f => rw [onTimeout_low hs]; exact Fit.initiator h.tx hp hc hb
    | high f =>
      by_cases hf : f = .eom
      · subst hf
        rw [onTimeout_high_eom hs]
        exact Fit.initiator h.tx hp hc hb
      · rw [h.onTimeout_high hs hf]
        exact Fit.initiator ⟨h.tx.length_le, h.tx.resends_le, h.tx.fresh⟩ hp
          (BitKind.Within.next hc hf hl h.tx.length_le) hb
    | ackLow => rw [onTimeout_ackLow hs]; exact Fit.initiator h.tx hp hc hb
    | ackHigh =>
      rw [onTimeout_ackHigh hs]
      exact Fit.initiator ⟨h.tx.length_le, h.tx.resends_le, h.tx.fresh⟩ hp hc hb
    | ackVerify =>
      cases ha : e.tx.acked with
      | true =>
        cases hl : e.tx.isLast with
        | true => rw [onTimeout_sent hs ha hl]; exact Fit.quit (Outgoing.fit_finish _)
        | false =>
          rw [onTimeout_acked hs ha hl]
          refine Fit.initiator h.tx hp ?_ hb
          simp only [Outgoing.isLast, BitBuffer.atEnd, beq_eq_false_iff_ne] at hl
          simp only [Initiator.Cursor, BitKind.Within] at hc ⊢
          omega
      | false =>
        by_cases hr : e.tx.resends < Outgoing.maxResends
        · rw [onTimeout_resend hs ha hr]
          refine Fit.initiator ⟨h.tx.length_le, hr, ?_⟩ hp trivial hb
          intro hn
          rw [show e.isSending = false from hn] at hp
          exact absurd hp (by decide)
        · rw [onTimeout_failed hs ha hr]; exact Fit.quit (Outgoing.fit_finish _)
  | follower s =>
    by_cases h1 : s = .ackLow
    · subst h1; rw [onTimeout_follower_ackLow hs]; exact Fit.follower h.tx (by simp [State.framed])
    by_cases h2 : s = .ackVerify
    · subst h2
      cases hr : e.rx.refused with
      | true => rw [onTimeout_refused hs hr]; exact Fit.quit h.tx
      | false => rw [onTimeout_follower_ackVerify hs hr]; exact Fit.follower h.tx (by simp [State.framed])
    · rw [onTimeout_follower hs h1 h2]; exact Fit.quit h.tx

theorem Fit.onCapture (h : e.Fit) (t : Ticks) : (e.onCapture t).engine.Fit := by
  cases hs : e.state with
  | disabled => simpa [Engine.onCapture, edgeMove?, hs] using h
  | idle =>
    rw [onCapture_idle hs]
    exact Fit.follower ⟨h.tx.length_le, h.tx.resends_le, h.tx.fresh⟩ fun _ => h.blank (by rw [hs]; rfl)
  | initiator s =>
    by_cases hy : s = .freeTime ∨ s = .startHigh ∨ s = .high .headerInit
    · rw [onCapture_initiator hs hy]
      exact Fit.follower ⟨h.tx.length_le, h.tx.resends_le, h.tx.fresh⟩ fun _ => h.blank (by rw [hs]; rfl)
    · rw [onCapture_deaf hs hy]
      exact h
  | follower s =>
    cases s with
    | startLow =>
      have hb := h.blank (by rw [hs]; rfl)
      by_cases ht : Symbol.start.ValidLow t
      · rw [onCapture_startLow_valid hs ht]; exact Fit.follower h.tx fun _ => hb
      · rcases onCapture_startLow_invalid hs ht with hq | hq
        · rw [hq]; exact Fit.quit h.tx
        · rw [hq]; exact Fit.follower h.tx fun _ => hb
    | startHigh =>
      rw [onCapture_startHigh hs]
      split
      · exact Fit.follower h.tx (by simp [State.framed])
      · exact Fit.quit h.tx
    | low f =>
      cases ht : bitOfLow? t with
      | some b => rw [onCapture_low hs ht]; exact Fit.follower h.tx (by simp [State.framed])
      | none => rw [onCapture_low_invalid hs ht]; exact Fit.quit h.tx
    | high f =>
      by_cases ht : (Symbol.ofBit (e.rx.bit f)).ValidTotal e.rx.lowTicks t
      · by_cases hf : f = .eom
        · subst hf; rw [onCapture_high_eom hs ht]; exact Fit.follower h.tx (by simp [State.framed])
        · rw [Incoming.bit, if_neg hf] at ht
          rw [onCapture_high hs hf ht]
          exact Fit.follower h.tx (by simp [State.framed])
      · rw [onCapture_high_invalid hs ht]; exact Fit.quit h.tx
    | ackFinish => rw [onCapture_ackFinish hs]; exact Fit.follower h.tx (by simp [State.framed])
    | ackLow => rw [onCapture_ackLow hs]; exact Fit.follower h.tx (by simp [State.framed])
    | debounce => simpa [Engine.onCapture, edgeMove?, hs, Incoming.onEdge] using h
    | ackVerify => simpa [Engine.onCapture, edgeMove?, hs, Incoming.onEdge] using h

theorem Fit.setEnabled (h : e.Fit) (on : Bool) : (e.setEnabled on).engine.Fit := by
  unfold Engine.setEnabled
  split
  · exact h
  · split
    · simp only [enter_idle]
      exact Fit.quit h.tx
    · refine ⟨⟨by simp [enter, target, entry], by simp [enter, target, entry], ?_⟩, ?_, ?_, ?_⟩
      · intro _
        simp [enter, target, entry]
      · simp [enter, target, entry]
      · intro _
        simp [enter, target, entry, isSending, Outgoing.isPending]
      · intro _
        simp [enter, target, entry]

theorem Fit.setAddress (h : e.Fit) (a : LogicalAddress) : ({ e with address := a } : Engine).Fit :=
  ⟨h.tx, h.busy, h.prompt, h.blank⟩

theorem Fit.send (h : e.Fit) {m : Message} {r : Reaction} (hr : e.send m = .ok r) : r.engine.Fit := by
  obtain ⟨hd, hm, hp, rfl⟩ := send_eq_ok_iff.1 hr
  have hx : (e.load m).tx.Fit := by
    refine ⟨hm.2, ?_, ?_⟩
    · rw [load_tx]
      exact h.tx.resends_le
    · intro hn
      exact absurd (isSending_load hm) (by rw [isSending, hn]; decide)
  cases hs : e.state with
  | disabled => simp [isEnabled, hs] at hd
  | idle =>
    rw [startSend_of_idle (by rw [load_state, hs]) (isSending_load hm)]
    simp only [enter, target, entry, initiatorEntry, reduceCtorEq, if_false, false_and]
    refine Fit.initiator hx (isSending_load hm) trivial ?_
    rw [load_rx]
    exact h.blank (by rw [hs]; rfl)
  | initiator s => exact absurd (h.busy s hs).1 (by simp [hp])
  | follower s =>
    rw [startSend_of_ne_idle (by simp [hs])]
    refine ⟨hx, by simp [hs], by simp [hs], ?_⟩
    rw [load_state, load_rx]
    exact h.blank

end Engine
end HdmiCec
