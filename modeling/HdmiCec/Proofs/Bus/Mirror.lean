import HdmiCec.Proofs.Engine.Pending
import HdmiCec.Proofs.Bus.Exclusion

/-! A follower that is in step with an initiator is in the same bit of the same block and has taken
in the same bits (`Engine.Follows`). Each event of the two keeps them in step. -/
namespace HdmiCec

/-- The part of a frame that a follower has taken in so far. -/
structure Incoming.Copies (r : Incoming) (x : Outgoing) : Prop where
  pos : r.buffer.pos = x.buffer.pos
  bits : ∀ p < x.buffer.pos, r.buffer.bitAt p = x.buffer.bitAt p

def State.carries : State → Bool
  | .initiator s => s != .freeTime && s != .startLow && s != .startHigh
  | _ => false

namespace Engine

theorem not_carries_quit (e : Engine) : e.quit.state.carries = false := by
  rcases e.quit_state with ⟨hq, -⟩ | ⟨hq, -⟩ <;> rw [hq] <;> rfl

/-- The engine `d` is in step with the initiator `e`. -/
def Follows (d e : Engine) : Prop :=
  match e.state with
  | .initiator .startLow => d.state = .follower .startLow
  | .initiator .startHigh => d.state = .follower .startHigh ∧ d.rx.lowTicks = Symbol.start.window.low
  | .initiator (.low f) => d.state = .follower (.low f) ∧ d.rx.Copies e.tx
  | .initiator (.high f) => d.state = .follower (.high f) ∧ d.rx.Copies e.tx ∧
      d.rx.bit f = e.tx.bit f ∧ d.rx.lowTicks = lowDuration (e.tx.bit f)
  | .initiator .ackLow | .initiator .ackHigh =>
    (d.state = .follower .ackLow ∨ d.state = .follower .ackVerify) ∧ d.rx.Copies e.tx ∧ d.rx.eom = e.tx.isLast
  | .initiator .ackVerify =>
    (d.state = .follower .ackLow ∨ d.state = .follower .ackVerify ∨ d.state = .follower .ackFinish) ∧
      d.rx.Copies e.tx ∧ d.rx.eom = e.tx.isLast
  | _ => False

variable {e d : Engine} {line : Reading} {t : Ticks}

theorem onTimeout_framed (h : (e.onTimeout line).engine.state.framed = true) :
    e.state = .follower .ackLow ∨ e.state = .follower .ackVerify ∧ e.rx.refused = false := by
  have hx := e.onTimeout_lapses line
  generalize (e.onTimeout line).engine = d at hx h
  cases hx with
  | same hs => rcases hs with hs | hs <;> rw [hs] at h <;> cases h
  | quit => rw [not_framed_quit] at h; cases h
  | ended => rw [not_framed_quit] at h; cases h
  | again => cases h
  | goes => cases h
  | answers hs hl =>
    rcases hl with ⟨rfl, -⟩ | ⟨rfl, -, hr⟩
    · exact .inl hs
    · exact .inr ⟨hs, hr⟩

/-- An initiator goes on with its frame, and without a falling edge, within a bit or the ACK slot. -/
theorem onTimeout_carries (h : (e.onTimeout line).engine.state.carries = true)
    (hd : (e.onTimeout line).engine.state.drives = false) :
    (∃ f, e.state = .initiator (.low f)) ∨ e.state = .initiator .ackLow ∨ e.state = .initiator .ackHigh := by
  have hx := e.onTimeout_lapses line
  generalize (e.onTimeout line).engine = d at hx h hd
  cases hx with
  | same hs => rcases hs with hs | hs <;> rw [hs] at h <;> cases h
  | quit => rw [not_carries_quit] at h; cases h
  | ended => rw [not_carries_quit] at h; cases h
  | again => cases h
  | @goes s u x hs hl _ =>
    cases u with
    | high f => rw [Initiator.of_leads_high hl] at hs; exact .inl ⟨f, hs⟩
    | ackHigh => rw [Initiator.of_leads_ackHigh hl] at hs; exact .inr (.inl hs)
    | ackVerify => rw [Initiator.of_leads_ackVerify hl] at hs; exact .inr (.inr hs)
    | freeTime => cases h
    | startHigh => cases h
    | _ => cases hd
  | answers => cases h

/-- An initiator goes on after an ACK slot only to the next block of an acknowledged frame. -/
theorem acked_of_drives (h : e.state = .initiator .ackVerify)
    (hd : (e.onTimeout line).engine.state.drives = true) : e.tx.acked = true ∧ e.tx.isLast = false := by
  have quits : ∀ d : Engine, d.quit.state.drives = false := by
    intro d
    rcases d.quit_state with ⟨hq, -⟩ | ⟨hq, -⟩ <;> rw [hq] <;> rfl
  cases ha : e.tx.acked with
  | true =>
    cases hl : e.tx.isLast with
    | true => rw [onTimeout_sent h ha hl, quits] at hd; cases hd
    | false => exact ⟨rfl, rfl⟩
  | false =>
    by_cases hr : e.tx.resends < Outgoing.maxResends
    · rw [onTimeout_resend h ha hr] at hd; cases hd
    · rw [onTimeout_failed h ha hr, quits] at hd; cases hd

theorem onCapture_framed (h : (e.onCapture t).engine.state.framed = true) :
    e.state.framed = true ∨ e.state = .follower .startHigh ∧
      (e.onCapture t).engine = { e with state := .follower (.low .headerInit) } := by
  by_cases hs : e.state = .follower .startHigh
  · rw [onCapture_startHigh hs] at h ⊢
    split at h
    · next ht => exact .inr ⟨hs, if_pos ht⟩
    · rw [not_framed_quit] at h; cases h
  · have hx := e.onCapture_hears t
    generalize (e.onCapture t).engine = d at hx h
    cases hx with
    | same => exact .inl h
    | quit => rw [not_framed_quit] at h; cases h
    | opens => cases h
    | @goes s u r hst hl =>
      rw [hst] at hs ⊢
      cases s with
      | startLow =>
        cases u with
        | startHigh | debounce => cases h
        | _ => cases hl
      | startHigh => exact absurd rfl hs
      | debounce => cases hl
      | _ => exact .inl rfl

theorem onCapture_answers (h : (e.onCapture t).engine.state.answers = true) (hn : e.state.answers = false) :
    e.state = .follower (.high .eom) := by
  have hx := e.onCapture_hears t
  generalize (e.onCapture t).engine = d at hx h
  cases hx with
  | same => rw [hn] at h; cases h
  | quit => rcases e.quit_state with ⟨hq, -⟩ | ⟨hq, -⟩ <;> rw [hq] at h <;> cases h
  | opens => cases h
  | @goes s u r hst hl =>
    cases u with
    | ackLow =>
      cases s with
      | high f => cases f <;> first | exact hst | cases hl
      | _ => cases hl
    | ackVerify =>
      cases s with
      | high f => cases f <;> cases hl
      | _ => cases hl
    | _ => cases h

end Engine

namespace Incoming

variable {r : Incoming} {x : Outgoing}

/-- A frame begins with nothing of it sent or taken in. -/
theorem Copies.of_blank (hr : r.buffer.pos = 0) (hx : x.buffer.pos = 0) : r.Copies x :=
  ⟨hr.trans hx.symm, fun p hp => absurd hp (by rw [hx]; exact Nat.not_lt_zero p)⟩

theorem Copies.advance (h : r.Copies x) (hb : r.buffer.current = x.buffer.current)
    (hlt : x.buffer.pos < BitBuffer.capacity) :
    ({ r with buffer := r.buffer.advance } : Incoming).Copies { x with buffer := x.buffer.advance } := by
  have hx := BitBuffer.pos_advance hlt
  have hr : r.buffer.advance.pos = r.buffer.pos + 1 := BitBuffer.pos_advance (by rw [h.pos]; exact hlt)
  refine ⟨by rw [hr, hx, h.pos], fun p hp => ?_⟩
  rw [BitBuffer.bitAt_advance, BitBuffer.bitAt_advance]
  by_cases hlast : p = x.buffer.pos
  · rw [hlast]
    rw [BitBuffer.current, BitBuffer.current, h.pos] at hb
    exact hb
  · exact h.bits p (by rw [hx] at hp; omega)

/-- The low part of a bit tells which bit it is, and leaves the others alone. -/
theorem Copies.noteLow (h : r.Copies x) (f : BitKind) (b : Bool) (low : Ticks) :
    (r.noteLow f b low).Copies x := by
  by_cases hf : f = .eom
  · rw [Incoming.noteLow, if_pos hf]
    exact ⟨h.pos, h.bits⟩
  · rw [Incoming.noteLow, if_neg hf]
    refine ⟨h.pos, fun p hp => ?_⟩
    rw [BitBuffer.bitAt_put, if_neg, h.bits p hp]
    rw [h.pos]
    omega

theorem Copies.byteAt (h : r.Copies x) {k : Nat} (hk : 8 * k + 8 ≤ x.buffer.pos) :
    r.buffer.byteAt k = x.buffer.byteAt k := by
  refine Byte.ofBits_congr fun j hj => h.bits _ ?_
  omega

theorem Copies.destination (h : r.Copies x) (hp : 8 ≤ x.buffer.pos) :
    r.destination = .destination x.buffer.header := by
  rw [Incoming.destination, BitBuffer.header, BitBuffer.header, h.byteAt (by omega)]

/-- At the end of a block both sides agree on whether it is the last one. -/
theorem Copies.isLast (h : r.Copies x) (he : r.eom = x.isLast) (hc : BitKind.eom.Within x.buffer.pos x.length)
    (hl : x.length ≤ Message.maxLength) : r.isLast = x.isLast := by
  unfold Incoming.isLast
  rw [he]
  cases hx : x.isLast with
  | true => rfl
  | false =>
    simp only [Outgoing.isLast, BitBuffer.atEnd, beq_eq_false_iff_ne] at hx
    simp only [BitKind.Within] at hc
    simp only [Bool.false_or, decide_eq_false_iff_not, BitBuffer.blocks, h.pos, Message.maxLength] at hl ⊢
    omega

/-- After the last block a follower has the whole frame. -/
theorem Copies.message (h : r.Copies x) (hx : x.isLast = true) : r.message = x.message := by
  have hpos : x.buffer.pos = 8 * x.length := by simpa [Outgoing.isLast, BitBuffer.atEnd] using hx
  rw [Incoming.message, BitBuffer.completed, Outgoing.message]
  have hb : r.buffer.blocks = x.length := by
    rw [BitBuffer.blocks, h.pos, hpos]
    omega
  rw [hb]
  refine List.map_congr_left fun k hk => h.byteAt ?_
  have := List.mem_range.1 hk
  omega

end Incoming

theorem Engine.Follows.low {d e : Engine} {f : BitKind} (h : d.Follows e) (hd : d.state = .follower (.low f)) :
    e.state = .initiator (.low f) := by
  unfold Engine.Follows at h
  split at h <;> simp_all

theorem Engine.Follows.of_answers {d e : Engine} (h : d.Follows e) (hd : d.state.answers = true) :
    (e.state = .initiator .ackLow ∨ e.state = .initiator .ackHigh ∨ e.state = .initiator .ackVerify) ∧
      d.rx.Copies e.tx ∧ d.rx.eom = e.tx.isLast := by
  unfold Engine.Follows at h
  split at h <;> simp_all [State.answers, Follower.answers]

theorem Engine.Follows.initiator {d e : Engine} (h : d.Follows e) :
    ∃ s, e.state = .initiator s ∧ s ≠ .freeTime := by
  unfold Engine.Follows at h
  split at h <;> simp_all

theorem Engine.Follows.of_ackFinish {d e : Engine} (h : d.Follows e) (hd : d.state = .follower .ackFinish) :
    e.state = .initiator .ackVerify := by
  unfold Engine.Follows at h
  split at h <;> simp_all

namespace Node

variable {n k : Node} {fall now : Nat}

theorem elapsed_of_le {k : Node} (h : now ≤ k.timer.start + 10000) : k.timer.elapsed now = now - k.timer.start := by
  rw [EdgeTimer.elapsed, Nat.mod_eq_of_lt]
  omega

theorem validTotal_bit (b : Bool) : (Symbol.ofBit b).ValidTotal (lowDuration b) (highDuration b) := by
  cases b <;> decide

/-! A falling edge from the initiator begins the next bit of both. -/

theorem Placed.follows_first (hn : n.Placed fall now) (hk : k.Placed fall now)
    (hd : n.timer.deadline? = some now) (hf : k.engine.Follows n.engine)
    (hs : n.engine.state = .initiator .startHigh) (line : Level) :
    k.timer.waitsFor .falling = true ∧ (k.hear now).engine.Follows (n.expire line now).engine := by
  have hnow := hn.now_of_deadline hd hs (by simp)
  have hka := hk.anchored
  have hc := (hn.sound.fit.busy _ hs).2
  simp only [Engine.Follows, hs] at hf
  obtain ⟨hst, hlow⟩ := hf
  simp only [Anchored, hst, hlow] at hka
  have hel : k.timer.elapsed now = Symbol.start.window.high := by
    simp only [Initiator.ends, Symbol.window] at hnow hka ⊢
    rw [elapsed_of_le (by lia)]
    lia
  have ht : Symbol.start.ValidTotal k.engine.rx.lowTicks (k.timer.elapsed now) := by
    rw [hel, hlow]
    decide
  rw [engine_hear, engine_expire, Engine.onTimeout_startHigh hs, Engine.onCapture_startHigh hst, if_pos ht]
  refine ⟨(hk.sound.waitsFor_of_follower hst).2 rfl, ?_⟩
  have hblank := hk.sound.fit.blank (by rw [hst]; rfl)
  simp only [Initiator.Cursor] at hc
  exact ⟨rfl, .of_blank hblank hc⟩

theorem Placed.follows_next {f : BitKind} (hn : n.Placed fall now) (hk : k.Placed fall now)
    (hd : n.timer.deadline? = some now) (hf : k.engine.Follows n.engine)
    (hs : n.engine.state = .initiator (.high f)) (line : Level) :
    k.timer.waitsFor .falling = true ∧ (k.hear now).engine.Follows (n.expire line now).engine := by
  have hnow := hn.now_of_deadline hd hs (by simp)
  have hka := hk.anchored
  obtain ⟨hp, hc⟩ := hn.sound.fit.busy _ hs
  simp only [Engine.Follows, hs] at hf
  obtain ⟨hst, hcopy, hbit, hlow⟩ := hf
  simp only [Anchored, hst, hlow] at hka
  have hel : k.timer.elapsed now = highDuration (n.engine.tx.bit f) := by
    have hsum := lowDuration_add_highDuration (n.engine.tx.bit f)
    simp only [Initiator.ends, nominalBit] at hnow hsum
    rw [elapsed_of_le (by lia)]
    lia
  have ht : (Symbol.ofBit (k.engine.rx.bit f)).ValidTotal k.engine.rx.lowTicks (k.timer.elapsed now) := by
    rw [hel, hlow, hbit]
    exact validTotal_bit _
  refine ⟨(hk.sound.waitsFor_of_follower hst).2 rfl, ?_⟩
  rw [engine_hear, engine_expire]
  by_cases hfe : f = .eom
  · subst hfe
    rw [Engine.onTimeout_high_eom hs, Engine.onCapture_high_eom hst ht]
    exact ⟨.inl rfl, hcopy, hbit⟩
  · rw [Incoming.bit, if_neg hfe] at ht hbit
    rw [Outgoing.bit, if_neg hfe] at hbit
    rw [hn.sound.fit.onTimeout_high hs hfe, Engine.onCapture_high hst hfe ht]
    have hlt := BitKind.Within.pos_lt_capacity hc hfe (Outgoing.length_pos hp) hn.sound.fit.tx.length_le
    have hcopy' := hcopy.advance hbit hlt
    have hnext : f.next k.engine.rx.buffer.advance = f.next n.engine.tx.buffer.advance := by
      have hpos : k.engine.rx.buffer.advance.pos = n.engine.tx.buffer.advance.pos := hcopy'.pos
      unfold BitKind.next BitBuffer.offset
      rw [hpos]
    exact ⟨by rw [hnext], hcopy'⟩

theorem Placed.follows_block (hn : n.Placed fall now) (hk : k.Placed fall now)
    (hd : n.timer.deadline? = some now) (hf : k.engine.Follows n.engine)
    (hs : n.engine.state = .initiator .ackVerify) (ha : n.engine.tx.acked = true)
    (hl : n.engine.tx.isLast = false) (line : Level) :
    k.timer.waitsFor .falling = true ∧ (k.hear now).engine.Follows (n.expire line now).engine := by
  have hnow : now = fall + 2400 := hn.now_of_deadline hd hs (by simp)
  simp only [Engine.Follows, hs] at hf
  obtain ⟨hst, hcopy, heom⟩ := hf
  have early : k.engine.state.answers = true → False := by
    intro h
    obtain ⟨u, hu, hle⟩ := hk.answers_deadline h
    have := hk.onTime u hu
    omega
  have hlate : k.engine.state = .follower .ackFinish := by
    rcases hst with hst | hst | hst
    · exact (early (by rw [hst]; rfl)).elim
    · exact (early (by rw [hst]; rfl)).elim
    · exact hst
  have hrl := (hcopy.isLast heom (hn.sound.fit.busy _ hs).2 hn.sound.fit.tx.length_le).trans hl
  rw [engine_hear, engine_expire, Engine.onTimeout_acked hs ha hl, Engine.onCapture_ackFinish hlate]
  exact ⟨(hk.sound.waitsFor_of_follower hlate).2 (by simp [Follower.edge?, hrl]), rfl, hcopy⟩

theorem Placed.follows_falling (hn : n.Placed fall now) (hk : k.Placed fall now)
    (hd : n.timer.deadline? = some now) (hf : k.engine.Follows n.engine) (line : Level)
    (hm : (n.expire line now).engine.state.drives = true) :
    k.timer.waitsFor .falling = true ∧ (k.hear now).engine.Follows (n.expire line now).engine := by
  obtain ⟨s, hs, hfree⟩ := hf.initiator
  rw [engine_expire] at hm
  cases s with
  | startHigh => exact hn.follows_first hk hd hf hs line
  | high f => exact hn.follows_next hk hd hf hs line
  | ackVerify =>
    obtain ⟨ha, hl⟩ := Engine.acked_of_drives hs hm
    exact hn.follows_block hk hd hf hs ha hl line
  | freeTime => exact absurd rfl hfree
  | startLow => rw [Engine.onTimeout_startLow hs] at hm; cases hm
  | low f => rw [Engine.onTimeout_low hs] at hm; cases hm
  | ackLow => rw [Engine.onTimeout_ackLow hs] at hm; cases hm
  | ackHigh => rw [Engine.onTimeout_ackHigh hs] at hm; cases hm

theorem Placed.follows_rising (hn : n.Placed fall now) (hk : k.Placed fall now)
    (hd : n.timer.deadline? = some now) (hf : k.engine.Follows n.engine)
    (hs : n.engine.state = .initiator .startLow ∨ ∃ f, n.engine.state = .initiator (.low f)) (line : Level) :
    k.timer.waitsFor .rising = true ∧ (k.hear now).engine.Follows (n.expire line now).engine := by
  rw [engine_hear, engine_expire]
  rcases hs with hs | ⟨f, hs⟩
  · have hnow : now = fall + Symbol.start.window.low := hn.now_of_deadline hd hs (by simp)
    simp only [Engine.Follows, hs] at hf
    have hw := (hk.sound.waitsFor_of_follower hf).2 (show _ = some .rising from rfl)
    have hel : k.timer.elapsed now = Symbol.start.window.low := by
      rw [(hk.elapsed hw).2]
      lia
    have ht : Symbol.start.ValidLow (k.timer.elapsed now) := by
      rw [hel]
      decide
    rw [Engine.onTimeout_startLow hs, Engine.onCapture_startLow_valid hf ht]
    exact ⟨hw, rfl, hel⟩
  · have hnow : now = fall + lowDuration (n.engine.tx.bit f) := hn.now_of_deadline hd hs (by simp)
    obtain ⟨hp, hc⟩ := hn.sound.fit.busy _ hs
    simp only [Engine.Follows, hs] at hf
    obtain ⟨hst, hcopy⟩ := hf
    have hw := (hk.sound.waitsFor_of_follower hst).2 (show _ = some .rising from rfl)
    have hel : k.timer.elapsed now = lowDuration (n.engine.tx.bit f) := by
      rw [(hk.elapsed hw).2]
      lia
    have ht : bitOfLow? (k.timer.elapsed now) = some (n.engine.tx.bit f) := by
      rw [hel]
      exact bitOfLow?_lowDuration _
    rw [Engine.onTimeout_low hs, Engine.onCapture_low hst ht]
    refine ⟨hw, rfl, hcopy.noteLow _ _ _, ?_, ?_⟩
    · refine Incoming.bit_noteLow _ _ _ _ fun hfe => ?_
      rw [hcopy.pos]
      exact BitKind.Within.pos_lt_capacity hc hfe (Outgoing.length_pos hp) hn.sound.fit.tx.length_le
    · rw [Incoming.lowTicks_noteLow]
      exact hel

/-- In the ACK slot the initiator lets go and looks at the line; its followers do not mind. -/
theorem Placed.follows_ack (hf : k.engine.Follows n.engine)
    (hs : n.engine.state = .initiator .ackLow ∨ n.engine.state = .initiator .ackHigh) (line : Level) :
    k.engine.Follows (n.expire line now).engine := by
  rw [engine_expire]
  rcases hs with hs | hs
  · rw [Engine.onTimeout_ackLow hs]
    simpa only [Engine.Follows, hs] using hf
  · simp only [Engine.Follows, hs] at hf
    obtain ⟨hst, hcopy, heom⟩ := hf
    rw [Engine.onTimeout_ackHigh hs]
    refine ⟨?_, ⟨hcopy.pos, hcopy.bits⟩, heom⟩
    rcases hst with h | h
    · exact .inl h
    · exact .inr (.inl h)

/-- Within a pulse a follower in step waits longer than its initiator. -/
theorem Placed.follows_outlasts {u : Nat} (hn : n.Placed fall now) (hk : k.Placed fall now)
    (hf : k.engine.Follows n.engine) (hs : k.engine.state.answers = false)
    (hs' : k.engine.state ≠ .follower .ackFinish) (hu : n.timer.deadline? = some u) :
    ∃ v, k.timer.deadline? = some v ∧ u < v := by
  have hka := hk.anchored
  obtain ⟨s, hst, hfree⟩ := hf.initiator
  rw [hn.initiator_deadline hst hfree, Option.some.injEq] at hu
  subst hu
  cases s with
  | freeTime => exact absurd rfl hfree
  | startLow =>
    simp only [Engine.Follows, hst] at hf
    simp only [Anchored, hf] at hka
    refine ⟨_, hk.sound.deadline?_of_follower hf (by simp), ?_⟩
    simp only [hka, Initiator.ends, Follower.span, startLowLimit, Symbol.window, tolerance]
    omega
  | startHigh =>
    simp only [Engine.Follows, hst] at hf
    simp only [Anchored, hf.1, hf.2] at hka
    refine ⟨_, hk.sound.deadline?_of_follower hf.1 (by simp), ?_⟩
    simp only [hka.1, Initiator.ends, Follower.span, startHighLimit, Symbol.window, tolerance]
    omega
  | low f =>
    simp only [Engine.Follows, hst] at hf
    simp only [Anchored, hf.1] at hka
    refine ⟨_, hk.sound.deadline?_of_follower hf.1 (by simp), ?_⟩
    have := (lowDuration_bounds (n.engine.tx.bit f)).2
    simp only [hka, Initiator.ends, Follower.span, dataLowLimit, Symbol.window, tolerance]
    lia
  | high f =>
    simp only [Engine.Follows, hst] at hf
    obtain ⟨hk', -, -, hlow⟩ := hf
    simp only [Anchored, hk', hlow] at hka
    refine ⟨_, hk.sound.deadline?_of_follower hk' (by simp), ?_⟩
    have := (lowDuration_bounds (n.engine.tx.bit f)).1
    simp only [hka.1, Initiator.ends, Follower.span, dataHighLimit, Symbol.window, tolerance, nominalBit]
    lia
  | ackLow | ackHigh =>
    simp only [Engine.Follows, hst] at hf
    rcases hf.1 with h | h <;> rw [h] at hs <;> cases hs
  | ackVerify =>
    simp only [Engine.Follows, hst] at hf
    rcases hf.1 with h | h | h
    · rw [h] at hs; cases hs
    · rw [h] at hs; cases hs
    · exact absurd h hs'

/-- A follower in step never gives up a bit before its initiator goes on. Only within the ACK slot
its own deadlines pass. -/
theorem Placed.follows_expire (hn : n.Placed fall now) (hk : k.Placed fall now)
    (hd : k.timer.deadline? = some now) (hfirst : ∀ u, n.timer.deadline? = some u → now ≤ u)
    (hf : k.engine.Follows n.engine) (line : Level) :
    (k.engine.state = .follower .ackLow ∧ now = fall + 1050 ∧
      (k.expire line now).engine.Follows n.engine) ∨
    (k.engine.state = .follower .ackVerify ∧ now = fall + 1500 ∧ n.engine.state = .initiator .ackVerify ∧
      (k.engine.rx.refused = false → (k.expire line now).engine.Follows n.engine)) ∨
    (k.engine.state = .follower .ackFinish ∧ k.engine.rx.isLast = true ∧ now = fall + 2400 ∧
      n.engine.state = .initiator .ackVerify) := by
  have ends : ∀ s : Initiator, s ≠ .freeTime → n.engine.state = .initiator s → now ≤ fall + s.ends n.engine.tx :=
    fun s hs hst => hfirst _ (hn.initiator_deadline hst hs)
  rw [engine_expire]
  by_cases hans : k.engine.state.answers = true
  · obtain ⟨hst, hcopy, heom⟩ := hf.of_answers hans
    rcases State.answers_cases hans with hs | hs
    · have hnow : now = fall + 1050 := (Option.some.inj ((hk.ackLow_deadline hs).symm.trans hd)).symm
      refine .inl ⟨hs, hnow, ?_⟩
      rw [Engine.onTimeout_follower_ackLow hs]
      rcases hst with hst | hst | hst
      · have : now ≤ fall + 600 := ends _ (by simp) hst
        omega
      · simp only [Engine.Follows, hst]
        exact ⟨.inr trivial, ⟨hcopy.pos, hcopy.bits⟩, heom⟩
      · simp only [Engine.Follows, hst]
        exact ⟨.inr (.inl trivial), ⟨hcopy.pos, hcopy.bits⟩, heom⟩
    · have hnow : now = fall + 1500 := (Option.some.inj ((hk.ackVerify_deadline hs).symm.trans hd)).symm
      have hv : n.engine.state = .initiator .ackVerify := by
        rcases hst with hst | hst | hst
        · have : now ≤ fall + 600 := ends _ (by simp) hst
          omega
        · have : now ≤ fall + 1050 := ends _ (by simp) hst
          omega
        · exact hst
      refine .inr (.inl ⟨hs, hnow, hv, fun hr => ?_⟩)
      rw [Engine.onTimeout_follower_ackVerify hs hr]
      simp only [Engine.Follows, hv]
      exact ⟨.inr (.inr trivial), ⟨hcopy.pos, hcopy.bits⟩, heom⟩
  by_cases hfin : k.engine.state = .follower .ackFinish
  · have hv := hf.of_ackFinish hfin
    have hlate : now ≤ fall + 2400 := ends _ (by simp) hv
    have hb := hn.begun
    have ha := hn.anchored
    have hka := hk.anchored
    simp only [Anchored, hv, Initiator.since, sampleTime] at ha
    simp only [Anchored, hfin, Symbol.window] at hka
    rw [hk.sound.deadline?_of_follower hfin (by simp), Option.some.injEq] at hd
    cases hl : k.engine.rx.isLast with
    | true =>
      simp only [Follower.span, hl, if_true, ackFinishLast, Symbol.window] at hd
      exact .inr (.inr ⟨hfin, rfl, by omega, hv⟩)
    | false =>
      simp only [Follower.span, hl, Bool.false_eq_true, if_false, dataHighLimit, Symbol.window, tolerance] at hd
      simp only [hl, Bool.false_eq_true, false_and, or_false] at hka
      omega
  · exfalso
    obtain ⟨s, hst, hfree⟩ := hf.initiator
    obtain ⟨v, hv, hlt⟩ := hn.follows_outlasts hk hf (Bool.eq_false_iff.2 hans) hfin
      (hn.initiator_deadline hst hfree)
    have := ends s hfree hst
    rw [hd, Option.some.injEq] at hv
    omega

end Node

theorem Engine.Follows.congr {d e d' e' : Engine} (h : d.Follows e) (hs : d'.state = d.state) (hr : d'.rx = d.rx)
    (hs' : e'.state = e.state) (ht : e'.tx = e.tx) : d'.Follows e' := by
  unfold Engine.Follows at h ⊢
  rw [hs, hr, hs', ht]
  exact h

theorem State.carries_speaks {s : State} (h : s.carries = true) : s.speaks = true := by
  cases s with
  | initiator u => cases u <;> simp_all [carries, speaks]
  | _ => cases h

theorem State.speaks_cases {s : State} (h : s.speaks = true) :
    s.carries = true ∨ s = .initiator .startLow ∨ s = .initiator .startHigh := by
  cases s with
  | initiator u => cases u <;> simp_all [carries, speaks]
  | _ => cases h

theorem State.answers_framed {s : State} (h : s.answers = true) : s.framed = true := by
  rcases State.answers_cases h with rfl | rfl <;> rfl

/-- The first byte that a follower hands over is the header that it has looked at. -/
theorem Incoming.message_eq_cons (r : Incoming) (h : r.message ≠ []) : ∃ rest, r.message = r.buffer.header :: rest := by
  unfold Incoming.message BitBuffer.completed at h ⊢
  cases hb : r.buffer.blocks with
  | zero => simp [hb] at h
  | succ k => exact ⟨_, by rw [List.range_succ_eq_map, List.map_cons]; rfl⟩

end HdmiCec
