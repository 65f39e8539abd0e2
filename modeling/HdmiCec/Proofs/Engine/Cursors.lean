import HdmiCec.Proofs.Engine.Account
import HdmiCec.Proofs.Engine.AckSlots
import HdmiCec.Proofs.Engine.Buffers
import HdmiCec.Proofs.Engine.Glitches
import HdmiCec.Proofs.Wire.Codec

/-! State and cursors of an engine agree, whatever is asked of it and whatever events it is told of. Each kind of
bit has its places, nothing overflows, and nothing is left over from one call to the next (`cursors_agree`). While
events come only where they are armed no bit is lost that a follower has measured. -/
namespace HdmiCec

namespace BitBuffer

def place (b : BitBuffer) : Nat × Nat := (b.blocks, b.offset)

theorem place_of_pos {b : BitBuffer} (h : b.pos = 0) : b.place = (0, 0) := by rw [place, blocks, offset, h]

end BitBuffer

namespace BitKind

def Place (f : BitKind) (place : Nat × Nat) : Prop :=
  match f with
  | headerInit => place.1 = 0 ∧ place.2 < 4
  | headerDest => place.1 = 0 ∧ 4 ≤ place.2 ∧ place.2 < 8
  | data => 1 ≤ place.1 ∧ place.2 < 8
  | eom => 1 ≤ place.1 ∧ place.2 = 0

/-- A frame of `n` blocks goes so far. Only behind the last block the cursor has passed all of them. -/
def Room (f : BitKind) (byte n : Nat) : Prop :=
  match f with
  | eom => byte ≤ n
  | _ => byte < n

variable {f : BitKind} {b : BitBuffer} {n : Nat}

theorem Within.place (h : f.Within b.pos n) (hn : 0 < n) : f.Place b.place ∧ f.Room b.blocks n := by
  have hplace : b.place = (b.pos / 8, b.pos % 8) := rfl
  have hblocks : b.blocks = b.pos / 8 := rfl
  rw [hplace, hblocks]
  cases f <;> simp only [Within, Place, Room] at h ⊢ <;> omega

theorem Taken.place (h : f.Taken b.pos) : f.Place b.place ∧ b.blocks ≤ 16 := by
  have hplace : b.place = (b.pos / 8, b.pos % 8) := rfl
  have hblocks : b.blocks = b.pos / 8 := rfl
  have hcapacity : BitBuffer.capacity = 128 := rfl
  rw [hplace, hblocks]
  cases f <;> simp only [Taken, hcapacity, Place] at h ⊢ <;> omega

end BitKind

namespace State

def sends? : State → Option BitKind
  | initiator (.low f) | initiator (.high f) => some f
  | initiator .ackLow | initiator .ackHigh | initiator .ackVerify => some .eom
  | _ => none

def takes? : State → Option BitKind
  | follower (.low f) | follower (.high f) => some f
  | follower .ackLow | follower .ackVerify | follower .ackFinish => some .eom
  | _ => none

theorem bit_of_takes? {s : State} {f : BitKind} (h : s.takes? = some f) (hf : f ≠ .eom) :
    s = follower (.low f) ∨ s = follower (.high f) := by
  cases s with
  | follower s =>
    cases s with
    | low g =>
      cases h
      exact .inl rfl
    | high g =>
      cases h
      exact .inr rfl
    | ackLow | ackVerify | ackFinish =>
      cases h
      exact absurd rfl hf
    | _ => cases h
  | _ => cases h

theorem framed_of_takes?_none {s : State} (h : s.takes? = none) : s.framed = false := by
  cases s with
  | follower s => cases s <;> first | rfl | cases h
  | _ => rfl

end State

theorem Initiator.Cursor.within {s : Initiator} {x : Outgoing} {f : BitKind} (h : s.Cursor x)
    (hf : (State.initiator s).sends? = some f) : f.Within x.buffer.pos x.length := by
  cases s with
  | low | high | ackLow | ackHigh | ackVerify =>
    cases hf
    exact h
  | _ => cases hf

theorem Follower.Cursor.taken {s : Follower} {r : Incoming} {f : BitKind} (h : s.Cursor r)
    (hf : (State.follower s).takes? = some f) : f.Taken r.buffer.pos := by
  cases s with
  | low | high | ackLow | ackVerify | ackFinish =>
    cases hf
    exact h
  | _ => cases hf

namespace Engine

structure Agrees (e : Engine) : Prop where
  loaded : ∀ s, e.state = .initiator s → 1 ≤ e.tx.length ∧ e.tx.length ≤ 16
  start : e.state = .initiator .startLow ∨ e.state = .initiator .startHigh → e.tx.buffer.place = (0, 0)
  sends : ∀ f, e.state.sends? = some f → f.Place e.tx.buffer.place ∧ f.Room e.tx.buffer.blocks e.tx.length
  blank : e.state.takes? = none → e.rx.buffer.place = (0, 0)
  takes : ∀ f, e.state.takes? = some f → f.Place e.rx.buffer.place ∧ e.rx.buffer.blocks ≤ 16
  resends : e.tx.resends ≤ 5
  glitches : e.rx.glitches.count ≤ 3

variable {e : Engine} {f : BitKind} {t : Ticks}

theorem Steady.agrees (h : e.Steady) (hg : e.rx.glitches.count ≤ 3) : e.Agrees where
  loaded := fun s hs => ⟨Outgoing.length_pos (h.busy s hs).1, h.tx.length_le⟩
  start := by
    rintro (hs | hs)
    · exact BitBuffer.place_of_pos (h.busy _ hs).2
    · exact BitBuffer.place_of_pos (h.busy _ hs).2
  sends := fun f hf => by
    cases hs : e.state with
    | initiator s =>
      obtain ⟨hp, hc⟩ := h.busy s hs
      exact (hc.within (hs ▸ hf)).place (Outgoing.length_pos hp)
    | _ =>
      rw [hs] at hf
      cases hf
  blank := fun hn => BitBuffer.place_of_pos (h.blank (State.framed_of_takes?_none hn))
  takes := fun f hf => by
    cases hs : e.state with
    | follower s => exact ((h.cursor s hs).taken (hs ▸ hf)).place
    | _ =>
      rw [hs] at hf
      cases hf
  resends := h.tx.resends_le
  glitches := hg

namespace Turn

def moves (t : Turn) : Bool :=
  match t.call with
  | .capture n => (t.before.edgeMove? n).isSome
  | .timeout _ => t.before.deadlineMove?.isSome
  | _ => false

/-- What is left of a completion after a call, if `w` was left before it. An event that leads somewhere hands over
what there is, and switching an engine off drops it. Anything else only adds to it. -/
def store (w : Option Completion) (t : Turn) : Option Completion :=
  if t.moves || t.enters .disabled then none else t.did.outcome <|> w

def hands (w : Option Completion) (t : Turn) : Option Completion := if t.moves then t.did.outcome <|> w else none

end Turn

def stored (ts : List Turn) : Option Completion := ts.foldl Turn.store none

/-- Only an event that leads somewhere brings about a completion. -/
theorem outcome_of_not_moves {c : Call} (h : Turn.moves ⟨e, c⟩ = false) : (e.answer c).2.outcome = none := by
  cases c with
  | setAddress a =>
    simp only [answer]
    split
    · next hr =>
      unfold setAddress at hr
      split at hr <;> cases hr
      rfl
    · rfl
  | setEnabled on => exact (setEnabled_keeps e on).1
  | submit m =>
    by_cases ha : e.Accepts m
    · rw [answer_submit ha]
    · obtain ⟨y, hy⟩ := answer_submit_refused ha
      rw [hy]
  | startSend =>
    show e.startSend.outcome = none
    unfold startSend
    split
    · exact outcome_enter e (by simp) none
    · rfl
  | send m =>
    cases hr : e.send m with
    | ok r => simp only [answer, hr, (send_keeps hr).1]
    | error y => simp only [answer, hr]
  | capture t =>
    have hnone : e.edgeMove? t = none := Option.not_isSome_iff_eq_none.1 (Bool.not_eq_true _ ▸ h)
    simp only [answer, onCapture, hnone]
  | timeout line =>
    have hnone : e.deadlineMove? = none := Option.not_isSome_iff_eq_none.1 (Bool.not_eq_true _ ▸ h)
    simp only [answer, onTimeout, hnone]

theorem store_none (t : Turn) : Turn.store none t = none := by
  unfold Turn.store
  split
  · rfl
  · next h =>
    rw [Bool.or_eq_true, not_or, Bool.not_eq_true] at h
    rw [Turn.did, outcome_of_not_moves h.1]
    rfl

theorem stored_turns (ts : List Turn) : stored ts = none := by
  induction ts with
  | nil => rfl
  | cons t rest ih =>
    rw [stored, List.foldl_cons, store_none]
    exact ih

/-- An event hands over what has come of it, and nothing older. -/
theorem completion_of_event {c : Call} (hc : c.isEvent = true) :
    (e.answer c).1 = .completion (Turn.hands none ⟨e, c⟩) := by
  have hreply : (e.answer c).1 = .completion (e.answer c).2.outcome := by
    cases c with
    | capture | timeout => rfl
    | _ => cases hc
  rw [hreply, Turn.hands]
  split
  · show Reply.completion (e.answer c).2.outcome = .completion ((e.answer c).2.outcome <|> none)
    cases (e.answer c).2.outcome <;> rfl
  · next h => rw [outcome_of_not_moves (Bool.eq_false_iff.2 h)]

/-- There is room for every bit of a byte, for a follower that knows what it has heard. -/
theorem Heard.pos_lt {heard : List Call} (h : e.Heard heard) (hf : f ≠ .eom)
    (hs : e.state = .follower (.low f) ∨ e.state = .follower (.high f)) : e.rx.buffer.pos < BitBuffer.capacity := by
  rcases hs with hs | hs
  · exact Incoming.Measures.pos (h _ hs) hf
  · obtain ⟨-, earlier, -, hm⟩ := h _ hs
    exact hm.pos hf

theorem Heard.room {heard : List Call} (h : e.Heard heard) (he : e.Agrees) (hf : e.state.takes? = some f) :
    f.Room e.rx.buffer.blocks 16 := by
  by_cases heom : f = .eom
  · rw [heom]
    exact (he.takes f hf).2
  · have hlt := h.pos_lt heom (State.bit_of_takes? hf heom)
    have hroom : e.rx.buffer.blocks < 16 := Nat.div_lt_of_lt_mul hlt
    cases f with
    | eom => exact absurd rfl heom
    | _ => exact hroom

/-- Whatever is asked of an engine and whatever events it is told of, armed or not. State, cursors and counters go
together, and an initiator has a frame that was taken and is still open. No completion is left over, so that an event
hands over none but its own. Both buffers are what the operations of the calls make of new ones, in memory too, and
no shift, place or sum overflows there. If events come only where they are armed, no block is begun that there is no
room for, and every bit that is measured is kept. -/
theorem cursors_agree (calls : List Call) :
    let e := ({} : Engine).run calls
    let ts := ({} : Engine).turns calls
    e.Agrees ∧
    (∀ s, e.state = .initiator s → pending ts = some e.tx.message ∧ e.tx.message.length = e.tx.length) ∧
    (stored ts = none ∧ ∀ c : Call, c.isEvent = true →
      (e.answer c).1 = .completion (Turn.hands (stored ts) ⟨e, c⟩)) ∧
    (BitBuffer.made (ts.flatMap Turn.sendOps) = e.tx.buffer ∧
      ∃ p, PackedBuffer.made? (ts.flatMap Turn.sendOps) = some p ∧ p.Mirrors e.tx.buffer) ∧
    (BitBuffer.made (ts.flatMap Turn.takeOps) = e.rx.buffer ∧
      ∃ p, PackedBuffer.made? (ts.flatMap Turn.takeOps) = some p ∧ p.Mirrors e.rx.buffer) ∧
    (({} : Engine).Heeds none calls →
      (∀ f, e.state.takes? = some f → f.Room e.rx.buffer.blocks 16) ∧
      (∀ f t b, e.state = .follower (.low f) → bitOfLow? t = some b →
        (e.after (.capture t)).rx.bit f = b ∧ (e.after (.capture t)).rx.buffer.taken = e.rx.buffer.taken) ∧
      ∀ f t, e.state = .follower (.high f) → f ≠ .eom →
        (Symbol.ofBit (e.rx.bit f)).ValidTotal e.rx.lowTicks t →
          (e.after (.capture t)).rx.buffer.taken = e.rx.buffer.taken ++ [e.rx.bit f]) := by
  intro e ts
  have hsteady : e.Steady := steady_run calls
  have hglitches : e.rx.glitches.count ≤ 3 := by
    rw [show e.rx.glitches.count = min (burst ts) 3 from count_run rfl calls]
    exact Nat.min_le_right _ _
  have hagrees := hsteady.agrees hglitches
  have hstored : stored ts = none := stored_turns ts
  have hops : ({} : Engine).Performs (ts.flatMap Turn.sendOps) (ts.flatMap Turn.takeOps) e := performs_run {} calls
  have hsent : BitBuffer.made (ts.flatMap Turn.sendOps) = e.tx.buffer := hops.sent.symm
  have htaken : BitBuffer.made (ts.flatMap Turn.takeOps) = e.rx.buffer := hops.taken.symm
  refine ⟨hagrees, fun s hs => ⟨?_, e.tx.length_message⟩, ⟨hstored, fun c hc => ?_⟩,
    ⟨hsent, PackedBuffer.mirrors_made hsent⟩, ⟨htaken, PackedBuffer.mirrors_made htaken⟩, fun hheeds => ?_⟩
  · rw [pending_turns, held, if_pos (hsteady.busy s hs).1]
  · rw [hstored]
    exact completion_of_event hc
  · have hheard := ((listens_new .unregistered).turns hheeds).heard
    refine ⟨fun f hf => hheard.room hagrees hf, fun f t b hs hb => ?_, fun f t hs hf ht => ?_⟩
    · obtain ⟨-, hbit, -, htaken⟩ := onCapture_bit_low hs hb fun hf => hheard.pos_lt hf (.inl hs)
      exact ⟨hbit, htaken⟩
    · exact (onCapture_bit_high hs hf ht (hheard.pos_lt hf (.inr hs))).2

/-- A frame is taken for sending while that of another comes in. -/
theorem cursors_agree_loaded :
    let zero : List Call := [.capture 1500, .capture 900]
    let calls : List Call := [Call.setEnabled true, .capture 0, .capture 3700, .send [0x45, 0x36], .capture 800] ++
      (List.replicate 9 zero).flatten ++ [Call.timeout none, .timeout none, .capture 1800, .capture 600]
    let e := ({} : Engine).run calls
    ({} : Engine).Heeds none calls ∧ e.state = .follower (.high .data) ∧ e.isSending = true ∧
      BitKind.Room .data e.rx.buffer.blocks 16 ∧
      (e.after (.capture 1800)).rx.buffer.taken = e.rx.buffer.taken ++ [true] := by
  intro zero calls
  have hheeds : ({} : Engine).Heeds none calls := by decide +kernel
  have hs : (({} : Engine).run calls).state = .follower (.high .data) := by decide +kernel
  have hbit : (({} : Engine).run calls).rx.bit .data = true := by decide +kernel
  have hlow : (({} : Engine).run calls).rx.lowTicks = 600 := by decide +kernel
  obtain ⟨-, -, -, -, -, harmed⟩ := cursors_agree calls
  obtain ⟨hroom, -, hkept⟩ := harmed hheeds
  have htaken := hkept .data 1800 hs nofun (by rw [hbit, hlow]; decide)
  rw [hbit] at htaken
  exact ⟨hheeds, hs, by decide +kernel, hroom .data (by rw [hs]; rfl), htaken⟩

/-- A follower that is told of an edge it does not wait for goes on past the last block. -/
example :
    let zero : List Call := [.capture 1500, .capture 900]
    let block : List Call := (List.replicate 9 zero).flatten ++ [Call.timeout none, .timeout none, .capture 0]
    let e := ({} : Engine).run ([Call.setEnabled true, .capture 0, .capture 3700, .capture 800] ++
      (List.replicate 16 block).flatten)
    e.state = .follower (.low .data) ∧ e.rx.buffer.place = (16, 0) := by decide +kernel

end Engine
end HdmiCec
