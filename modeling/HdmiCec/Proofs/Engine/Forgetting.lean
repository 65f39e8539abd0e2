import HdmiCec.Proofs.Engine.History

/-! What a history leaves behind. Old bits stay in the buffers of an engine, but each of them is
written anew before it is read. Engines are therefore compared by what they can still read
(`Engine.Alike`); those that are alike do the same on every call, and whatever an idle engine has
been through, all that is left of it is its address, the glitches it counted and whether it spoke
last (`history_forgotten`). -/
namespace HdmiCec

structure BitBuffer.Agree (b c : BitBuffer) (n : Nat) : Prop where
  pos : b.pos = c.pos
  bits : ∀ i < n, b.bitAt i = c.bitAt i

namespace BitBuffer

variable {b c : BitBuffer} {n : Nat}

theorem Agree.byteAt (h : b.Agree c n) {k : Nat} (hk : 8 * k + 8 ≤ n) : b.byteAt k = c.byteAt k :=
  Byte.ofBits_congr fun j hj => h.bits (8 * k + j) (by omega)

theorem Agree.header (h : b.Agree c n) (hn : 8 ≤ n) : b.header = c.header := h.byteAt (k := 0) hn

theorem Agree.current (h : b.Agree c n) (hn : c.pos < n) : b.current = c.current := by
  rw [BitBuffer.current, h.pos, h.bits _ hn]
  rfl

theorem Agree.completed (h : b.Agree c c.pos) : b.completed = c.completed := by
  rw [BitBuffer.completed, BitBuffer.completed, blocks, blocks, h.pos]
  refine List.map_congr_left fun k hk => h.byteAt ?_
  rw [List.mem_range] at hk
  omega

theorem Agree.rewind (h : b.Agree c n) : b.rewind.Agree c.rewind n := ⟨rfl, h.bits⟩

theorem Agree.put (h : b.Agree c n) (v : Bool) : (b.put v).Agree (c.put v) n where
  pos := h.pos
  bits := fun i hi => by rw [bitAt_put, bitAt_put, h.pos, h.bits i hi]

/-- What was put is what is there, wherever there is room. -/
theorem current_put (hp : b.pos = c.pos) (v : Bool) : (b.put v).current = (c.put v).current := by
  show (b.put v).bitAt b.pos = (c.put v).bitAt c.pos
  rw [bitAt_put, bitAt_put, hp]
  by_cases hc : c.pos < capacity
  · rw [if_pos ⟨rfl, hc⟩, if_pos ⟨rfl, hc⟩]
  · have hout : ∀ x : BitBuffer, x.bitAt c.pos = false := fun x => dif_neg hc
    rw [hout, hout]

/-- The bit under the cursor counts once the cursor has passed it. -/
theorem Agree.advance (h : b.Agree c c.pos) (hb : b.current = c.current) :
    b.advance.Agree c.advance c.advance.pos where
  pos := by simp only [BitBuffer.advance, h.pos]
  bits := fun i hi => by
    rw [bitAt_advance, bitAt_advance]
    by_cases hlast : i = c.pos
    · subst hlast
      rw [← h.pos]
      simpa only [BitBuffer.current, h.pos] using hb
    · simp only [BitBuffer.advance] at hi
      exact h.bits i (by omega)

theorem agree_load (b c : BitBuffer) {m : Message} (hm : m.length ≤ Message.maxLength) :
    (b.load m).Agree (c.load m) (8 * m.length) where
  pos := rfl
  bits := fun i hi => by
    have hk : i / 8 < m.length := by omega
    have hc : i < capacity := by
      simp only [capacity]
      omega
    rw [bitAt_load _ _ hc, bitAt_load _ _ hc, List.getElem?_eq_getElem hk]

end BitBuffer

theorem BitKind.next_congr {f : BitKind} {b c : BitBuffer} (h : b.pos = c.pos) : f.next b = f.next c := by
  have hoff : b.offset = c.offset := congrArg (· % 8) h
  unfold next
  rw [hoff]

theorem Outgoing.next_congr {x y : Outgoing} (f : BitKind) (h : x.buffer.pos = y.buffer.pos) : x.next f = y.next f := by
  have hoff : x.buffer.offset = y.buffer.offset := congrArg (· % 8) h
  have hblocks : x.buffer.blocks = y.buffer.blocks := congrArg (· / 8) h
  unfold next
  rw [hoff, hblocks]

structure Incoming.Alike (r q : Incoming) : Prop where
  buffer : r.buffer.Agree q.buffer q.buffer.pos
  eom : r.eom = q.eom
  refused : r.refused = q.refused
  lowTicks : r.lowTicks = q.lowTicks
  glitches : r.glitches = q.glitches

structure Outgoing.Alike (x y : Outgoing) : Prop where
  buffer : x.buffer.Agree y.buffer (8 * y.length)
  length : x.length = y.length
  resends : x.resends = y.resends
  acked : x.acked = y.acked
  presentInitiator : x.presentInitiator = y.presentInitiator

namespace Incoming

variable {r q : Incoming}

theorem Alike.restart (h : r.Alike q) : r.restart.Alike q.restart where
  buffer := ⟨rfl, fun _ hi => absurd hi (Nat.not_lt_zero _)⟩
  eom := rfl
  refused := rfl
  lowTicks := rfl
  glitches := h.glitches

theorem Alike.destination (h : r.Alike q) (hq : 8 ≤ q.buffer.pos) : r.destination = q.destination := by
  rw [Incoming.destination, Incoming.destination, h.buffer.header hq]

theorem Alike.message (h : r.Alike q) : r.message = q.message := h.buffer.completed

theorem Alike.isLast (h : r.Alike q) : r.isLast = q.isLast := by
  rw [Incoming.isLast, Incoming.isLast, h.eom, BitBuffer.blocks, BitBuffer.blocks, h.buffer.pos]

theorem Alike.noteLow (h : r.Alike q) (f : BitKind) (b : Bool) (t : Ticks) :
    (r.noteLow f b t).Alike (q.noteLow f b t) ∧ (r.noteLow f b t).bit f = (q.noteLow f b t).bit f := by
  by_cases hf : f = .eom
  · simp only [Incoming.noteLow, Incoming.bit, if_pos hf]
    exact ⟨⟨h.buffer, rfl, h.refused, rfl, h.glitches⟩, trivial⟩
  · simp only [Incoming.noteLow, Incoming.bit, if_neg hf]
    exact ⟨⟨h.buffer.put b, h.eom, h.refused, rfl, h.glitches⟩, BitBuffer.current_put h.buffer.pos b⟩

theorem Alike.endBit (h : r.Alike q) {f : BitKind} (hb : r.bit f = q.bit f) :
    (r.endBit f).1.Alike (q.endBit f).1 ∧ (r.endBit f).2 = (q.endBit f).2 := by
  by_cases hf : f = .eom
  · simp only [Incoming.endBit, if_pos hf]
    exact ⟨h, trivial⟩
  · simp only [Incoming.bit, if_neg hf] at hb
    have hnext := h.buffer.advance hb
    simp only [Incoming.endBit, if_neg hf, BitKind.next_congr hnext.pos]
    exact ⟨⟨hnext, h.eom, h.refused, h.lowTicks, h.glitches⟩, trivial⟩

end Incoming

namespace Outgoing

variable {x y : Outgoing}

theorem Alike.isPending (h : x.Alike y) : x.isPending = y.isPending := by
  rw [Outgoing.isPending, Outgoing.isPending, h.length]

theorem Alike.isBroadcast (h : x.Alike y) (hy : 0 < y.length) : x.isBroadcast = y.isBroadcast := by
  rw [Outgoing.isBroadcast, Outgoing.isBroadcast, h.buffer.header (by omega)]

theorem Alike.isLast (h : x.Alike y) : x.isLast = y.isLast := by
  rw [Outgoing.isLast, Outgoing.isLast, BitBuffer.atEnd, BitBuffer.atEnd, h.buffer.pos, h.length]

theorem Alike.freeTime (h : x.Alike y) : x.freeTime = y.freeTime := by
  rw [Outgoing.freeTime, Outgoing.freeTime, h.resends, h.presentInitiator]

theorem Alike.rewind (h : x.Alike y) : x.rewind.Alike y.rewind :=
  ⟨h.buffer.rewind, h.length, h.resends, h.acked, h.presentInitiator⟩

theorem Alike.finish (h : x.Alike y) : x.finish.Alike y.finish where
  buffer := ⟨h.buffer.pos, fun _ hi => absurd hi (Nat.not_lt_zero _)⟩
  length := rfl
  resends := rfl
  acked := rfl
  presentInitiator := h.presentInitiator

theorem Alike.advance (h : x.Alike y) :
    ({ x with buffer := x.buffer.advance } : Outgoing).Alike { y with buffer := y.buffer.advance } where
  buffer := ⟨congrArg (fun n => min (n + 1) BitBuffer.capacity) h.buffer.pos, h.buffer.bits⟩
  length := h.length
  resends := h.resends
  acked := h.acked
  presentInitiator := h.presentInitiator

theorem Alike.load (h : x.Alike y) {m : Message} (hm : m.Legal) :
    ({ x with buffer := x.buffer.load m, length := m.length } : Outgoing).Alike
      { y with buffer := y.buffer.load m, length := m.length } where
  buffer := BitBuffer.agree_load _ _ hm.2
  length := rfl
  resends := h.resends
  acked := h.acked
  presentInitiator := h.presentInitiator

end Outgoing

theorem Outgoing.Alike.refused {x y : Outgoing} (h : x.Alike y) : Option.Rel Outgoing.Alike x.refused? y.refused? := by
  have hr := h.resends
  by_cases hlt : y.resends < maxResends
  · rw [Outgoing.refused?, Outgoing.refused?, if_pos (by omega), if_pos hlt]
    exact .some ⟨h.buffer, h.length, congrArg (· + 1) hr, h.acked, h.presentInitiator⟩
  · rw [Outgoing.refused?, Outgoing.refused?, if_neg (by omega), if_neg hlt]
    exact .none

/-- On a deadline alike frames lead an initiator to the same state. -/
theorem Outgoing.Alike.onDeadline {x y : Outgoing} (h : x.Alike y) (s : Initiator) :
    Option.Rel (fun p q => p.1.Alike q.1 ∧ p.2 = q.2) (x.onDeadline s) (y.onDeadline s) := by
  cases s with
  | high f =>
    have hnext := Outgoing.next_congr f h.advance.buffer.pos
    cases f with
    | eom => exact .some ⟨h, rfl⟩
    | _ => exact .some ⟨h.advance, congrArg Initiator.low hnext⟩
  | ackVerify => exact .none
  | _ => exact .some ⟨h, rfl⟩

/-- On an edge alike frames lead a follower to the same state, where it knows the bit it measures. -/
theorem Incoming.Alike.onEdge {r q : Incoming} (h : r.Alike q) {s : Follower} (t : Ticks)
    (hb : ∀ f, s = .high f → r.bit f = q.bit f) :
    Option.Rel (fun v w => v.1.Alike w.1 ∧ v.2 = w.2 ∧ ∀ f, w.2 = .follower (.high f) → v.1.bit f = w.1.bit f)
      (r.onEdge s t) (q.onEdge s t) := by
  cases s with
  | startLow =>
    simp only [Incoming.onEdge]
    cases StartPulse.ofLow t with
    | valid => exact .some ⟨⟨h.buffer, h.eom, h.refused, rfl, h.glitches⟩, rfl, by simp⟩
    | glitch | invalid => exact .some ⟨h, rfl, by simp⟩
  | startHigh =>
    simp only [Incoming.onEdge, h.lowTicks]
    split <;> exact .some ⟨h, rfl, by simp⟩
  | low f =>
    simp only [Incoming.onEdge]
    cases bitOfLow? t with
    | none => exact .some ⟨h, rfl, by simp⟩
    | some b =>
      obtain ⟨hr, hbit⟩ := h.noteLow f b t
      refine .some ⟨hr, rfl, fun g hg => ?_⟩
      cases hg
      exact hbit
  | high f =>
    obtain ⟨hr, hn⟩ := h.endBit (hb f rfl)
    simp only [Incoming.onEdge, hb f rfl, h.lowTicks]
    split
    · refine .some ⟨hr, congrArg State.follower hn, fun g hg => ?_⟩
      by_cases hf : f = .eom <;> simp [Incoming.endBit, hf] at hg
    · exact .some ⟨h, rfl, by simp⟩
  | ackLow | ackFinish => exact .some ⟨h, rfl, by simp⟩
  | debounce | ackVerify => exact .none

namespace Engine

/-- All that matters of an engine that is in the state `s` or about to enter it. -/
structure Alike (d e : Engine) (s : State) : Prop where
  rx : d.rx.Alike e.rx
  tx : d.tx.Alike e.tx
  address : d.address = e.address
  /-- The bit that is being measured is under the cursor still. -/
  bit : ∀ f, s = .follower (.high f) → d.rx.bit f = e.rx.bit f

end Engine

structure Entry.Alike (p q : Entry) (s : State) : Prop where
  engine : p.engine.Alike q.engine s
  level : p.level = q.level
  wait : p.wait = q.wait
  notices : p.notices = q.notices
  outcome : p.outcome = q.outcome

structure Move.Alike (m k : Move) : Prop where
  engine : m.engine.Alike k.engine k.next
  next : m.next = k.next
  notices : m.notices = k.notices
  outcome : m.outcome = k.outcome

structure Reaction.Alike (p q : Reaction) : Prop where
  state : p.engine.state = q.engine.state
  engine : p.engine.Alike q.engine q.engine.state
  actions : p.actions = q.actions
  notices : p.notices = q.notices
  outcome : p.outcome = q.outcome

namespace Engine

variable {d e : Engine} {line : Reading}

theorem Alike.isSending {s : State} (h : d.Alike e s) : d.isSending = e.isSending := h.tx.isPending

theorem Alike.other {s u : State} (h : d.Alike e s) (hu : ∀ f, u ≠ .follower (.high f)) : d.Alike e u :=
  ⟨h.rx, h.tx, h.address, fun f hf => absurd hf (hu f)⟩

theorem Alike.initiatorEntry {s : Initiator} (h : d.Alike e (.initiator s)) (hs : e.state = .initiator s)
    (hx : (e.initiatorEntry s line).engine.Steady) :
    (d.initiatorEntry s line).Alike (e.initiatorEntry s line) (.initiator s) := by
  have hbusy := hx.busy s ((state_initiatorEntry e s line).trans hs)
  have hdata : ∀ f, (s = .low f ∨ s = .high f) → f ≠ .eom → d.tx.buffer.current = e.tx.buffer.current := by
    intro f hsf hf
    refine h.tx.buffer.current ?_
    have hlen : ∀ x : Outgoing, x.isPending = true → f.Within x.buffer.pos x.length → x.buffer.pos < 8 * x.length :=
      fun x hp hw => hw.pos_lt hf (Outgoing.length_pos hp)
    rcases hsf with rfl | rfl <;> cases f <;>
      first | exact absurd rfl hf | exact hlen e.tx hbusy.1 hbusy.2
  cases s with
  | freeTime =>
    refine ⟨h, rfl, ?_, rfl, rfl⟩
    show some (Wait.within _ d.tx.freeTime.ticks) = some (Wait.within _ e.tx.freeTime.ticks)
    rw [h.tx.freeTime]
  | startLow =>
    have hy := h.tx.rewind
    exact ⟨⟨h.rx, ⟨hy.buffer, hy.length, hy.resends, hy.acked, rfl⟩, h.address, h.bit⟩, rfl, rfl, rfl, rfl⟩
  | low f =>
    cases f with
    | eom => exact ⟨h, rfl, by simp only [Engine.initiatorEntry, h.tx.isLast], rfl, rfl⟩
    | _ => exact ⟨h, rfl, by simp only [Engine.initiatorEntry, hdata _ (.inl rfl) (by decide)], rfl, rfl⟩
  | high f =>
    cases f with
    | eom => exact ⟨h, rfl, by simp only [Engine.initiatorEntry, h.tx.isLast], rfl, rfl⟩
    | _ => exact ⟨h, rfl, by simp only [Engine.initiatorEntry, hdata _ (.inr rfl) (by decide)], rfl, rfl⟩
  | ackVerify =>
    have hb := h.tx.isBroadcast (Outgoing.length_pos hbusy.1)
    refine ⟨⟨h.rx, ⟨h.tx.buffer, h.tx.length, h.tx.resends, ?_, h.tx.presentInitiator⟩, h.address, h.bit⟩,
      rfl, rfl, rfl, rfl⟩
    simp only [Engine.initiatorEntry, hb]
  | startHigh | ackLow | ackHigh => exact ⟨h, rfl, rfl, rfl, rfl⟩

theorem Alike.followerEntry {s : Follower} (h : d.Alike e (.follower s)) (hs : e.state = .follower s)
    (hx : (e.followerEntry s line).engine.Steady) :
    (d.followerEntry s line).Alike (e.followerEntry s line) (.follower s) := by
  have hcursor := hx.cursor s ((state_followerEntry e s line).trans hs)
  cases s with
  | startLow =>
    exact ⟨⟨h.rx, ⟨h.tx.buffer, h.tx.length, h.tx.resends, h.tx.acked, rfl⟩, h.address, h.bit⟩, rfl, rfl, rfl, rfl⟩
  | startHigh =>
    exact ⟨⟨⟨h.rx.buffer, h.rx.eom, h.rx.refused, h.rx.lowTicks, rfl⟩, h.tx, h.address, by simp⟩,
      rfl, rfl, rfl, rfl⟩
  | debounce =>
    have hg := h.rx.glitches
    refine ⟨⟨⟨h.rx.buffer, h.rx.eom, h.rx.refused, h.rx.lowTicks, ?_⟩, h.tx, h.address, by simp⟩, rfl, ?_, rfl, rfl⟩
    · simp only [Engine.followerEntry, hg]
    · simp only [Engine.followerEntry, hg]
  | low f | high f => exact ⟨h, rfl, rfl, rfl, rfl⟩
  | ackLow =>
    refine ⟨h, ?_, rfl, rfl, rfl⟩
    simp only [Engine.followerEntry, h.rx.destination hcursor.2.1, h.address]
  | ackVerify =>
    have hd := h.rx.destination hcursor.2.1
    refine ⟨⟨⟨h.rx.buffer, h.rx.eom, ?_, h.rx.lowTicks, h.rx.glitches⟩, h.tx, h.address, by simp⟩, rfl, rfl, rfl, rfl⟩
    simp only [Engine.followerEntry, hd]
  | ackFinish =>
    rw [engine_ackFinish] at hcursor
    have hd := h.rx.destination hcursor.2.1
    have hheard : d.hears d.rx.destination = e.hears e.rx.destination := by
      rw [hears, hears, hd, h.address]
    simp only [Engine.followerEntry, h.rx.isLast, hheard, h.rx.message]
    split
    · exact ⟨h, rfl, rfl, rfl, rfl⟩
    · split <;> exact ⟨h, rfl, rfl, rfl, rfl⟩

theorem Alike.entry {s : State} (h : d.Alike e s) (hs : e.state = s) (hx : (e.entry s line).engine.Steady) :
    (d.entry s line).Alike (e.entry s line) s := by
  cases s with
  | disabled =>
    have hblank : ∀ b : BitBuffer, ∀ n, b.Agree b n := fun b n => ⟨rfl, fun _ _ => rfl⟩
    exact ⟨⟨⟨hblank _ _, rfl, rfl, rfl, rfl⟩, ⟨hblank _ _, rfl, rfl, rfl, rfl⟩, h.address, by simp⟩, rfl, rfl, rfl, rfl⟩
  | idle => exact ⟨h, rfl, rfl, rfl, rfl⟩
  | initiator s => exact h.initiatorEntry hs hx
  | follower s => exact h.followerEntry hs hx

theorem Alike.rest {s : State} (h : d.Alike e s) (hs : ∀ f, s ≠ .follower (.high f)) : d.rest.Alike e.rest s :=
  ⟨h.rx.restart, h.tx.rewind, h.address, fun f hf => absurd hf (hs f)⟩

/-- Entering a state, engines that are alike up to what they can read there do the same. -/
theorem Alike.enter {s : State} (h : d.Alike e s) (line : Reading) (hx : (e.enter s line).engine.Steady) :
    (d.enter s line).Alike (e.enter s line) := by
  have htarget : d.target s = e.target s := by rw [target, target, h.isSending]
  have hrest : (if s = .idle then d.rest else d).Alike (if s = .idle then e.rest else e) (e.target s) := by
    by_cases hs : s = .idle
    · subst hs
      rw [if_pos rfl, if_pos rfl]
      refine (h.rest (by simp)).other fun f => ?_
      rw [target_idle]
      split <;> simp
    · rw [if_neg hs, if_neg hs, target_of_ne_idle e hs]
      exact h
  have hstate : (d.enter s line).engine.state = (e.enter s line).engine.state := by
    rw [state_enter, state_enter, htarget]
  have hnow := state_enter e s line
  simp only [Engine.enter, htarget] at hx hstate hnow ⊢
  generalize (if s = .idle then d.rest else d) = d' at *
  generalize (if s = .idle then e.rest else e) = e' at *
  have hset : ({ d' with state := e.target s } : Engine).Alike { e' with state := e.target s } (e.target s) :=
    ⟨hrest.rx, hrest.tx, hrest.address, hrest.bit⟩
  have hentry := hset.entry rfl hx
  refine ⟨hstate, ?_, ?_, ?_, hentry.outcome⟩
  · rw [hnow]
    exact hentry.engine
  · show Entry.actions _ = Entry.actions _
    rw [Entry.actions, Entry.actions, hentry.level, hentry.wait]
  · exact congrArg (_ :: ·) hentry.notices

theorem perform_alike {m k : Move} (h : m.Alike k) (hx : (perform k line).engine.Steady) :
    (perform m line).Alike (perform k line) := by
  have hr : (m.engine.enter m.next line).Alike (k.engine.enter k.next line) := by
    rw [h.next]
    exact h.engine.enter line hx
  refine ⟨hr.state, hr.engine, hr.actions, ?_, ?_⟩
  · show m.notices ++ _ = k.notices ++ _
    rw [h.notices, hr.notices]
  · show (m.outcome <|> _) = (k.outcome <|> _)
    rw [h.outcome, hr.outcome]

theorem Alike.withTx {s u : State} (h : d.Alike e s) {x y : Outgoing} (hx : x.Alike y)
    (hu : ∀ f, u ≠ .follower (.high f)) : ({ d with tx := x } : Engine).Alike { e with tx := y } u :=
  ⟨h.rx, hx, h.address, fun f hf => absurd hf (hu f)⟩

theorem Alike.judgeAck {s : State} (h : d.Alike e s) : d.judgeAck.Alike e.judgeAck := by
  have hr := h.tx.refused
  simp only [Engine.judgeAck, h.tx.acked, h.tx.isLast]
  cases e.tx.acked with
  | true =>
    cases e.tx.isLast with
    | true => exact ⟨h.withTx h.tx.finish (by simp), rfl, rfl, rfl⟩
    | false => exact ⟨h.other (by simp), rfl, rfl, rfl⟩
  | false =>
    generalize d.tx.refused? = v, e.tx.refused? = w at hr
    cases hr with
    | none => exact ⟨h.withTx h.tx.finish (by simp), rfl, rfl, rfl⟩
    | some hx => exact ⟨h.withTx hx (by simp), rfl, congrArg (fun n => [Notice.resend n]) hx.resends, rfl⟩

theorem Alike.deadlineMove (hs : d.state = e.state) (h : d.Alike e e.state) :
    Option.Rel Move.Alike d.deadlineMove? e.deadlineMove? := by
  obtain ⟨s, r, x, a⟩ := d
  obtain ⟨_, q, y, b⟩ := e
  cases hs
  have stays : ∀ (n : State) (l : List Notice), (∀ f, n ≠ .follower (.high f)) → Option.Rel Move.Alike
      (some { engine := ⟨s, r, x, a⟩, next := n, notices := l }) (some { engine := ⟨s, q, y, b⟩, next := n, notices := l }) :=
    fun n l hn => .some ⟨h.other hn, rfl, rfl, rfl⟩
  cases s with
  | disabled | idle => exact .none
  | initiator s =>
    have hx := h.tx.onDeadline s
    simp only [deadlineMove?] at hx ⊢
    generalize x.onDeadline s = p, y.onDeadline s = k at hx
    cases hx with
    | none => exact .some h.judgeAck
    | some hx => exact .some ⟨h.withTx hx.1 (by simp), congrArg State.initiator hx.2, rfl, rfl⟩
  | follower s =>
    cases s with
    | ackVerify =>
      have hr : r.refused = q.refused := h.rx.refused
      simp only [deadlineMove?, hr]
      cases q.refused with
      | true => exact stays .idle [.broadcastRefused] (by simp)
      | false => exact stays (.follower .ackFinish) [] (by simp)
    | ackLow => exact stays (.follower .ackVerify) [] (by simp)
    | _ => exact stays .idle [] (by simp)

theorem Alike.edgeMove (hs : d.state = e.state) (h : d.Alike e e.state) (t : Ticks) :
    Option.Rel Move.Alike (d.edgeMove? t) (e.edgeMove? t) := by
  obtain ⟨s, r, x, a⟩ := d
  obtain ⟨_, q, y, b⟩ := e
  cases hs
  cases s with
  | disabled => exact .none
  | idle => exact .some ⟨h.other (by simp), rfl, rfl, rfl⟩
  | initiator s =>
    have hyield := h.withTx (u := .follower .startLow) h.tx.rewind (by simp)
    cases s with
    | freeTime | startHigh => exact .some ⟨hyield, rfl, rfl, rfl⟩
    | high f =>
      cases f with
      | headerInit => exact .some ⟨hyield, rfl, rfl, rfl⟩
      | _ => exact .none
    | _ => exact .none
  | follower s =>
    have hr := h.rx.onEdge (s := s) t fun f hf => h.bit f (congrArg State.follower hf)
    simp only [edgeMove?] at hr ⊢
    generalize r.onEdge s t = v, q.onEdge s t = w at hr
    cases hr with
    | none => exact .none
    | some hr => exact .some ⟨⟨hr.1, h.tx, h.address, hr.2.2⟩, hr.2.1, rfl, rfl⟩

theorem Alike.onTimeout (hs : d.state = e.state) (h : d.Alike e e.state) (hx : (e.onTimeout line).engine.Steady) :
    (d.onTimeout line).Alike (e.onTimeout line) := by
  have hm := h.deadlineMove hs
  simp only [Engine.onTimeout] at hx ⊢
  generalize d.deadlineMove? = dm, e.deadlineMove? = em at hm hx ⊢
  cases hm with
  | none => exact ⟨hs, h, rfl, rfl, rfl⟩
  | some hm => exact perform_alike hm hx

theorem Alike.onCapture (hs : d.state = e.state) (h : d.Alike e e.state) {t : Ticks}
    (hx : (e.onCapture t).engine.Steady) : (d.onCapture t).Alike (e.onCapture t) := by
  have hm := h.edgeMove hs t
  simp only [Engine.onCapture] at hx ⊢
  generalize d.edgeMove? t = dm, e.edgeMove? t = em at hm hx ⊢
  cases hm with
  | none => exact ⟨hs, h, rfl, rfl, rfl⟩
  | some hm => exact perform_alike hm hx

theorem Alike.isEnabled (hs : d.state = e.state) : d.isEnabled = e.isEnabled := by
  rw [Engine.isEnabled, Engine.isEnabled, hs]

theorem Alike.setEnabled (hs : d.state = e.state) (h : d.Alike e e.state) {on : Bool}
    (hx : (e.setEnabled on).engine.Steady) : (d.setEnabled on).Alike (e.setEnabled on) := by
  have hon := Alike.isEnabled hs
  unfold Engine.setEnabled at hx ⊢
  rw [hon]
  split at hx
  · next hsame =>
    rw [if_pos hsame, if_pos hsame]
    exact ⟨hs, h, rfl, rfl, rfl⟩
  · next hsame =>
    rw [if_neg hsame, if_neg hsame]
    split at hx
    · next ht =>
      rw [if_pos ht, if_pos ht]
      have hr := (h.other (u := .idle) (by simp)).enter none hx
      exact ⟨hr.state, hr.engine, hr.actions, congrArg (· ++ _) hr.notices, hr.outcome⟩
    · next ht =>
      rw [if_neg ht, if_neg ht]
      have hr := (h.other (u := .disabled) (by simp)).enter none hx
      exact ⟨hr.state, hr.engine, congrArg (_ :: ·) hr.actions, congrArg (· ++ _) hr.notices, hr.outcome⟩

theorem Alike.submit (hs : d.state = e.state) (h : d.Alike e e.state) (m : Message) :
    (d.Accepts m ∧ e.Accepts m) ∨ ∃ x, d.submit m = .error x ∧ e.submit m = .error x := by
  have hon := Alike.isEnabled hs
  have hp := h.tx.isPending
  by_cases h1 : e.isEnabled = true
  · by_cases h2 : m.Legal
    · cases h3 : e.tx.isPending with
      | true => exact .inr ⟨.busy, by simp [Engine.submit, Outgoing.load, hon, hp, h1, h2, h3]⟩
      | false => exact .inl ⟨⟨hon.trans h1, h2, hp.trans h3⟩, h1, h2, h3⟩
    · exact .inr ⟨.invalidLength, by simp [Engine.submit, Outgoing.load, hon, h1, h2]⟩
  · exact .inr ⟨.disabled, by simp [Engine.submit, hon, h1]⟩

theorem Alike.load {s : State} (h : d.Alike e s) {m : Message} (hm : m.Legal) : (d.load m).Alike (e.load m) s where
  rx := by
    rw [load_rx, load_rx]
    exact h.rx
  tx := by
    rw [load_tx, load_tx]
    exact h.tx.load hm
  address := by
    rw [load_address, load_address]
    exact h.address
  bit := by
    rw [load_rx, load_rx]
    exact h.bit

theorem Alike.startSend (hs : d.state = e.state) (h : d.Alike e e.state) (hx : e.startSend.engine.Steady) :
    d.startSend.Alike e.startSend := by
  unfold Engine.startSend at hx ⊢
  rw [hs, h.isSending]
  split at hx
  · next hi =>
    rw [if_pos hi, if_pos hi]
    exact (h.other (by simp)).enter none hx
  · next hi =>
    rw [if_neg hi, if_neg hi]
    exact ⟨hs, h, rfl, rfl, rfl⟩

theorem Alike.answer (hs : d.state = e.state) (h : d.Alike e e.state) {c : Call} (hx : (e.after c).Steady) :
    (d.answer c).1 = (e.answer c).1 ∧ (d.answer c).2.Alike (e.answer c).2 := by
  have stays : Reaction.Alike { engine := d } { engine := e } := ⟨hs, h, rfl, rfl, rfl⟩
  cases c with
  | setAddress a =>
    by_cases ha : a.Assignable
    · simp only [Engine.answer, Engine.setAddress, if_pos ha]
      exact ⟨trivial, hs, ⟨h.rx, h.tx, rfl, h.bit⟩, rfl, rfl, rfl⟩
    · simp only [Engine.answer, Engine.setAddress, if_neg ha]
      exact ⟨trivial, stays⟩
  | setEnabled on => exact ⟨rfl, h.setEnabled hs hx⟩
  | submit m =>
    rcases h.submit hs m with ⟨hd, he⟩ | ⟨x, hd, he⟩
    · rw [answer_submit hd, answer_submit he]
      have hload := h.load (m := m) he.2.1
      refine ⟨rfl, ?_, ?_, rfl, rfl, rfl⟩
      · rw [load_state, load_state]
        exact hs
      · rw [load_state]
        exact hload
    · simp only [Engine.answer, hd, he]
      exact ⟨trivial, stays⟩
  | startSend => exact ⟨rfl, h.startSend hs hx⟩
  | send m =>
    rcases h.submit hs m with ⟨hd, he⟩ | ⟨x, hd, he⟩
    · rw [Engine.after, answer_send he] at hx
      rw [answer_send hd, answer_send he]
      have hload := h.load (m := m) he.2.1
      rw [← e.load_state m] at hload
      have hr := hload.startSend (by rw [load_state, load_state, hs]) hx
      exact ⟨rfl, hr.state, hr.engine, hr.actions, congrArg (_ :: ·) hr.notices, hr.outcome⟩
    · simp only [Engine.answer, Engine.send, hd, he]
      exact ⟨trivial, stays⟩
  | capture t =>
    have hr := h.onCapture hs hx
    exact ⟨congrArg Reply.completion hr.outcome, hr⟩
  | timeout line =>
    have hr := h.onTimeout hs hx
    exact ⟨congrArg Reply.completion hr.outcome, hr⟩

/-- All that can be seen of a turn: what the caller gets back, the state that the engine is in, what
it does to the line and its timer, and what it tells of itself. -/
def Turn.seen (t : Turn) : Reply × State × List LineAction × List Notice :=
  (t.reply, t.after.state, t.did.actions, t.did.notices)

theorem Alike.turns (hs : d.state = e.state) (h : d.Alike e e.state) (he : e.Steady) (calls : List Call) :
    (d.turns calls).map Turn.seen = (e.turns calls).map Turn.seen := by
  induction calls generalizing d e with
  | nil => rfl
  | cons c rest ih =>
    obtain ⟨hreply, hr⟩ := h.answer hs (he.after c)
    have hseen : Turn.seen ⟨d, c⟩ = Turn.seen ⟨e, c⟩ := by
      simp only [Turn.seen, Turn.reply, Turn.after, Turn.did, Engine.after, hreply, hr.state, hr.actions, hr.notices]
    rw [Engine.turns, Engine.turns, List.map_cons, List.map_cons, hseen]
    exact congrArg (_ :: ·) (ih hr.state hr.engine (he.after c))

/-- An engine that waits has nothing of old frames but their bits, and neither has one without a
frame to send. -/
structure Wiped (e : Engine) : Prop where
  rx : e.state = .idle ∨ e.state = .disabled → e.rx.restart = e.rx
  tx : e.isSending = false → e.tx.rewind.finish = e.tx

theorem Wiped.alike (hd : d.Wiped) (he : e.Wiped) (hs : d.state = e.state) (hrest : e.state = .idle ∨ e.state = .disabled)
    (hdp : d.isSending = false) (hep : e.isSending = false) (haddress : d.address = e.address)
    (hglitches : d.rx.glitches = e.rx.glitches) (hspoke : d.tx.presentInitiator = e.tx.presentInitiator) :
    d.Alike e e.state where
  rx := by
    rw [← hd.rx (by rw [hs]; exact hrest), ← he.rx hrest]
    exact ⟨⟨rfl, fun _ hi => absurd hi (Nat.not_lt_zero _)⟩, rfl, rfl, rfl, hglitches⟩
  tx := by
    rw [← hd.tx hdp, ← he.tx hep]
    exact ⟨⟨rfl, fun _ hi => absurd hi (Nat.not_lt_zero _)⟩, rfl, rfl, rfl, hspoke⟩
  address := haddress
  bit := fun f hf => by
    rw [hf] at hrest
    rcases hrest with h | h <;> cases h

theorem wiped_quit (h : e.isSending = false → e.tx.rewind.finish = e.tx) : e.quit.Wiped where
  rx := fun _ => rfl
  tx := fun hp => congrArg Outgoing.rewind (h hp)

theorem wiped_switchedOff (e : Engine) : e.switchedOff.Wiped := ⟨fun _ => rfl, fun _ => rfl⟩

theorem Wiped.onTimeout (h : e.Wiped) (he : e.Steady) (line : Reading) : (e.onTimeout line).engine.Wiped := by
  have hx := e.onTimeout_lapses line
  generalize (e.onTimeout line).engine = d at hx
  cases hx with
  | same => exact h
  | quit => exact wiped_quit h.tx
  | ended => exact ⟨fun _ => rfl, fun _ => rfl⟩
  | again hs => exact ⟨by simp, fun hp => absurd (he.busy _ hs).1 (by rw [Bool.not_eq_true]; exact hp)⟩
  | goes hs _ hx =>
    refine ⟨by simp, fun hp => absurd (he.busy _ hs).1 ?_⟩
    rw [Bool.not_eq_true]
    exact (isSending_of_same hx).symm.trans hp
  | answers => exact ⟨by simp, h.tx⟩

theorem Wiped.onCapture (h : e.Wiped) (he : e.Steady) (t : Ticks) : (e.onCapture t).engine.Wiped := by
  have hx := e.onCapture_hears t
  by_cases hi : e.state = .idle
  · rw [onCapture_idle hi]
    exact ⟨by simp, fun hp => congrArg (fun x : Outgoing => { x with presentInitiator := false }) (h.tx hp)⟩
  generalize (e.onCapture t).engine = d at hx
  cases hx with
  | same => exact h
  | quit => exact wiped_quit h.tx
  | @opens x hs hx =>
    obtain ⟨s, hs⟩ := hs.resolve_left hi
    refine ⟨by simp, fun hp => absurd (he.busy s hs).1 ?_⟩
    rw [Bool.not_eq_true]
    exact (isSending_of_same hx).symm.trans hp
  | goes => exact ⟨by simp, h.tx⟩

/-- A frame that is taken is sent, whatever was there before. -/
theorem Wiped.load (h : e.Wiped) {m : Message} (hm : m.Legal) : (e.load m).Wiped where
  rx := by
    rw [load_state, load_rx]
    exact h.rx
  tx := fun hp => by
    rw [isSending_load hm] at hp
    cases hp

theorem Wiped.contend (h : e.Wiped) : e.contend.Wiped := ⟨by simp [Engine.contend], h.tx⟩

theorem Wiped.after (h : e.Wiped) (he : e.Steady) (c : Call) : (e.after c).Wiped := by
  have hx := e.answers c
  unfold Engine.after
  generalize e.answer c = x at hx
  cases hx with
  | refuses | same | stays => exact h
  | renamed => exact ⟨h.rx, h.tx⟩
  | on _ hr =>
    simp only [hr]
    exact wiped_quit h.tx
  | off _ hr =>
    simp only [hr]
    exact wiped_switchedOff e
  | takes ha | defers ha => exact h.load ha.2.1
  | contends _ _ hr =>
    simp only [hr]
    exact h.contend
  | sends ha _ hr =>
    simp only [hr]
    exact (h.load ha.2.1).contend
  | edge => exact h.onCapture he _
  | deadline => exact h.onTimeout he _

theorem wiped_run (calls : List Call) : (({} : Engine).run calls).Wiped :=
  (run_preserves (P := fun e => e.Steady ∧ e.Wiped) (fun _ c h => ⟨h.1.after c, h.2.after h.1 c⟩)
    ⟨steady_new, wiped_switchedOff {}⟩ calls).2

/-- Whatever two engines have been through: where both wait, with nothing to send, the same address,
as many glitches counted and the same one of the two having spoken last, nothing that is asked of
them tells one from the other. -/
theorem history_forgotten (first second : List Call) :
    let d := ({} : Engine).run first
    let e := ({} : Engine).run second
    d.state = e.state → e.state = .idle ∨ e.state = .disabled → d.isSending = false → e.isSending = false →
      d.address = e.address → d.rx.glitches = e.rx.glitches → d.tx.presentInitiator = e.tx.presentInitiator →
      ∀ further, (d.turns further).map Turn.seen = (e.turns further).map Turn.seen :=
  fun hs hrest hdp hep haddress hglitches hspoke =>
    ((wiped_run first).alike (wiped_run second) hs hrest hdp hep haddress hglitches hspoke).turns hs (steady_run second)

/-- One engine has sent a frame, the other one has let a frame pass that broke off. Their buffers
differ, but they go on alike. -/
theorem history_forgotten_after_traffic :
    let first : List Call := .setEnabled true :: .send [4] :: List.replicate 22 (.timeout none) ++
      [.timeout (some .low), .timeout none, .capture 0, .timeout none]
    let second : List Call := [.setEnabled true, .capture 0, .capture 3700, .capture 800, .capture 600,
      .capture 1800, .timeout none]
    let d := ({} : Engine).run first
    let e := ({} : Engine).run second
    d.state = .idle ∧ d.rx.buffer.header ≠ e.rx.buffer.header ∧ d.tx.buffer.header ≠ e.tx.buffer.header ∧
      ∀ further, (d.turns further).map Turn.seen = (e.turns further).map Turn.seen := by
  intro first second d e
  exact ⟨by decide +kernel, by decide +kernel, by decide +kernel,
    history_forgotten first second (by decide +kernel) (by decide +kernel) (by decide +kernel) (by decide +kernel)
      (by decide +kernel) (by decide +kernel) (by decide +kernel)⟩

end Engine
end HdmiCec
