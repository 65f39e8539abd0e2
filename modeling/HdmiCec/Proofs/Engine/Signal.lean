import HdmiCec.Proofs.Engine.Account

/-! What an initiator puts on the line. The signals of a message are defined byte by byte; what an
engine does after it has begun a start bit is a beginning of them (`signals_prefix`), because each
deadline brings the next of the signals that its state and cursor still owe (`Initiator.rest`). -/
namespace HdmiCec

/-- One thing that an initiator does to the line: it acts on it, or reads it to see whether a block
is acknowledged. -/
inductive Signal where
  | act (a : LineAction)
  | read
  deriving DecidableEq, Repr

namespace Signal

def pulse (low : Ticks) (high : Wait) : List Signal :=
  [.act (.set .low), .act (.arm (.pause low)), .act (.set .high), .act (.arm high)]

def highWait (watched : Bool) (n : Ticks) : Wait := if watched then .within .falling n else .pause n

def start : List Signal := pulse Symbol.start.window.low (highWait true Symbol.start.window.high)

def bit (watched b : Bool) : List Signal := pulse (lowDuration b) (highWait watched (highDuration b))

def ackSlot : List Signal :=
  pulse (lowDuration true) (.pause ackHighBeforeSample) ++ [.read, .act (.arm (.pause ackAfterSample))]

/-- The bits of a byte, whether it is the last one, and the ACK slot. In the first block the speaker
gives its own address first, and watches for others while it does. -/
def block (first : Bool) (byte : UInt8) (last : Bool) : List Signal :=
  (List.range 8).flatMap (fun j => bit (first && j < 4) (Byte.bit byte j)) ++ (bit false last ++ ackSlot)

def blocks : Bool → Message → List Signal
  | _, [] => []
  | first, byte :: rest => block first byte rest.isEmpty ++ blocks false rest

end Signal

def Message.signals (m : Message) : List Signal := Signal.start ++ Signal.blocks true m

def Initiator.actions (s : Initiator) (x : Outgoing) : List LineAction :=
  (if s = .ackVerify then [] else [.set (if s.isLow then .low else .high)]) ++
    [.arm ⟨s.edge?, some (s.span x)⟩]

def Initiator.signals (s : Initiator) (x : Outgoing) : List Signal :=
  (if s = .ackVerify then [.read] else []) ++ (s.actions x).map .act

namespace Engine.Turn

/-- What reading the line gave, where an initiator looks for its ACK. -/
def sample? (t : Turn) : Option Reading :=
  match t.call with
  | .timeout line => if t.before.state = .initiator .ackHigh then some line else none
  | _ => none

def signals (t : Turn) : List Signal :=
  t.sample?.toList.map (fun _ => .read) ++ t.did.actions.map .act

end Engine.Turn

namespace Outgoing

def blocksFrom (x : Outgoing) (q : Nat) : List Signal := Signal.blocks (q == 0) (x.message.drop (q / 8))

def eomFrom (x : Outgoing) (q : Nat) : List Signal :=
  Signal.bit false (q == 8 * x.length) ++ (Signal.ackSlot ++ x.blocksFrom q)

def bitsFrom (x : Outgoing) (q : Nat) : List Signal :=
  (List.range' (q % 8) (8 - q % 8)).flatMap
      (fun j => Signal.bit (decide (q < 8) && decide (j < 4)) (x.buffer.bitAt (8 * (q / 8) + j))) ++
    x.eomFrom (8 * (q / 8) + 8)

def nextFrom (x : Outgoing) (q : Nat) : List Signal := if q % 8 = 0 then x.eomFrom q else x.bitsFrom q

variable {x : Outgoing} {q : Nat}

theorem bitsFrom_eq (x : Outgoing) (q : Nat) :
    x.bitsFrom q = Signal.bit (decide (q < 4)) (x.buffer.bitAt q) ++ x.nextFrom (q + 1) := by
  have hlen : 8 - q % 8 = (7 - q % 8) + 1 := by omega
  have hq : 8 * (q / 8) + q % 8 = q := by omega
  have hwatch : (decide (q < 8) && decide (q % 8 < 4)) = decide (q < 4) := by
    rw [← Bool.decide_and, decide_eq_decide]
    omega
  rw [bitsFrom, hlen, List.range'_succ, List.flatMap_cons, hq, hwatch, List.append_assoc]
  congr 1
  by_cases hlast : q % 8 = 7
  · have hend : 8 * (q / 8) + 8 = q + 1 := by omega
    rw [nextFrom, if_pos (by omega), hlast, hend]
    rfl
  · have hblock : (q + 1) / 8 = q / 8 := by omega
    have hplace : (q + 1) % 8 = q % 8 + 1 := by omega
    have hcount : 8 - (q % 8 + 1) = 7 - q % 8 := by omega
    have hfirst : decide (q + 1 < 8) = decide (q < 8) := by
      rw [decide_eq_decide]
      omega
    rw [nextFrom, if_neg (by omega), bitsFrom, hblock, hplace, hcount, hfirst]

theorem blocksFrom_eq (hq : q % 8 = 0) (hlt : q < 8 * x.length) : x.blocksFrom q = x.bitsFrom q := by
  have hk : q / 8 < x.message.length := by
    rw [x.length_message]
    omega
  have hbyte : x.message[q / 8] = x.buffer.byteAt (q / 8) := by
    simp only [message, List.getElem_map, List.getElem_range]
  have hrest : (x.message.drop (q / 8 + 1)).isEmpty = (8 * (q / 8) + 8 == 8 * x.length) := by
    rw [Bool.eq_iff_iff, List.isEmpty_iff, List.drop_eq_nil_iff, x.length_message, beq_iff_eq]
    omega
  have hnext : Signal.blocks false (x.message.drop (q / 8 + 1)) = x.blocksFrom (8 * (q / 8) + 8) := by
    have h0 : (8 * (q / 8) + 8 == 0) = false := by
      rw [beq_eq_false_iff_ne]
      omega
    have h1 : (8 * (q / 8) + 8) / 8 = q / 8 + 1 := by omega
    rw [blocksFrom, h0, h1]
  have hfirst : (q == 0) = decide (q < 8) := by
    rw [Bool.eq_iff_iff, beq_iff_eq, decide_eq_true_eq]
    omega
  rw [blocksFrom, List.drop_eq_getElem_cons hk, Signal.blocks, Signal.block, hbyte, hrest, hnext, hfirst,
    bitsFrom, eomFrom, hq, List.range_eq_range']
  simp only [List.append_assoc, Nat.sub_zero]
  rw [List.flatMap_def, List.flatMap_def]
  congr 2
  refine List.map_congr_left fun j hj => ?_
  rw [BitBuffer.bit_byteAt _ _ (by simpa using hj)]

theorem blocksFrom_end (x : Outgoing) : x.blocksFrom (8 * x.length) = [] := by
  have : 8 * x.length / 8 = x.message.length := by
    rw [x.length_message]
    omega
  rw [blocksFrom, this, List.drop_length]
  rfl

end Outgoing

def Initiator.rest (s : Initiator) (x : Outgoing) : List Signal :=
  match s with
  | freeTime => []
  | startLow => Initiator.startHigh.signals x ++ x.blocksFrom 0
  | startHigh => x.blocksFrom 0
  | low .eom => (Initiator.high .eom).signals x ++ (Signal.ackSlot ++ x.blocksFrom x.buffer.pos)
  | low f => (Initiator.high f).signals x ++ x.nextFrom (x.buffer.pos + 1)
  | high .eom => Signal.ackSlot ++ x.blocksFrom x.buffer.pos
  | high _ => x.nextFrom (x.buffer.pos + 1)
  | ackLow => Signal.ackSlot.drop 2 ++ x.blocksFrom x.buffer.pos
  | ackHigh => Signal.ackSlot.drop 4 ++ x.blocksFrom x.buffer.pos
  | ackVerify => x.blocksFrom x.buffer.pos

theorem Initiator.signals_bit (f : BitKind) (x : Outgoing) :
    (Initiator.low f).signals x ++ (Initiator.high f).signals x = Signal.bit (f == .headerInit) (x.bit f) := by
  cases f <;> rfl

theorem Initiator.rest_low (f : BitKind) (x : Outgoing) :
    (Initiator.low f).rest x = (Initiator.high f).signals x ++ (Initiator.high f).rest x := by
  cases f <;> rfl

theorem Initiator.rest_high {f : BitKind} (hf : f ≠ .eom) (x : Outgoing) :
    (Initiator.high f).rest x = x.nextFrom (x.buffer.pos + 1) := by
  cases f with
  | eom => exact absurd rfl hf
  | _ => rfl

theorem Initiator.start_rest (x : Outgoing) :
    Initiator.startLow.signals x ++ Initiator.startLow.rest x = x.message.signals := rfl

theorem Outgoing.bitsFrom_low {f : BitKind} {x : Outgoing} (hw : f.Within x.buffer.pos x.length) (hf : f ≠ .eom) :
    x.bitsFrom x.buffer.pos = (Initiator.low f).signals x ++ (Initiator.low f).rest x := by
  have hwatch : decide (x.buffer.pos < 4) = (f == .headerInit) := by
    cases f with
    | eom => exact absurd rfl hf
    | headerInit => exact decide_eq_true hw
    | headerDest => exact decide_eq_false (by simp only [BitKind.Within] at hw; omega)
    | data => exact decide_eq_false (by simp only [BitKind.Within] at hw; omega)
  have hbit : x.bit f = x.buffer.bitAt x.buffer.pos := by rw [Outgoing.bit, if_neg hf]; rfl
  rw [Initiator.rest_low, ← List.append_assoc, Initiator.signals_bit, Initiator.rest_high hf, Outgoing.bitsFrom_eq,
    hwatch, hbit]

theorem Outgoing.eomFrom_low (x : Outgoing) :
    x.eomFrom x.buffer.pos = (Initiator.low .eom).signals x ++ (Initiator.low .eom).rest x := by
  rw [Initiator.rest_low, ← List.append_assoc, Initiator.signals_bit]
  rfl

/-- The EOM bit comes after every eighth bit. -/
theorem BitKind.Within.eom_iff {f : BitKind} {b : BitBuffer} {n : Nat} (h : (f.next b).Within b.pos n)
    (hf : f ≠ .eom) (hpos : 0 < b.pos) : f.next b = .eom ↔ b.pos % 8 = 0 := by
  refine ⟨fun he => ?_, fun h0 => ?_⟩
  · rw [he] at h
    exact h.1
  · have hoff : b.offset = 0 := h0
    cases f with
    | eom => exact absurd rfl hf
    | headerInit =>
      have hsame : BitKind.headerInit.next b = .headerInit := if_neg (by rw [hoff]; decide)
      rw [hsame] at h
      have hlt : b.pos < 4 := h
      omega
    | headerDest | data => exact if_pos hoff

namespace Engine

variable {e : Engine} {line : Reading} {s u : Initiator}

theorem actions_initiatorEntry (e : Engine) (s : Initiator) (line : Reading) :
    (e.initiatorEntry s line).actions = s.actions (e.initiatorEntry s line).engine.tx := by
  cases s with
  | low f => cases f <;> rfl
  | high f => cases f <;> rfl
  | _ => rfl

theorem actions_enter {s : State} (h : e.target s = .initiator u) (line : Reading) :
    (e.enter s line).actions = u.actions (e.enter s line).engine.tx := by
  simp only [enter, h]
  exact actions_initiatorEntry _ u line

/-- An initiator does on a deadline what the state asks for that it enters. -/
theorem actions_onTimeout (hs : e.state = .initiator s) (hu : (e.onTimeout line).engine.state = .initiator u) :
    (e.onTimeout line).actions = u.actions (e.onTimeout line).engine.tx := by
  cases hm : e.deadlineMove? with
  | none =>
    have := deadlineMove?_isSome (.inl ⟨s, hs⟩)
    rw [hm] at this
    cases this
  | some m =>
    simp only [onTimeout, hm, perform] at hu ⊢
    rw [state_enter] at hu
    exact actions_enter hu line

theorem initiator_of_quit (hu : e.quit.state = .initiator u) : u = .freeTime := by
  rcases e.quit_state with ⟨hq, -⟩ | ⟨hq, -⟩ <;> rw [hq] at hu <;> cases hu
  rfl

theorem leads_of_onTimeout (hs : e.state = .initiator s) (hu : (e.onTimeout line).engine.state = .initiator u)
    (hf : u ≠ .freeTime) : s.leads u = true ∧ (e.onTimeout line).engine.tx.Same e.tx := by
  have hx := e.onTimeout_lapses line
  generalize (e.onTimeout line).engine = d at hx hu
  cases hx with
  | same h => rw [hs] at h; rcases h with h | h <;> cases h
  | quit | ended => exact absurd (initiator_of_quit hu) hf
  | again => cases hu; exact absurd rfl hf
  | goes h hl hx => rw [hs] at h; cases h; cases hu; exact ⟨hl, hx⟩
  | answers h => rw [hs] at h; cases h

/-- The line is read on the way into the judgement of an ACK and nowhere else. -/
theorem ackHigh_iff (h : s.leads u = true) : s = .ackHigh ↔ u = .ackVerify := by
  constructor
  · rintro rfl
    cases u with
    | ackVerify => rfl
    | _ => cases h
  · rintro rfl
    exact Initiator.of_leads_ackVerify h

theorem signals_onTimeout (hs : e.state = .initiator s) (hu : (e.onTimeout line).engine.state = .initiator u)
    (hf : u ≠ .freeTime) : Turn.signals ⟨e, .timeout line⟩ = u.signals (e.onTimeout line).engine.tx := by
  have hread := ackHigh_iff (leads_of_onTimeout hs hu hf).1
  have hact : (Turn.did ⟨e, .timeout line⟩).actions = _ := actions_onTimeout hs hu
  rw [Turn.signals, hact, Initiator.signals]
  congr 1
  simp only [Turn.sample?, hs, State.initiator.injEq, hread]
  split <;> rfl

/-- What is yet to come begins with what the next deadline brings. -/
theorem rest_onTimeout (h : e.Steady) (hs : e.state = .initiator s)
    (hu : (e.onTimeout line).engine.state = .initiator u) (hf : u ≠ .freeTime) (hsf : s ≠ .freeTime) :
    s.rest e.tx = u.signals (e.onTimeout line).engine.tx ++ u.rest (e.onTimeout line).engine.tx := by
  obtain ⟨hp, hc⟩ := h.busy s hs
  have hlen := Outgoing.length_pos hp
  cases s with
  | freeTime => exact absurd rfl hsf
  | startLow =>
    rw [onTimeout_startLow hs] at hu ⊢
    cases hu
    rfl
  | startHigh =>
    rw [onTimeout_startHigh hs] at hu ⊢
    cases hu
    have hpos : e.tx.buffer.pos = 0 := hc
    have hw : BitKind.headerInit.Within e.tx.buffer.pos e.tx.length := by
      rw [hpos]
      exact Nat.zero_lt_succ 3
    rw [← Outgoing.bitsFrom_low hw (by decide), hpos]
    exact Outgoing.blocksFrom_eq rfl (by omega)
  | low f =>
    rw [onTimeout_low hs] at hu ⊢
    cases hu
    exact Initiator.rest_low f e.tx
  | high f =>
    by_cases hfe : f = .eom
    · subst hfe
      rw [onTimeout_high_eom hs] at hu ⊢
      cases hu
      rfl
    · rw [(h.fit (by simp [hs])).onTimeout_high hs hfe] at hu ⊢
      cases hu
      have hw : f.Within e.tx.buffer.pos e.tx.length := hc
      have hnext := hw.next hfe hlen h.tx.length_le
      have hpos : e.tx.buffer.advance.pos = e.tx.buffer.pos + 1 :=
        BitBuffer.pos_advance (hw.pos_lt_capacity hfe hlen h.tx.length_le)
      generalize hx : ({ e.tx with buffer := e.tx.buffer.advance } : Outgoing) = x
      have hxpos : x.buffer.pos = e.tx.buffer.pos + 1 := by rw [← hx]; exact hpos
      have hfrom : e.tx.nextFrom (e.tx.buffer.pos + 1) = x.nextFrom x.buffer.pos := by rw [hxpos, ← hx]; rfl
      have hgw : (f.next e.tx.buffer.advance).Within x.buffer.pos x.length := by rw [hxpos, ← hpos, ← hx]; exact hnext
      have hend := hnext.eom_iff hfe (by omega)
      rw [hpos, ← hxpos] at hend
      rw [Initiator.rest_high hfe, hfrom, Outgoing.nextFrom]
      split
      · next h0 => rw [hend.2 h0, Outgoing.eomFrom_low]
      · next h0 => exact Outgoing.bitsFrom_low hgw fun hg => h0 (hend.1 hg)
  | ackLow =>
    rw [onTimeout_ackLow hs] at hu ⊢
    cases hu
    rfl
  | ackHigh =>
    rw [onTimeout_ackHigh hs] at hu ⊢
    cases hu
    rfl
  | ackVerify =>
    cases ha : e.tx.acked with
    | true =>
      cases hl : e.tx.isLast with
      | true =>
        rw [onTimeout_sent hs ha hl] at hu
        exact absurd (initiator_of_quit hu) hf
      | false =>
        rw [onTimeout_acked hs ha hl] at hu ⊢
        cases hu
        obtain ⟨h0, h1, h2⟩ : e.tx.buffer.pos % 8 = 0 ∧ 0 < e.tx.buffer.pos ∧ e.tx.buffer.pos ≤ 8 * e.tx.length := hc
        have hne : e.tx.buffer.pos ≠ 8 * e.tx.length := by simpa [Outgoing.isLast, BitBuffer.atEnd] using hl
        have hw : BitKind.data.Within e.tx.buffer.pos e.tx.length := ⟨by omega, by omega⟩
        rw [← Outgoing.bitsFrom_low hw (by decide)]
        exact Outgoing.blocksFrom_eq h0 hw.2
    | false =>
      by_cases hr : e.tx.resends < Outgoing.maxResends
      · rw [onTimeout_resend hs ha hr] at hu
        cases hu
        exact absurd rfl hf
      · rw [onTimeout_failed hs ha hr] at hu
        exact absurd (initiator_of_quit hu) hf

theorem speaks_iff {v : State} : v.speaks = true ↔ ∃ u, v = .initiator u ∧ u ≠ .freeTime := by
  constructor
  · intro h
    cases v with
    | initiator u =>
      refine ⟨u, rfl, ?_⟩
      rintro rfl
      cases h
    | _ => cases h
  · rintro ⟨u, rfl, hu⟩
    cases u with
    | freeTime => exact absurd rfl hu
    | _ => rfl

theorem sample?_eq_none {c : Call} (hc : ∀ line, c ≠ .timeout line) : Turn.sample? ⟨e, c⟩ = none := by
  cases c with
  | timeout line => exact absurd rfl (hc line)
  | _ => rfl

/-- Only deadlines lead on within an attempt; all else leaves a speaking engine alone. -/
theorem speaks_after (h : e.Steady) {c : Call} (hc : ∀ line, c ≠ .timeout line)
    (hu : (e.after c).state = .initiator u) (hf : u ≠ .freeTime) :
    (e.after c).state = e.state ∧ (e.after c).tx = e.tx ∧ Turn.signals ⟨e, c⟩ = [] := by
  have accepted : ∀ m, e.Accepts m → e.state ≠ .initiator u := fun m ha hs => by
    have := (h.busy u hs).1
    rw [ha.2.2] at this
    cases this
  rw [Turn.signals, sample?_eq_none hc]
  have hx := e.answers c
  simp only [Engine.after, Turn.did] at hu ⊢
  generalize e.answer c = x at hx hu
  cases hx with
  | refuses | renamed | same | stays => exact ⟨rfl, rfl, rfl⟩
  | on _ hr =>
    simp only [hr] at hu
    exact absurd (initiator_of_quit hu) hf
  | off _ hr =>
    simp only [hr] at hu
    cases hu
  | @takes m ha | @defers m ha =>
    rw [load_state] at hu
    exact absurd hu (accepted m ha)
  | contends _ _ hr | sends _ _ hr =>
    simp only [hr] at hu
    cases hu
    exact absurd rfl hf
  | @edge t =>
    have hs : e.state = .initiator u := by
      have hx := e.onCapture_hears t
      generalize (e.onCapture t).engine = d at hx hu
      cases hx with
      | same => exact hu
      | quit => exact absurd (initiator_of_quit hu) hf
      | opens => cases hu
      | goes => cases hu
    have hdeaf : ¬ (u = .freeTime ∨ u = .startHigh ∨ u = .high .headerInit) := by
      intro hy
      rw [onCapture_initiator hs hy] at hu
      cases hu
    rw [onCapture_deaf hs hdeaf]
    exact ⟨rfl, rfl, rfl⟩
  | deadline => exact absurd rfl (hc _)

/-- The one way to a start bit is out of the free time. -/
theorem startLow_entered (h : e.Steady) {c : Call} (hs : e.state ≠ .initiator .startLow)
    (hu : (e.after c).state = .initiator .startLow) : ∃ line, c = .timeout line ∧ e.state = .initiator .freeTime := by
  by_cases hc : ∃ line, c = .timeout line
  · obtain ⟨line, rfl⟩ := hc
    refine ⟨line, rfl, ?_⟩
    have hu : (e.onTimeout line).engine.state = .initiator .startLow := hu
    have hx := e.onTimeout_lapses line
    generalize (e.onTimeout line).engine = d at hx hu
    cases hx with
    | same => exact absurd hu hs
    | quit | ended => cases initiator_of_quit hu
    | again => cases hu
    | @goes v w x hv hl _ =>
      cases hu
      cases v with
      | freeTime => exact hv
      | high f => cases f <;> cases hl
      | _ => cases hl
    | answers => cases hu
  · have hsame := speaks_after h (fun line hl => hc ⟨line, hl⟩) hu (by decide)
    exact absurd (hsame.1.symm.trans hu) hs

theorem getLast?_signals (l : List Signal) (u : Initiator) (x : Outgoing) :
    (l ++ u.signals x).getLast? = some (.act (.arm ⟨u.edge?, some (u.span x)⟩)) := by
  simp [Initiator.signals, Initiator.actions]

/-- An engine in the middle of an attempt: what it has put on the line since it began the start bit,
and what reading the line has given it. -/
structure Attempt (e : Engine) (m : Message) (s : Initiator) (sent : List Signal) (reads : List Reading) : Prop where
  steady : e.Steady
  state : e.state = .initiator s
  speaks : s ≠ .freeTime
  message : e.tx.message = m
  whole : sent ++ s.rest e.tx = m.signals
  armed : sent.getLast? = some (.act (.arm ⟨s.edge?, some (s.span e.tx)⟩))
  judged : s = .ackVerify → ∃ r, reads.getLast? = some r ∧ e.tx.acked = (r.isLow != m.destination.isBroadcast)

variable {m : Message} {sent : List Signal} {reads : List Reading}

theorem Attempt.begin (h : e.Steady) (hs : e.state = .initiator .freeTime) (line : Reading) :
    (e.after (.timeout line)).Attempt e.tx.message .startLow (Turn.signals ⟨e, .timeout line⟩)
      (Turn.sample? ⟨e, .timeout line⟩).toList := by
  have hu : (e.onTimeout line).engine.state = .initiator .startLow := by rw [onTimeout_freeTime hs]
  have hsent := signals_onTimeout hs hu (by decide)
  have hsame := (leads_of_onTimeout hs hu (by decide)).2
  refine ⟨h.onTimeout line, hu, by decide, Outgoing.message_congr hsame.length hsame.bits, ?_, ?_, fun hv => by cases hv⟩
  · rw [hsent]
    exact (Initiator.start_rest _).trans (congrArg _ (Outgoing.message_congr hsame.length hsame.bits))
  · rw [hsent, ← List.nil_append (Initiator.signals _ _), getLast?_signals]
    rfl

theorem Attempt.after (h : e.Attempt m s sent reads) (c : Call) (hc : (e.after c).state.speaks = true) :
    ∃ u, (e.after c).Attempt m u (sent ++ Turn.signals ⟨e, c⟩) (reads ++ (Turn.sample? ⟨e, c⟩).toList) := by
  obtain ⟨u, hu, hf⟩ := speaks_iff.1 hc
  by_cases ht : ∃ line, c = .timeout line
  · obtain ⟨line, rfl⟩ := ht
    have hu : (e.onTimeout line).engine.state = .initiator u := hu
    have hsent := signals_onTimeout h.state hu hf
    obtain ⟨hl, hsame⟩ := leads_of_onTimeout h.state hu hf
    have hmsg : (e.onTimeout line).engine.tx.message = m :=
      (Outgoing.message_congr hsame.length hsame.bits).trans h.message
    refine ⟨u, h.steady.onTimeout line, hu, hf, hmsg, ?_, ?_, ?_⟩
    · rw [hsent, List.append_assoc, ← h.whole, rest_onTimeout h.steady h.state hu hf h.speaks]
      rfl
    · rw [hsent, getLast?_signals]
      rfl
    · rintro rfl
      have hs := h.state
      rw [Initiator.of_leads_ackVerify hl] at hs
      have hread : Turn.sample? ⟨e, .timeout line⟩ = some line := by simp only [Turn.sample?, hs, if_true]
      have hbroadcast := Outgoing.isBroadcast_eq (h.steady.busy _ hs).1
      rw [h.message] at hbroadcast
      refine ⟨line, by rw [hread]; simp, ?_⟩
      show (e.onTimeout line).engine.tx.acked = _
      rw [onTimeout_ackHigh hs, ← hbroadcast]
  · have hc : ∀ line, c ≠ .timeout line := fun line hl => ht ⟨line, hl⟩
    obtain ⟨hst, htx, hnone⟩ := speaks_after h.steady hc hu hf
    rw [hnone, sample?_eq_none hc, Option.toList_none, List.append_nil, List.append_nil]
    refine ⟨s, h.steady.after c, hst.trans h.state, h.speaks, ?_, ?_, ?_, ?_⟩ <;> rw [htx]
    · exact h.message
    · exact h.whole
    · exact h.armed
    · exact h.judged

theorem Attempt.run (h : e.Attempt m s sent reads) {calls : List Call}
    (hc : ∀ t ∈ e.turns calls, t.after.state.speaks = true) :
    ∃ u, (e.run calls).Attempt m u (sent ++ (e.turns calls).flatMap Turn.signals)
      (reads ++ (e.turns calls).filterMap Turn.sample?) := by
  induction calls generalizing e s sent reads with
  | nil => exact ⟨s, by simpa [turns, Engine.run] using h⟩
  | cons c rest ih =>
    obtain ⟨u, hu⟩ := h.after c (hc _ List.mem_cons_self)
    obtain ⟨v, hv⟩ := ih hu fun t ht => hc t (List.mem_cons_of_mem _ ht)
    have hreads : (e.turns (c :: rest)).filterMap Turn.sample? =
        (Turn.sample? ⟨e, c⟩).toList ++ ((e.after c).turns rest).filterMap Turn.sample? := by
      rw [turns, List.filterMap_cons]
      cases Turn.sample? ⟨e, c⟩ <;> rfl
    rw [hreads, turns, List.flatMap_cons, ← List.append_assoc, ← List.append_assoc]
    exact ⟨v, hv⟩

/-- How an attempt ends: all is out, another one speaks, the line was read and gave no ACK, or the
engine is switched off. -/
theorem Attempt.ends (h : e.Attempt m s sent reads) {c : Call} (hc : (e.after c).state.speaks = false) :
    sent = m.signals ∨ (∃ t, c = .capture t ∧ (s = .startHigh ∨ s = .high .headerInit)) ∨
      (∃ line, c = .timeout line ∧ s = .ackVerify ∧ e.tx.acked = false) ∨ c = .setEnabled false := by
  have hs := h.state
  have hspeaks : e.state.speaks = true := speaks_iff.2 ⟨s, hs, h.speaks⟩
  have hbusy := (h.steady.busy s hs).1
  have refused : ∀ m, ¬ e.Accepts m := fun m ha => by simp [ha.2.2] at hbusy
  have same : ∀ d : Engine, d.state = e.state → d.state.speaks = false → False := fun d hd hq => by
    rw [hd, hspeaks] at hq
    cases hq
  have hx := e.answers c
  unfold Engine.after at hc
  generalize e.answer c = x at hx hc
  cases hx with
  | refuses | renamed | same | stays => exact (same _ rfl hc).elim
  | on hd =>
    rw [hs] at hd
    cases hd
  | off => exact .inr (.inr (.inr rfl))
  | takes ha | sends ha | defers ha => exact absurd ha (refused _)
  | contends hi =>
    rw [hs] at hi
    cases hi
  | @edge t =>
    by_cases hy : s = .freeTime ∨ s = .startHigh ∨ s = .high .headerInit
    · exact .inr (.inl ⟨t, rfl, hy.resolve_left h.speaks⟩)
    · rw [onCapture_deaf hs hy] at hc
      exact (same _ rfl hc).elim
  | @deadline line =>
    cases s with
    | freeTime => exact absurd rfl h.speaks
    | startLow => rw [onTimeout_startLow hs] at hc; cases hc
    | startHigh => rw [onTimeout_startHigh hs] at hc; cases hc
    | low f => rw [onTimeout_low hs] at hc; cases hc
    | high f =>
      by_cases hf : f = .eom
      · subst hf
        rw [onTimeout_high_eom hs] at hc
        cases hc
      · rw [onTimeout_high hs hf] at hc
        cases hc
    | ackLow => rw [onTimeout_ackLow hs] at hc; cases hc
    | ackHigh => rw [onTimeout_ackHigh hs] at hc; cases hc
    | ackVerify =>
      cases ha : e.tx.acked with
      | false => exact .inr (.inr (.inl ⟨line, rfl, rfl, rfl⟩))
      | true =>
        cases hl : e.tx.isLast with
        | false =>
          rw [onTimeout_acked hs ha hl] at hc
          cases hc
        | true =>
          have hpos : e.tx.buffer.pos = 8 * e.tx.length := by simpa [Outgoing.isLast, BitBuffer.atEnd] using hl
          have hrest : Initiator.ackVerify.rest e.tx = [] := by rw [Initiator.rest, hpos, Outgoing.blocksFrom_end]
          have hwhole := h.whole
          rw [hrest, List.append_nil] at hwhole
          exact .inl hwhole

/-- From each start bit on, what an engine does to the line is a beginning of the signals of the
message that it took last and that is still open. It breaks off only if another one begins to speak
while it listens, if the line is read and gives no ACK, or if it is switched off. -/
theorem signals_prefix {a b : List Call} {c : Call} (hbefore : (({} : Engine).run a).state ≠ .initiator .startLow)
    (henter : (({} : Engine).run (a ++ [c])).state = .initiator .startLow)
    (hspeaks : ∀ t ∈ (({} : Engine).run (a ++ [c])).turns b, t.after.state.speaks = true) :
    ∃ m, pending (({} : Engine).turns a) = some m ∧ pending (({} : Engine).turns (a ++ c :: b)) = some m ∧
      let e := ({} : Engine).run (a ++ c :: b)
      let attempt := (({} : Engine).run a).turns (c :: b)
      let sent := attempt.flatMap Turn.signals
      sent <+: m.signals ∧ ∀ x, (e.after x).state.speaks = false → sent = m.signals ∨
        (∃ t w, x = .capture t ∧ (e.state = .initiator .startHigh ∨ e.state = .initiator (.high .headerInit)) ∧
          sent.getLast? = some (.act (.arm w)) ∧ w.edge = some .falling) ∨
        (∃ line r, x = .timeout line ∧ e.state = .initiator .ackVerify ∧
          (attempt.filterMap Turn.sample?).getLast? = some r ∧ r.isLow = m.destination.isBroadcast) ∨
        x = .setEnabled false := by
  have hsteady := steady_run a
  have hpend := pending_turns a
  have hpend' := pending_turns (a ++ c :: b)
  rw [run_append] at henter hspeaks hpend' ⊢
  generalize ({} : Engine).run a = d at *
  obtain ⟨line, rfl, hfree⟩ := startLow_entered hsteady hbefore henter
  obtain ⟨u, hu⟩ := (Attempt.begin hsteady hfree line).run hspeaks
  have hheld : ∀ k : Engine, k.Steady → ∀ v, k.state = .initiator v → k.held = some k.tx.message :=
    fun k hk v hv => by rw [held, if_pos (hk.busy v hv).1]
  have hreads : (d.turns (.timeout line :: b)).filterMap Turn.sample? =
      (Turn.sample? ⟨d, .timeout line⟩).toList ++ ((d.after (.timeout line)).turns b).filterMap Turn.sample? := by
    rw [turns, List.filterMap_cons]
    cases Turn.sample? ⟨d, .timeout line⟩ <;> rfl
  refine ⟨d.tx.message, hpend.trans (hheld d hsteady _ hfree), ?_, ?_⟩
  · exact hpend'.trans ((hheld _ hu.steady u hu.state).trans (congrArg some hu.message))
  · intro e attempt sent
    have hsent : sent ++ u.rest e.tx = d.tx.message.signals := hu.whole
    refine ⟨⟨_, hsent⟩, fun x hx => ?_⟩
    rcases hu.ends hx with hall | ⟨t, rfl, hy⟩ | ⟨l, rfl, rfl, ha⟩ | rfl
    · exact .inl hall
    · refine .inr (.inl ⟨t, _, rfl, ?_, hu.armed, ?_⟩)
      · rcases hy with rfl | rfl
        · exact .inl hu.state
        · exact .inr hu.state
      · rcases hy with rfl | rfl <;> rfl
    · obtain ⟨r, hr, hacked⟩ := hu.judged rfl
      refine .inr (.inr (.inl ⟨l, r, rfl, hu.state, ?_, ?_⟩))
      · exact (congrArg List.getLast? hreads).trans hr
      · rw [ha] at hacked
        simpa using hacked.symm
    · exact .inr (.inr (.inr rfl))

/-- Another one begins to speak while the first bit of its own address is high. -/
theorem signals_prefix_first_bit :
    let a : List Call := [.setEnabled true, .send [4, 54]]
    let b : List Call := [.timeout none, .timeout none, .submit [9], .timeout none]
    let c : Call := .timeout none
    let x : Call := .capture 100
    let sent := ((({} : Engine).run a).turns (c :: b)).flatMap Turn.signals
    pending (({} : Engine).turns (a ++ c :: b)) = some [4, 54] ∧
      sent = Signal.start ++ Signal.bit true false ∧ sent <+: Message.signals [4, 54] ∧
      ((({} : Engine).run (a ++ c :: b)).after x).state = .follower .startLow := by
  intro a b c x sent
  obtain ⟨m, -, hpend, hprefix, -⟩ := signals_prefix (a := a) (b := b) (c := c)
    (by decide +kernel) (by decide +kernel) (by decide +kernel)
  have hm : pending (({} : Engine).turns (a ++ c :: b)) = some [4, 54] := by decide +kernel
  rw [hm] at hpend
  cases hpend
  exact ⟨hm, by decide +kernel, hprefix, by decide +kernel⟩

end Engine
end HdmiCec
