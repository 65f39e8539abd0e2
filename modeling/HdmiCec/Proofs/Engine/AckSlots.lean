import HdmiCec.Proofs.Engine.Attended
import HdmiCec.Proofs.Engine.Hearing

/-! ACK slots among calls of every kind. A follower compares addresses twice: where the slot of a block
begins, to pull it or not, and where the last slot ends, to hand the frame over or not
(`received_and_slots`). In between the address may change, so the two may differ
(`received_without_ack`). Other calls do not disturb what a follower hears, nor does anything but an
edge or a deadline, unless the engine is switched off. -/
namespace HdmiCec

open Grammar

namespace Engine

/-- The ACK slot of a block: the address when it begins, and whether the line is pulled low there. -/
structure Slot where
  address : LogicalAddress
  pulled : Bool
  deriving DecidableEq, Repr

namespace Turn

def breaks (t : Turn) : Bool := t.opens || t.after.state == .disabled

def hear (frame : List Call) (t : Turn) : List Call :=
  if t.breaks then [] else if t.call.isEvent then frame ++ [t.call] else frame

def slot (slots : List Slot) (t : Turn) : List Slot :=
  if t.breaks then []
  else if t.before.state ≠ .follower .ackLow ∧ t.after.state = .follower .ackLow then
    slots ++ [⟨t.after.address, decide (.set .low ∈ t.did.actions)⟩]
  else slots

end Turn

/-- The edges and deadlines since the last start bit began. -/
def frame (ts : List Turn) : List Call := ts.foldl Turn.hear []

/-- The ACK slots since then. -/
def slots (ts : List Turn) : List Slot := ts.foldl Turn.slot []

variable {e d k : Engine} {c : Call} {w : Option Wait} {calls : List Call} {ss : List Slot} {m : Message} {t : Ticks}
  {line : Reading} {own : LogicalAddress}

/-- Short of an event, an engine that follows goes on just so, or is switched off. -/
theorem after_calm (hc : c.isEvent = false) : (e.after c).state = .disabled ∨
    (e.after c).state = e.state ∧ (e.after c).rx = e.rx ∨
    (∀ s, e.state ≠ .follower s) ∧ ∀ s, (e.after c).state ≠ .follower s := by
  have hx := e.answers c
  unfold Engine.after
  generalize e.answer c = x at hx
  cases hx with
  | refuses | renamed | same | stays => exact .inr (.inl ⟨rfl, rfl⟩)
  | takes | defers => exact .inr (.inl ⟨e.load_state _, e.load_rx _⟩)
  | on hs hr =>
    simp only [hr]
    exact .inr (.inr ⟨fun s => by rw [hs]; simp, ne_follower_quit e⟩)
  | off _ hr =>
    simp only [hr]
    exact .inl rfl
  | contends hs _ hr =>
    simp only [hr]
    exact .inr (.inr ⟨fun s => by rw [hs]; simp, fun s => by simp [contend]⟩)
  | sends _ hs hr =>
    simp only [hr]
    exact .inr (.inr ⟨fun s => by rw [hs]; simp, fun s => by simp [contend]⟩)
  | edge | deadline => cases hc

theorem follower_of_calm (hc : c.isEvent = false) {s : Follower} (hs : (e.after c).state = .follower s) :
    e.state = .follower s ∧ (e.after c).rx = e.rx := by
  rcases after_calm hc with hd | ⟨hsame, hrx⟩ | ⟨-, hn⟩
  · rw [hs] at hd
    cases hd
  · exact ⟨hsame.symm.trans hs, hrx⟩
  · exact absurd hs (hn s)

/-- An edge brings an engine that follows nobody to a start bit. -/
theorem opens_of_capture (hw : e.Armed w) (ha : Wait.Admits w (.capture t)) (hn : ∀ s, e.state ≠ .follower s) :
    (e.after (.capture t)).state = .follower .startLow := by
  rcases hw.edge ha with hs | hs | ⟨s, hs, -⟩
  · exact startLow_of_edge t (.inl hs)
  · exact startLow_of_edge t (.inr hs)
  · exact absurd hs (hn s)

theorem not_follower_onTimeout (h : ∀ s, e.state ≠ .follower s) (line : Reading) (u : Follower) :
    (e.onTimeout line).engine.state ≠ .follower u := by
  have hx := e.onTimeout_lapses line
  generalize (e.onTimeout line).engine = d at hx
  cases hx with
  | same => exact h u
  | quit | ended => exact ne_follower_quit _ u
  | again | goes => simp
  | answers hs => exact absurd hs (h _)

theorem breaks_iff : Turn.breaks ⟨e, c⟩ = true ↔ Turn.opens ⟨e, c⟩ = true ∨ (e.after c).state = .disabled := by
  rw [Turn.breaks, Bool.or_eq_true, beq_iff_eq]
  rfl

/-- Over a turn that breaks nothing nobody is switched off, and a start bit that is followed was followed
before. -/
theorem of_not_breaks (h : ¬ Turn.breaks ⟨e, c⟩ = true) : (e.after c).state ≠ .disabled ∧
    ((e.after c).state = .follower .startLow → e.state = .follower .startLow) := by
  rw [breaks_iff, not_or] at h
  exact ⟨h.2, fun hs => Decidable.byContradiction fun hne => h.1 (Turn.opens_iff.2 ⟨hne, hs⟩)⟩

theorem not_breaks_of_calm (hc : c.isEvent = false) {s : Follower} (hs : (e.after c).state = .follower s) :
    ¬ Turn.breaks ⟨e, c⟩ = true := by
  rw [breaks_iff, Turn.opens_iff]
  rintro (⟨hne, hstart⟩ | hoff)
  · exact hne (follower_of_calm hc hstart).1
  · cases hs.symm.trans hoff

theorem Heard.hear (h : e.Heard calls) (he : e.Steady) (hw : e.Armed w) (hc : c.isEvent = true → Wait.Admits w c) :
    (e.after c).Heard (Turn.hear calls ⟨e, c⟩) := by
  intro s hs
  by_cases hev : c.isEvent = true
  · have hnote := h.after he hw (hc hev) s hs
    have hsame : Turn.hear calls ⟨e, c⟩ = Turn.note calls ⟨e, c⟩ := by
      have hon : ((⟨e, c⟩ : Turn).after.state == .disabled) = false := by
        show ((e.after c).state == .disabled) = false
        rw [hs]
        rfl
      simp only [Turn.hear, Turn.note, Turn.breaks, hon, Bool.or_false, hev, if_true]
    rwa [hsame]
  · rw [Bool.not_eq_true] at hev
    obtain ⟨hs', hrx⟩ := follower_of_calm hev hs
    rw [Turn.hear, if_neg (not_breaks_of_calm hev hs), hev, hrx]
    exact h s hs'

/-- One slot for each block of `m`, pulled where the address was the destination of `m`. -/
structure SlotsOf (m : Message) (ss : List Slot) : Prop where
  length : ss.length = m.length
  pulled : ∀ s ∈ ss, s.pulled = true ↔ s.address = m.destination

theorem slotsOf_nil : SlotsOf [] [] := ⟨rfl, fun _ hs => by cases hs⟩

/-- The slot of one more block. The destination is known from the first block on. -/
theorem SlotsOf.append (h : SlotsOf m ss) {byte : UInt8} {x : Slot}
    (hx : x.pulled = true ↔ x.address = (m ++ [byte]).destination) : SlotsOf (m ++ [byte]) (ss ++ [x]) where
  length := by rw [List.length_append, List.length_append, h.length]; rfl
  pulled := fun s hs => by
    rcases List.mem_append.1 hs with hs | hs
    · have hm : m ≠ [] := by
        rintro rfl
        rw [List.length_eq_zero_iff.1 h.length] at hs
        cases hs
      rw [Message.destination_append hm]
      exact h.pulled s hs
    · rw [List.mem_singleton.1 hs]
      exact hx

end Engine

def Follower.Slotted (s : Follower) (r : Incoming) (ss : List Engine.Slot) : Prop :=
  match s with
  | startLow | startHigh | debounce => ss = []
  | low f | high f => ∃ (m : Message) (bits : List Bool), r.buffer.taken = m.bits ++ bits ∧ bits.length ≤ 8 ∧
    f = .nth m.length bits.length ∧ Engine.SlotsOf m ss
  | ackLow | ackVerify | ackFinish => ∃ m : Message, r.buffer.taken = m.bits ∧ m ≠ [] ∧ Engine.SlotsOf m ss

namespace Engine

def Slotted (e : Engine) (ss : List Slot) : Prop := ∀ s, e.state = .follower s → s.Slotted e.rx ss

variable {e : Engine} {c : Call} {w : Option Wait} {calls : List Call} {ss : List Slot} {m : Message} {t : Ticks}
  {line : Reading}

theorem slotted_quit (e : Engine) (ss : List Slot) : e.quit.Slotted ss := fun s hs => absurd hs (ne_follower_quit e s)

theorem Slotted.startLow (h : e.Slotted ss) (hs : e.state = .follower .startLow) (t : Ticks) :
    (e.onCapture t).engine.Slotted ss := by
  have hnil : ss = [] := h _ hs
  by_cases ht : Symbol.start.ValidLow t
  · rw [onCapture_startLow_valid hs ht]
    intro s hu
    cases hu
    exact hnil
  · rcases onCapture_startLow_invalid hs ht with hq | hq <;> rw [hq]
    · exact slotted_quit _ _
    · intro s hu
      cases hu
      exact hnil

theorem Slotted.startHigh (h : e.Slotted ss) (hs : e.state = .follower .startHigh) (he : e.Steady) (t : Ticks) :
    (e.onCapture t).engine.Slotted ss := by
  have hnil : ss = [] := h _ hs
  rw [onCapture_startHigh hs]
  split
  · intro s hu
    cases hu
    have hpos : e.rx.buffer.pos = 0 := he.cursor .startHigh hs
    refine ⟨[], [], ?_, Nat.zero_le 8, rfl, hnil ▸ slotsOf_nil⟩
    show (List.range e.rx.buffer.pos).map _ = []
    rw [hpos]
    rfl
  · exact slotted_quit _ _

theorem Slotted.low (h : e.Slotted ss) (hh : e.Heard calls) {f : BitKind} (hs : e.state = .follower (.low f)) (t : Ticks) :
    (e.onCapture t).engine.Slotted ss := by
  have hm : e.rx.Measures f calls := hh _ hs
  cases hb : bitOfLow? t with
  | none =>
    rw [onCapture_low_invalid hs hb]
    exact slotted_quit _ _
  | some b =>
    obtain ⟨hs', -, -, htaken⟩ := onCapture_bit_low hs hb hm.pos
    intro s hu
    rw [hs'] at hu
    cases hu
    obtain ⟨m, bits, hold, hrest⟩ := h _ hs
    exact ⟨m, bits, htaken.trans hold, hrest⟩

theorem Slotted.high (h : e.Slotted ss) (hh : e.Heard calls) {f : BitKind} (hs : e.state = .follower (.high f))
    (hf : f ≠ .eom) (t : Ticks) : (e.onCapture t).engine.Slotted ss := by
  obtain ⟨-, earlier, -, hm⟩ := hh _ hs
  by_cases ht : (Symbol.ofBit (e.rx.bit f)).ValidTotal e.rx.lowTicks t
  · obtain ⟨hs', htaken⟩ := onCapture_bit_high hs hf ht (hm.pos hf)
    obtain ⟨m, bits, hold, hn, hnth, hslots⟩ := h _ hs
    intro s hu
    rw [hs'] at hu
    cases hu
    rw [hnth, Ne, BitKind.nth_eq_eom_iff] at hf
    refine ⟨m, bits ++ [e.rx.bit f], ?_, ?_, ?_, hslots⟩
    · rw [htaken, hold, List.append_assoc]
    · rw [List.length_append, List.length_singleton]
      omega
    · rw [hnth, List.length_append, List.length_singleton]
      refine BitKind.next_nth (by omega) ?_
      rw [BitBuffer.pos_advance (hm.pos (by rwa [hnth, Ne, BitKind.nth_eq_eom_iff])), BitBuffer.pos_of_taken hold]
      omega
  · rw [onCapture_high_invalid hs ht]
    exact slotted_quit _ _

/-- The slot of a block begins after its EOM bit, and is pulled if the address is the destination then. -/
theorem pulls_slot (hs : e.state = .follower (.high .eom))
    (ht : (Symbol.ofBit e.rx.eom).ValidTotal e.rx.lowTicks t) :
    .set .low ∈ (e.onCapture t).actions ↔ e.rx.destination = e.address := by
  by_cases ha : e.rx.destination = e.address <;>
    simp [Engine.onCapture, edgeMove?, hs, Incoming.onEdge, Incoming.bit, ht, Incoming.endBit, perform, enter, target,
      entry, followerEntry, Entry.actions, ha]

theorem Slotted.high_eom (h : e.Slotted ss) (hs : e.state = .follower (.high .eom)) (t : Ticks) :
    (e.onCapture t).engine.Slotted (Turn.slot ss ⟨e, .capture t⟩) := by
  by_cases ht : (Symbol.ofBit (e.rx.bit .eom)).ValidTotal e.rx.lowTicks t
  · have hafter : (⟨e, .capture t⟩ : Turn).after = { e with state := .follower .ackLow } := onCapture_high_eom hs ht
    have hslot : Turn.slot ss ⟨e, .capture t⟩ =
        ss ++ [⟨e.address, decide (.set .low ∈ (e.onCapture t).actions)⟩] := by
      rw [Turn.slot, Turn.breaks, Turn.opens, hafter, if_neg (by simp), if_pos ⟨by rw [hs]; simp, rfl⟩]
      rfl
    obtain ⟨m, bits, hold, hn, hnth, hslots⟩ := h _ hs
    obtain ⟨byte, rfl⟩ := BitBuffer.exists_byte hold (BitKind.nth_eq_eom_iff.1 hnth.symm)
    have htaken : e.rx.buffer.taken = (m ++ [byte]).bits := hold.trans (m.bits_append byte).symm
    rw [onCapture_high_eom hs ht]
    intro s hu
    cases hu
    refine ⟨m ++ [byte], htaken, by simp, ?_⟩
    rw [hslot]
    refine hslots.append (decide_eq_true_iff.trans ((pulls_slot hs ht).trans ?_))
    rw [Incoming.destination_of_taken htaken (by simp), eq_comm]
  · rw [onCapture_high_invalid hs ht]
    exact slotted_quit _ _

theorem Slotted.ackFinish (h : e.Slotted ss) (hs : e.state = .follower .ackFinish) (t : Ticks) :
    (e.onCapture t).engine.Slotted ss := by
  obtain ⟨m, htaken, hm, hslots⟩ := h _ hs
  rw [onCapture_ackFinish hs]
  intro s hu
  cases hu
  refine ⟨m, [], by rw [htaken, List.append_nil], Nat.zero_le 8, ?_, hslots⟩
  cases m with
  | nil => exact absurd rfl hm
  | cons => rfl

theorem Slotted.onTimeout (h : e.Slotted ss) (line : Reading) : (e.onTimeout line).engine.Slotted ss := by
  intro u hu
  cases hs : e.state with
  | follower s =>
    by_cases h1 : s = .ackLow
    · subst h1
      rw [onTimeout_follower_ackLow hs] at hu ⊢
      cases hu
      exact h .ackLow hs
    by_cases h2 : s = .ackVerify
    · subst h2
      cases hr : e.rx.refused with
      | true =>
        rw [onTimeout_refused hs hr] at hu
        exact absurd hu (ne_follower_quit _ u)
      | false =>
        rw [onTimeout_follower_ackVerify hs hr] at hu ⊢
        cases hu
        exact h .ackVerify hs
    · rw [onTimeout_follower hs h1 h2] at hu
      exact absurd hu (ne_follower_quit _ u)
  | _ => exact absurd hu (not_follower_onTimeout (fun s => by rw [hs]; simp) line u)

/-- A slot begins only where an EOM bit ends. -/
theorem ackLow_entered (hs : e.state ≠ .follower .ackLow) (hev : c.isEvent = true)
    (hc : (e.after c).state = .follower .ackLow) : e.state = .follower (.high .eom) ∧ ∃ t, c = .capture t := by
  cases c with
  | capture t =>
    have hx := e.onCapture_hears t
    have hc : (e.onCapture t).engine.state = .follower .ackLow := hc
    generalize (e.onCapture t).engine = d at hx hc
    cases hx with
    | same => exact absurd hc hs
    | quit => exact absurd hc (ne_follower_quit _ _)
    | opens => cases hc
    | @goes s u r hf hl =>
      cases hc
      refine ⟨?_, t, rfl⟩
      cases s with
      | high f => cases f <;> first | exact hf | cases hl
      | _ => cases hl
  | timeout line =>
    have hx := e.onTimeout_lapses line
    have hc : (e.onTimeout line).engine.state = .follower .ackLow := hc
    generalize (e.onTimeout line).engine = d at hx hc
    cases hx with
    | same => exact absurd hc hs
    | quit | ended => exact absurd hc (ne_follower_quit _ _)
    | again | goes => cases hc
    | answers _ hl =>
      cases hc
      rcases hl with ⟨-, h⟩ | ⟨-, h, -⟩ <;> cases h
  | _ => cases hev

theorem slot_same (hb : ¬ Turn.breaks ⟨e, c⟩ = true)
    (hn : (e.after c).state = .follower .ackLow → e.state = .follower .ackLow) : Turn.slot ss ⟨e, c⟩ = ss := by
  rw [Turn.slot, if_neg hb]
  exact if_neg fun h => h.1 (hn h.2)

theorem Slotted.capture (h : e.Slotted ss) (hh : e.Heard calls) (he : e.Steady) (hw : e.Armed w)
    (hc : Wait.Admits w (.capture t)) (hb : ¬ Turn.breaks ⟨e, .capture t⟩ = true) :
    (e.onCapture t).engine.Slotted (Turn.slot ss ⟨e, .capture t⟩) := by
  by_cases heom : e.state = .follower (.high .eom)
  · exact h.high_eom heom t
  have hslot : Turn.slot ss ⟨e, .capture t⟩ = ss :=
    slot_same hb fun hack => Decidable.byContradiction fun hne => heom (ackLow_entered hne rfl hack).1
  rw [hslot]
  have opened : ∀ {s}, e.state = s → (∀ u, s ≠ .follower u) → (e.onCapture t).engine.Slotted ss := by
    rintro s rfl hs
    have hstart := (of_not_breaks hb).2 (opens_of_capture hw hc hs)
    exact absurd hstart (hs _)
  rcases hw.edge hc with hs | ⟨s, hs, -⟩ | ⟨s, hs, hedge⟩
  · exact opened hs (by simp)
  · exact opened hs (by simp)
  · cases s with
    | startLow => exact h.startLow hs t
    | startHigh => exact h.startHigh hs he t
    | low f => exact h.low hh hs t
    | high f => exact h.high hh hs (by rintro rfl; exact heom hs) t
    | ackFinish => exact h.ackFinish hs t
    | debounce | ackLow | ackVerify => cases hedge

theorem Slotted.slot (h : e.Slotted ss) (hh : e.Heard calls) (he : e.Steady) (hw : e.Armed w)
    (hc : c.isEvent = true → Wait.Admits w c) : (e.after c).Slotted (Turn.slot ss ⟨e, c⟩) := by
  intro s hs
  by_cases hb : Turn.breaks ⟨e, c⟩ = true
  · rw [Turn.slot, if_pos hb]
    rcases breaks_iff.1 hb with ho | hoff
    · cases hs.symm.trans (Turn.opens_iff.1 ho).2
      rfl
    · cases hs.symm.trans hoff
  by_cases hev : c.isEvent = true
  · cases c with
    | capture t => exact h.capture hh he hw (hc hev) hb s hs
    | timeout line =>
      rw [slot_same hb fun hack => Decidable.byContradiction fun hne => ?_]
      · exact h.onTimeout line s hs
      · obtain ⟨-, t, ht⟩ := ackLow_entered hne hev hack
        cases ht
    | _ => cases hev
  · rw [Bool.not_eq_true] at hev
    obtain ⟨hs', hrx⟩ := follower_of_calm hev hs
    rw [slot_same hb fun hack => hs'.trans (hs.symm.trans hack), hrx]
    exact h s hs'

/-! A frame that is played again to an engine that nothing else disturbs. -/

variable {d k : Engine} {own : LogicalAddress}

def Echoes (k e : Engine) : Prop :=
  (∃ s, k.state = .follower s ∧ e.state = .follower s ∧ k.rx = e.rx) ∨
    (∀ s, k.state ≠ .follower s) ∧ ∀ s, e.state ≠ .follower s

/-- What entering a state makes of a follower depends on what it has heard, and on nothing else. -/
theorem echoes_enter (hr : k.rx = e.rx) (s : State) (line : Reading) :
    (k.enter s line).engine.Echoes (e.enter s line).engine := by
  cases s with
  | disabled => exact .inr ⟨fun u => by simp [state_enter, target], fun u => by simp [state_enter, target]⟩
  | idle => rw [enter_idle, enter_idle]; exact .inr ⟨ne_follower_quit k, ne_follower_quit e⟩
  | initiator s => exact .inr ⟨fun u => by simp [state_enter, target], fun u => by simp [state_enter, target]⟩
  | follower s =>
    refine .inl ⟨s, by simp [state_enter, target], by simp [state_enter, target], ?_⟩
    cases s with
    | ackFinish => simp only [enter, target, reduceCtorEq, false_and, if_false, entry, engine_ackFinish, hr]
    | _ => simp [enter, target, entry, followerEntry, hr]

theorem onCapture_follower {s : Follower} (hs : e.state = .follower s) : (e.onCapture t).engine =
    match e.rx.onEdge s t with
    | some (r, next) => (({ e with rx := r } : Engine).enter next none).engine
    | none => e := by
  simp only [Engine.onCapture, edgeMove?, hs]
  cases e.rx.onEdge s t <;> rfl

theorem Echoes.capture (h : k.Echoes e) {s : Follower} (hs : e.state = .follower s) (t : Ticks) :
    (k.onCapture t).engine.Echoes (e.onCapture t).engine := by
  rcases h with ⟨u, hk, he, hr⟩ | ⟨-, hn⟩
  · rw [onCapture_follower hk, onCapture_follower he, hr]
    cases e.rx.onEdge u t with
    | none => exact .inl ⟨u, hk, he, hr⟩
    | some p => exact echoes_enter (k := { k with rx := p.1 }) (e := { e with rx := p.1 }) rfl p.2 none
  · exact absurd hs (hn s)

theorem Echoes.timeout (h : k.Echoes e) (line : Reading) : (k.onTimeout line).engine.Echoes (e.onTimeout line).engine := by
  rcases h with ⟨u, hk, he, hr⟩ | ⟨hk, he⟩
  · unfold Engine.onTimeout
    rw [deadlineMove?, deadlineMove?, hk, he]
    cases u with
    | ackLow => exact echoes_enter hr (.follower .ackVerify) line
    | ackVerify =>
      rw [hr]
      cases e.rx.refused with
      | true => exact echoes_enter hr .idle line
      | false => exact echoes_enter hr (.follower .ackFinish) line
    | _ => exact echoes_enter hr .idle line
  · exact .inr ⟨not_follower_onTimeout hk line, not_follower_onTimeout he line⟩

/-- Short of an event a follower still echoes what it did, unless it is switched off. -/
theorem Echoes.calm (h : k.Echoes e) (hc : c.isEvent = false) (hon : (e.after c).state ≠ .disabled) :
    k.Echoes (e.after c) := by
  rcases after_calm hc with hd | ⟨hs, hr⟩ | ⟨hn, hn'⟩
  · exact absurd hd hon
  · rcases h with ⟨s, hk, he, hrx⟩ | ⟨hk, he⟩
    · exact .inl ⟨s, hk, hs.trans he, hrx.trans hr.symm⟩
    · exact .inr ⟨hk, fun s => hs ▸ he s⟩
  · rcases h with ⟨s, -, he, -⟩ | ⟨hk, -⟩
    · exact absurd he (hn s)
    · exact .inr ⟨hk, hn'⟩

/-- What has been heard is what came to an engine with this address since it began to follow, and an
engine that follows is where that one is. Before the first start bit there is nothing of the kind. -/
def Replays (own : LogicalAddress) (e : Engine) (calls : List Call) : Prop :=
  (calls = [] ∧ ∀ s, e.state ≠ .follower s) ∨ (∃ line rest, calls = .timeout line :: rest) ∨
    ∃ d : Engine, d.Steady ∧ d.state = .follower .startLow ∧ (d.run calls).address = own ∧ (d.run calls).Echoes e

theorem Replays.event (h : e.Replays own calls) (hw : e.Armed w) (hc : Wait.Admits w c)
    (hb : ¬ Turn.breaks ⟨e, c⟩ = true) : (e.after c).Replays own (calls ++ [c]) := by
  rcases h with ⟨rfl, hn⟩ | ⟨line, rest, rfl⟩ | ⟨d, hd, hstart, haddr, hecho⟩
  · cases c with
    | capture t => exact absurd ((of_not_breaks hb).2 (opens_of_capture hw hc hn)) (hn _)
    -- A deadline of a frame of its own comes first, so this will not be a frame.
    | timeout line => exact .inr (.inl ⟨line, [], rfl⟩)
    | _ => exact hc.elim
  · exact .inr (.inl ⟨line, _, rfl⟩)
  · refine .inr (.inr ⟨d, hd, hstart, ?_, ?_⟩) <;> rw [run_append]
    · cases c with
      | capture t => exact (address_onCapture _ t).trans haddr
      | timeout line => exact (address_onTimeout _ line).trans haddr
      | _ => exact hc.elim
    · cases c with
      | capture t =>
        cases hs : e.state with
        | follower s => exact hecho.capture hs t
        | _ =>
          have hstart := (of_not_breaks hb).2 (opens_of_capture hw hc fun s => by rw [hs]; simp)
          cases hs.symm.trans hstart
      | timeout line => exact hecho.timeout line
      | _ => exact hc.elim

theorem Replays.hear (h : e.Replays own calls) (he : e.Steady) (hw : e.Armed w)
    (hc : c.isEvent = true → Wait.Admits w c) : (e.after c).Replays own (Turn.hear calls ⟨e, c⟩) := by
  by_cases hb : Turn.breaks ⟨e, c⟩ = true
  · rw [Turn.hear, if_pos hb]
    rcases breaks_iff.1 hb with ho | hoff
    · rw [Turn.opens_iff] at ho
      have hs := he.after c
      -- The engine itself, under the address of the frame, is the one to play the frame to.
      refine .inr (.inr ⟨{ e.after c with address := own }, ⟨hs.tx, hs.busy, hs.off, hs.blank, hs.cursor⟩, ho.2, rfl, ?_⟩)
      exact .inl ⟨.startLow, ho.2, ho.2, rfl⟩
    · exact .inl ⟨rfl, fun s => by rw [show (e.after c).state = _ from hoff]; simp⟩
  rw [Turn.hear, if_neg hb]
  by_cases hev : c.isEvent = true
  · rw [if_pos hev]
    exact h.event hw (hc hev) hb
  · rw [if_neg hev]
    rw [Bool.not_eq_true] at hev
    rcases h with ⟨rfl, hn⟩ | hline | ⟨d, hd, hstart, haddr, hecho⟩
    · refine .inl ⟨rfl, fun s hs => hn s (follower_of_calm hev hs).1⟩
    · exact .inr (.inl hline)
    · exact .inr (.inr ⟨d, hd, hstart, haddr, hecho.calm hev (of_not_breaks hb).1⟩)

/-- An engine that is asked anything at any time, while events come only where they are armed. -/
structure Listens (own : LogicalAddress) (e : Engine) (w : Option Wait) (calls : List Call) (ss : List Slot) : Prop where
  steady : e.Steady
  attends : e.Attends w
  heard : e.Heard calls
  slotted : e.Slotted ss
  replays : e.Replays own calls

theorem Listens.after (h : e.Listens own w calls ss) (hc : c.isEvent = true → Wait.Admits w c) :
    (e.after c).Listens own (Turn.leave w ⟨e, c⟩) (Turn.hear calls ⟨e, c⟩) (Turn.slot ss ⟨e, c⟩) where
  steady := h.steady.after c
  attends := h.attends.after h.steady hc
  heard := h.heard.hear h.steady h.attends.armed hc
  slotted := h.slotted.slot h.heard h.steady h.attends.armed hc
  replays := h.replays.hear h.steady h.attends.armed hc

theorem Listens.turns (h : e.Listens own w calls ss) {more : List Call} (hm : e.Heeds w more) :
    (e.run more).Listens own ((e.turns more).foldl Turn.leave w) ((e.turns more).foldl Turn.hear calls)
      ((e.turns more).foldl Turn.slot ss) := by
  induction more generalizing e w calls ss with
  | nil => exact h
  | cons x rest ih => exact ih (h.after hm.1) hm.2

theorem Listens.run (h : e.Listens own w calls ss) {more : List Call} (hm : e.Heeds w (more ++ [c])) :
    ∃ v, (c.isEvent = true → Wait.Admits v c) ∧ (e.run more).Listens own v ((e.turns more).foldl Turn.hear calls)
      ((e.turns more).foldl Turn.slot ss) := by
  obtain ⟨hmore, hc, -⟩ := heeds_append.1 hm
  exact ⟨_, hc, h.turns hmore⟩

theorem listens_new (own : LogicalAddress) : ({} : Engine).Listens own none [] [] where
  steady := steady_new
  attends := attends_new
  heard := fun s hs => by cases hs
  slotted := fun s hs => by cases hs
  replays := .inl ⟨rfl, fun s => by simp⟩

/-- A whole frame is at the end of its last slot, and there was one slot for each of its blocks. -/
theorem Listens.whole (h : e.Listens own w calls ss) (hf : WellFormed own m (calls ++ [c])) :
    (∃ line, c = .timeout line) ∧ SlotsOf m ss ∧ ({ e with address := own } : Engine).verdict = some (.received m) := by
  obtain ⟨line, rfl⟩ := hf.last
  refine ⟨⟨line, rfl⟩, ?_⟩
  rcases h.replays with ⟨rfl, -⟩ | ⟨line', rest, rfl⟩ | ⟨d, hd, hstart, haddr, hecho⟩
  · exact absurd hf.two_le_length (by simp)
  · obtain ⟨low, rest', hfirst⟩ := hf.first
    cases hfirst
  · have hreply := received_of_frame hd hstart hf haddr
    generalize d.run calls = k at haddr hecho hreply
    have hverdict : k.verdict = some (.received m) := by
      rw [← outcome_onTimeout k line]
      exact Reply.completion.inj hreply
    obtain ⟨hk, -, -, hm⟩ := received_of_verdict hverdict
    rcases hecho with ⟨s, hs, he, hr⟩ | ⟨hn, -⟩
    · cases hk.symm.trans hs
      obtain ⟨m', htaken, -, hslots⟩ := h.slotted .ackVerify he
      have hsame : m = m' := by
        rw [hm, hr]
        exact BitBuffer.completed_of_taken htaken
      refine ⟨hsame ▸ hslots, ?_⟩
      rw [← hverdict, verdict, verdict, hk, he, hears, hears, hr, haddr]
    · exact absurd hk (hn _)

theorem Listens.deadline (h : e.Listens own w calls ss) (hc : c.isEvent = true → Wait.Admits w c)
    (hreply : (e.answer c).1 = .completion (some (.received m))) :
    (∃ line, c = .timeout line) ∧ e.verdict = some (.received m) := by
  have hx := e.answers c
  generalize hy : e.answer c = y at hx hreply
  cases hx with
  | edge =>
    rw [h.attends.armed.outcome_onCapture (hc rfl)] at hreply
    cases hreply
  | @deadline line =>
    exact ⟨⟨line, rfl⟩, (outcome_onTimeout e line).symm.trans (Reply.completion.inj hreply)⟩
  | _ => cases hreply

/-- A frame for one device is handed over where it is whole, if it is for the address of that moment. -/
theorem Listens.received_iff (h : e.Listens own w calls ss) (hc : c.isEvent = true → Wait.Admits w c)
    (hown : m.destination = own) (hm : m.destination.isBroadcast = false) :
    (e.answer c).1 = .completion (some (.received m)) ↔ WellFormed own m (calls ++ [c]) ∧ e.address = own := by
  constructor
  · intro hreply
    obtain ⟨⟨line, rfl⟩, hverdict⟩ := h.deadline hc hreply
    have hframe := (h.heard.frame line hverdict).2
    have haddr : e.address = own := by
      rcases hframe.meant with hd | hb
      · exact hd.symm.trans hown
      · rw [hm] at hb
        cases hb
    exact ⟨haddr ▸ hframe, haddr⟩
  · rintro ⟨hframe, rfl⟩
    obtain ⟨⟨line, rfl⟩, -, hverdict⟩ := h.whole hframe
    show Reply.completion (e.onTimeout line).outcome = _
    rw [outcome_onTimeout]
    exact congrArg Reply.completion hverdict

/-- Among calls of every kind, with events only where they are armed: a frame for one device is handed over
where its last slot ends, if it is for the address of that moment. Each of its blocks had a slot, pulled
where it was for the address of that slot's beginning. If these addresses are the one of the end, then the
frame is handed over just if every slot was pulled. -/
theorem received_and_slots {calls : List Call} {c : Call} (h : ({} : Engine).Heeds none (calls ++ [c])) {m : Message}
    (hm : m.destination.isBroadcast = false) :
    let e := ({} : Engine).run calls
    let whole := WellFormed m.destination m (frame (({} : Engine).turns calls) ++ [c])
    let ss := slots (({} : Engine).turns calls)
    ((e.answer c).1 = .completion (some (.received m)) ↔ whole ∧ e.address = m.destination) ∧
    (whole → ss.length = m.length ∧ ∀ s ∈ ss, s.pulled = true ↔ s.address = m.destination) ∧
    ((∀ s ∈ ss, s.address = e.address) →
      ((e.answer c).1 = .completion (some (.received m)) ↔ whole ∧ ∀ s ∈ ss, s.pulled = true)) := by
  intro e whole ss
  obtain ⟨v, hc, hl⟩ := (listens_new m.destination).run h
  have hiff : (e.answer c).1 = .completion (some (.received m)) ↔ whole ∧ e.address = m.destination :=
    hl.received_iff hc rfl hm
  have hslots : whole → SlotsOf m ss := fun hw => (hl.whole hw).2.1
  refine ⟨hiff, fun hw => ⟨(hslots hw).length, (hslots hw).pulled⟩, fun hsame => hiff.trans ⟨?_, ?_⟩⟩
  · rintro ⟨hw, haddr⟩
    exact ⟨hw, fun s hs => ((hslots hw).pulled s hs).2 ((hsame s hs).trans haddr)⟩
  · rintro ⟨hw, hall⟩
    have hlen : 0 < ss.length := by
      rw [(hslots hw).length]
      exact hw.length_pos
    have hs := List.getElem_mem hlen
    exact ⟨hw, (hsame _ hs).symm.trans (((hslots hw).pulled _ hs).1 (hall _ hs))⟩

/-- A poll of device 5. The address changes before the slot, within it and back again. -/
theorem received_and_slots_renamed :
    let zero : List Call := [.capture 1500, .capture 900]
    let one : List Call := [.capture 600, .capture 1800]
    let poll : List Call := (zero ++ one ++ zero ++ zero) ++ (zero ++ one ++ zero ++ one) ++ one
    let calls : List Call := [.setAddress ⟨7⟩, .setEnabled true, .capture 0, .capture 3700, .capture 800, .setAddress ⟨5⟩] ++
      poll ++ [.setAddress ⟨7⟩, .timeout none, .setAddress ⟨5⟩]
    let e := ({} : Engine).run calls
    ({} : Engine).Heeds none (calls ++ [.timeout none]) ∧ Message.destination [0x45] = ⟨5⟩ ∧
      slots (({} : Engine).turns calls) = [⟨⟨5⟩, true⟩] ∧ e.address = ⟨5⟩ ∧
      WellFormed ⟨5⟩ [0x45] (frame (({} : Engine).turns calls) ++ [.timeout none]) ∧
      (e.answer (.timeout none)).1 = .completion (some (.received [0x45])) := by
  intro zero one poll calls e
  have hheeds : ({} : Engine).Heeds none (calls ++ [.timeout none]) := by decide +kernel
  have hreply : (e.answer (.timeout none)).1 = .completion (some (.received [0x45])) := by decide +kernel
  obtain ⟨hiff, -, -⟩ := received_and_slots hheeds (m := [0x45]) (by decide)
  obtain ⟨hframe, haddr⟩ := hiff.1 hreply
  exact ⟨hheeds, rfl, by decide +kernel, haddr, hframe, hreply⟩

/-- A frame may be handed over whose only slot was left alone. It is not for the address that the engine has
when the slot begins, but for the one it has when the slot ends. -/
theorem received_without_ack : ¬ ∀ (calls : List Call) (c : Call) (m : Message), ({} : Engine).Heeds none (calls ++ [c]) →
    m.destination.isBroadcast = false →
    (((({} : Engine).run calls).answer c).1 = .completion (some (.received m)) ↔
      WellFormed m.destination m (frame (({} : Engine).turns calls) ++ [c]) ∧
        ∀ s ∈ slots (({} : Engine).turns calls), s.pulled = true) := by
  intro h
  let zero : List Call := [.capture 1500, .capture 900]
  let one : List Call := [.capture 600, .capture 1800]
  let poll : List Call := (zero ++ one ++ zero ++ zero) ++ (zero ++ one ++ zero ++ one) ++ one
  let calls : List Call := [.setAddress ⟨7⟩, .setEnabled true, .capture 0, .capture 3700, .capture 800] ++
    poll ++ [.setAddress ⟨5⟩, .timeout none]
  have hheeds : ({} : Engine).Heeds none (calls ++ [.timeout none]) := by decide +kernel
  have hreply : ((({} : Engine).run calls).answer (.timeout none)).1 = .completion (some (.received [0x45])) := by
    decide +kernel
  have hslots : slots (({} : Engine).turns calls) = [⟨⟨7⟩, false⟩] := by decide +kernel
  obtain ⟨-, hall⟩ := (h calls (.timeout none) [0x45] hheeds (by decide)).1 hreply
  have hpulled := hall ⟨⟨7⟩, false⟩ (by rw [hslots]; exact List.mem_singleton_self _)
  cases hpulled

end Engine
end HdmiCec
