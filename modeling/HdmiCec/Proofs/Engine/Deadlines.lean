import HdmiCec.Proofs.Engine.Listener
import HdmiCec.Proofs.Engine.Margin

/-! Deadlines on a frame of valid pulses. A follower gives the frame up when a level outlasts the deadline it has
set. Only a high level after a low one shorter than its window can do that; while none does, a follower that is
patient hears the very same (`deadlines_spare`). -/
namespace HdmiCec

open Engine (Call)

inductive Part where
  | symbol (s : Symbol)
  | slot (last : Bool)
  deriving DecidableEq, Repr

structure Pulse where
  part : Part
  low : Nat
  high : Nat
  deriving DecidableEq, Repr

def Symbol.lowLimit : Symbol → Nat
  | start => startLowLimit
  | zero | one => dataLowLimit

def Symbol.highLimit : Symbol → Nat
  | start => startHighLimit
  | zero | one => dataHighLimit

def ackHold : Nat := sampleTime + ackHoldAfterSample

namespace Pulse

/-- A symbol passes for what it is. An ACK slot begins like a bit, and if the frame goes on it does so when
the followers are through with the slot. -/
def Fits (p : Pulse) : Prop :=
  match p.part with
  | .symbol s => s.ValidLow p.low ∧ s.ValidTotal p.low p.high
  | .slot last => (bitOfLow? p.low).isSome = true ∧ (last = false → ackHold < p.low + p.high)

instance : (p : Pulse) → Decidable p.Fits
  | ⟨.symbol s, low, high⟩ => inferInstanceAs (Decidable (s.ValidLow low ∧ s.ValidTotal low high))
  | ⟨.slot _, _, _⟩ => inferInstanceAs (Decidable (_ ∧ (_ → _)))

def InTime (p : Pulse) : Prop :=
  match p.part with
  | .symbol s => p.high ≤ s.highLimit
  | .slot last => last = false → p.low + p.high ≤ ackHold + dataHighLimit

instance : (p : Pulse) → Decidable p.InTime
  | ⟨.symbol s, _, high⟩ => inferInstanceAs (Decidable (high ≤ s.highLimit))
  | ⟨.slot _, _, _⟩ => inferInstanceAs (Decidable (_ → _))

/-- No valid low level is too long for its deadline, and a valid high level is too long only in a start bit or a
one whose low level is shorter than its window. -/
theorem limits {s : Symbol} {low high : Nat} (h : Fits ⟨.symbol s, low, high⟩) :
    low ≤ s.lowLimit ∧ (s = .zero ∨ s.window.minLow ≤ low → high ≤ s.highLimit) := by
  cases s with
  | start =>
    obtain ⟨⟨-, hlow⟩, -, htotal⟩ : (3400 ≤ low ∧ low ≤ 4000) ∧ 4200 ≤ low + high ∧ low + high ≤ 5800 := h
    have hhigh : 3500 ≤ low → high ≤ 2300 := by omega
    exact ⟨hlow, fun hspare => hhigh (hspare.resolve_left (by decide))⟩
  | zero =>
    obtain ⟨⟨hlow, hlow'⟩, -, htotal⟩ : (1200 ≤ low ∧ low ≤ 1800) ∧ 1950 ≤ low + high ∧ low + high ≤ 2850 := h
    have hhigh : high ≤ 2450 := by omega
    exact ⟨hlow', fun _ => hhigh⟩
  | one =>
    obtain ⟨⟨-, hlow⟩, -, htotal⟩ : (300 ≤ low ∧ low ≤ 900) ∧ 1950 ≤ low + high ∧ low + high ≤ 2850 := h
    have hlimit : low ≤ 1800 := by omega
    have hhigh : 400 ≤ low → high ≤ 2450 := by omega
    exact ⟨hlimit, fun hspare => hhigh (hspare.resolve_left (by decide))⟩

end Pulse

/-- A frame up to somewhere: its blocks that are over, with their ACK slots, and the bits of the next one; no
bits if the frame is over. -/
inductive Waveform : Message → Option (List Bool) → List Pulse → Prop
  | start {low high : Nat} : Pulse.Fits ⟨.symbol .start, low, high⟩ →
      Waveform [] (some []) [⟨.symbol .start, low, high⟩]
  | bit {m : Message} {bits : List Bool} {ps : List Pulse} {b : Bool} {low high : Nat} : Waveform m (some bits) ps →
      bits.length ≤ 8 → Pulse.Fits ⟨.symbol (.ofBit b), low, high⟩ →
      Waveform m (some (bits ++ [b])) (ps ++ [⟨.symbol (.ofBit b), low, high⟩])
  | slot {m : Message} {byte : UInt8} {ps : List Pulse} {low high : Nat} :
      Waveform m (some (Byte.bits byte ++ [false])) ps → m.length + 1 < Message.maxLength →
      Pulse.Fits ⟨.slot false, low, high⟩ → Waveform (m ++ [byte]) (some []) (ps ++ [⟨.slot false, low, high⟩])
  | last {m : Message} {byte : UInt8} {eom : Bool} {ps : List Pulse} {low high : Nat} :
      Waveform m (some (Byte.bits byte ++ [eom])) ps → (eom = true ∨ m.length + 1 = Message.maxLength) →
      Pulse.Fits ⟨.slot true, low, high⟩ → Waveform (m ++ [byte]) none (ps ++ [⟨.slot true, low, high⟩])

theorem Waveform.length_lt {m : Message} {bits : Option (List Bool)} {ps : List Pulse} (h : Waveform m bits ps)
    (hb : bits.isSome = true) : m.length < Message.maxLength := by
  induction h with
  | start => exact Nat.zero_lt_succ 15
  | bit _ _ _ ih => exact ih rfl
  | slot _ hlt =>
    rw [List.length_append]
    exact hlt
  | last => cases hb

theorem Waveform.fits {m : Message} {bits : Option (List Bool)} {ps : List Pulse} (h : Waveform m bits ps) :
    ∀ p ∈ ps, p.Fits := by
  induction h with
  | start hfits => simpa using hfits
  | bit _ _ hfits ih | slot _ _ hfits ih | last _ _ hfits ih =>
    simp only [List.mem_append, List.mem_singleton, or_imp, forall_and, forall_eq]
    exact ⟨ih, hfits⟩

/-- No bit begins with a low level that passes for a start bit or for a glitch. -/
theorem low_of_bit {b : Bool} {low : Nat} (h : bitOfLow? low = some b) : 300 ≤ low ∧ low ≤ 1800 := by
  rw [bitOfLow?_eq_some_iff] at h
  cases b with
  | false =>
    have hlow : 1200 ≤ low ∧ low ≤ 1800 := h
    omega
  | true =>
    have hlow : 300 ≤ low ∧ low ≤ 900 := h
    omega

namespace Listener

variable {patient : Bool} {reads : List Call → Reading} {l : Listener} {n d : Nat}

def pulse (patient : Bool) (reads : List Call → Reading) (l : Listener) (p : Pulse) : Listener :=
  (((l.sees .falling).pass patient reads p.low).sees .rising).pass patient reads p.high

def play (patient : Bool) (reads : List Call → Reading) (l : Listener) (ps : List Pulse) : Listener :=
  ps.foldl (pulse patient reads) l

theorem pulse_of_low {p : Pulse} (hedge : l.Expects .falling)
    (hwait : (l.tell (.capture l.waited)).wait = some ⟨some .rising, some d⟩) (hlow : p.low ≤ d) :
    l.pulse patient reads p =
      ((l.tell (.capture l.waited)).tell (.capture p.low)).pass patient reads p.high := by
  generalize hk : l.tell (.capture l.waited) = k at hwait
  have hzero : k.waited = 0 := by rw [← hk]; rfl
  have hpass : k.pass patient reads p.low = k.later p.low := by
    refine pass_later fun d' hd' => ?_
    rw [deadline?_of_wait hwait hd', hzero]
    omega
  have hwait' : (k.later p.low).wait = some ⟨some .rising, some d⟩ := hwait
  have hrise : (k.later p.low).sees .rising = k.tell (.capture p.low) := by
    rw [Expects.sees ⟨_, hwait', rfl⟩]
    show (k.later p.low).tell (.capture (k.waited + p.low)) = _
    rw [hzero, Nat.zero_add]
    rfl
  rw [pulse, hedge.sees, hk, hpass, hrise]

theorem pulse_of_edges {p : Pulse} {d' : Nat} (hedge : l.Expects .falling)
    (hwait : (l.tell (.capture l.waited)).wait = some ⟨some .rising, some d⟩) (hlow : p.low ≤ d)
    (hwait' : ((l.tell (.capture l.waited)).tell (.capture p.low)).wait = some ⟨some .falling, some d'⟩)
    (hhigh : p.high ≤ d') :
    l.pulse patient reads p = ((l.tell (.capture l.waited)).tell (.capture p.low)).later p.high := by
  rw [pulse_of_low hedge hwait hlow]
  refine pass_later fun x hx => ?_
  rw [deadline?_of_wait hwait' hx]
  show 0 + p.high ≤ d'
  omega

/-- Where a listener stands when the next pulse of a frame is about to begin. The edge will find it before the
next bit of a block or before the ACK slot, unless somebody has refused the frame. -/
structure Stands (l : Listener) (m : Message) (bits : List Bool) : Prop where
  keeps : l.Keeps
  edge : l.Expects .falling
  place : l.engine.Rests ∨ bits.length ≤ 8 ∧ (l.engine.after (.capture l.waited)).Taking m bits ∨
    ∃ byte eom, bits = Byte.bits byte ++ [eom] ∧ (l.engine.after (.capture l.waited)).Answering (m ++ [byte]) eom

variable {m : Message} {bits : List Bool} {low high : Nat}

theorem Keeps.stands_start (h : l.Keeps) (hw : l.engine.Watches) (hfits : Pulse.Fits ⟨.symbol .start, low, high⟩)
    (hin : Pulse.InTime ⟨.symbol .start, low, high⟩) :
    ∃ k, (∀ patient, l.pulse patient reads ⟨.symbol .start, low, high⟩ = k) ∧ k.Stands [] [] := by
  have hedge := h.expects hw
  have hd := h.tell (hedge.admits l.waited)
  have hs : (l.tell (.capture l.waited)).engine.state = .follower .startLow := Engine.startLow_of_edge l.waited hw
  have hwait := hd.attends.follower hs (by decide)
  have hk := hd.tell (Expects.admits ⟨_, hwait, rfl⟩ low)
  have hs' : ((l.tell (.capture l.waited)).tell (.capture low)).engine.state = .follower .startHigh := by
    show ((l.tell (.capture l.waited)).engine.onCapture low).engine.state = _
    rw [Engine.onCapture_startLow_valid hs hfits.1]
  have hwait' := hk.attends.follower hs' (by decide)
  refine ⟨_, fun patient => pulse_of_edges hedge hwait (Pulse.limits hfits).1 hwait' hin, hk.later high,
    ⟨_, hwait', rfl⟩, .inr (.inl ⟨Nat.zero_le 8, ?_⟩)⟩
  have hbegun : Grammar.Begun [] [] [.capture low, .capture high] :=
    .start (StartPulse.ofLow_eq_valid_iff.2 hfits.1) hfits.2
  have htaking := Engine.taking_of_begun hd.steady hs hbegun fun _ _ hmem => by cases hmem
  show (((l.tell (.capture l.waited)).tell (.capture low)).engine.after (.capture (0 + high))).Taking [] []
  rw [Nat.zero_add]
  exact htaking

theorem Keeps.rests_pulse (h : l.Keeps) (hr : l.engine.Rests) {p : Pulse} (hlow : 300 ≤ p.low ∧ p.low ≤ 1800)
    (reads : List Call → Reading) :
    ∃ k : Listener, k.Keeps ∧ k.engine.Rests ∧ k.waited = 0 ∧
      ∀ patient, l.pulse patient reads p = k.pass patient reads p.high := by
  have hedge := h.expects hr.watches
  have hd := h.tell (hedge.admits l.waited)
  have hs : (l.tell (.capture l.waited)).engine.state = .follower .startLow := Engine.startLow_of_edge l.waited hr.watches
  have hwait : (l.tell (.capture l.waited)).wait = some ⟨some .rising, some 4000⟩ := hd.attends.follower hs (by decide)
  refine ⟨_, hd.tell (Expects.admits ⟨_, hwait, rfl⟩ p.low), ?_, rfl, fun patient => pulse_of_low hedge hwait (by omega)⟩
  show ((l.tell (.capture l.waited)).engine.onCapture p.low).engine.Rests
  rw [Engine.onCapture_startLow_quit hs (StartPulse.ofLow_eq_invalid (.inl (by omega)))]
  exact Engine.quit_rests _

/-- Even after a refusal the line has to be free for two bits before a device speaks. -/
theorem Keeps.rests_pass (h : l.Keeps) (hr : l.engine.Rests) (hn : l.waited + n ≤ 4800) :
    l.pass patient reads n = l.later n := by
  refine pass_later fun d hd => ?_
  rcases hr with hs | hs
  · rw [deadline?, h.attends.idle hs, Option.bind_some] at hd
    split at hd <;> cases hd
  · rw [deadline?_of_wait (h.attends.initiator hs) hd]
    have hfree : 4800 ≤ Initiator.freeTime.span l.engine.tx := by
      show 4800 ≤ l.engine.tx.freeTime.ticks
      cases l.engine.tx.freeTime <;> decide
    exact Nat.le_trans hn hfree

theorem Keeps.stands_rests (h : l.Keeps) (hr : l.engine.Rests) {p : Pulse} (hlow : 300 ≤ p.low ∧ p.low ≤ 1800)
    (hhigh : p.high ≤ 4800) : ∃ k, (∀ patient, l.pulse patient reads p = k) ∧ k.Stands m bits := by
  obtain ⟨k, hk, hr', hzero, hpulse⟩ := h.rests_pulse hr hlow reads
  refine ⟨k.later p.high, fun patient => ?_, hk.later _, hk.expects hr'.watches, .inl hr'⟩
  rw [hpulse, hk.rests_pass hr' (by omega)]

theorem Stands.bit (h : l.Stands m bits) (hm : m.length < Message.maxLength) (hn : bits.length ≤ 8) {b : Bool}
    (hfits : Pulse.Fits ⟨.symbol (.ofBit b), low, high⟩) (hin : Pulse.InTime ⟨.symbol (.ofBit b), low, high⟩) :
    ∃ k, (∀ patient, l.pulse patient reads ⟨.symbol (.ofBit b), low, high⟩ = k) ∧ k.Stands m (bits ++ [b]) := by
  have hbit := bitOfLow?_eq_some_iff.2 hfits.1
  have hlow := low_of_bit hbit
  have hhigh : high ≤ 2450 := by cases b <;> exact hin
  rcases h.place with hr | ⟨-, ht⟩ | ⟨byte, eom, rfl, -⟩
  · exact h.keeps.stands_rests hr hlow (by show high ≤ 4800; omega)
  · have hd := h.keeps.tell (h.edge.admits l.waited)
    have hwait : (l.tell (.capture l.waited)).wait = some ⟨some .rising, some 1800⟩ :=
      hd.attends.follower ht.state (by simp)
    have hk := hd.tell (Expects.admits ⟨_, hwait, rfl⟩ low)
    have hwait' : ((l.tell (.capture l.waited)).tell (.capture low)).wait = some ⟨some .falling, some 2450⟩ :=
      hk.attends.follower (ht.onCapture_low hm hn hbit).1 (by simp)
    refine ⟨_, fun patient => pulse_of_edges h.edge hwait hlow.2 hwait' hhigh, hk.later high, ⟨_, hwait', rfl⟩, .inr ?_⟩
    have hrun : (((l.tell (.capture l.waited)).tell (.capture low)).later high).engine.after (.capture (0 + high)) =
        (l.engine.after (.capture l.waited)).run [.capture low, .capture high] := by
      rw [Nat.zero_add]
      rfl
    show _ ∧ (Engine.after _ (.capture (0 + high))).Taking m _ ∨ ∃ byte eom, _ ∧
      (Engine.after _ (.capture (0 + high))).Answering (m ++ [byte]) eom
    rw [hrun]
    by_cases hlast : bits.length < 8
    · refine .inl ⟨?_, ht.bit hm hlast hbit hfits.2⟩
      rw [List.length_append, List.length_singleton]
      omega
    · obtain ⟨byte, rfl⟩ := BitBuffer.exists_byte ht.taken (by omega)
      exact .inr ⟨byte, b, rfl, ht.answering hbit hfits.2⟩
  · rw [List.length_append, Byte.length_bits, List.length_singleton] at hn
    omega

/-! The ACK slot. No edge interrupts a follower in it. -/

theorem deadline?_pause (hw : l.wait = some ⟨none, some d⟩) : l.deadline? patient = some d := by
  simp [deadline?, hw]

/-- While it lets time pass, an engine that waits for no end of a low level takes no notice of one. -/
theorem Keeps.pass_through (h : l.Keeps) (hs : l.engine.Settled) (a b : Nat) :
    (((l.pass patient reads a).sees .rising).pass patient reads b) = l.pass patient reads (a + b) := by
  have hsettled : (l.pass patient reads a).engine.Settled :=
    pass_preserves (fun e line _ => e.settled_onTimeout line) hs
  rw [h.pass.sees_rising hsettled, pass_add]

/-- The line is read once, then the answer ends. -/
theorem Keeps.slot_passes (h : l.Keeps) (hs : l.engine.state = .follower .ackLow) (h0 : l.waited = 0)
    (hn : 1500 < n) (reads : List Call → Reading) :
    let k := l.tell (.timeout (reads l.told)); let j := k.tell (.timeout (reads k.told))
    j.Keeps ∧ ∀ patient, l.pass patient reads n = (j.later 1).pass patient reads (n - 1501) := by
  have hpos : 0 < n := by omega
  have hfirst : 1050 < 0 + n := by omega
  have hsecond : 450 < 1 + (n - 1050 - 1) ∧ 0 < n - 1050 - 1 := by omega
  have hrest : n - 1050 - 1 - (450 - 1) - 1 = n - 1501 := by omega
  intro k j
  have hwait : l.wait = some ⟨none, some 1050⟩ := h.attends.follower hs (by decide)
  have hk : k.Keeps := h.tell ⟨_, hwait, rfl⟩
  have hs' : k.engine.state = .follower .ackVerify := by
    show (l.engine.onTimeout _).engine.state = _
    rw [Engine.onTimeout_follower_ackLow hs]
  have hwait' : k.wait = some ⟨none, some 450⟩ := hk.attends.follower hs' (by decide)
  refine ⟨hk.tell ⟨_, hwait', rfl⟩, fun patient => ?_⟩
  have hlater : (k.later 1).deadline? patient = some 450 := deadline?_pause hwait'
  have hanswer : (k.later 1).tell (.timeout (reads (k.later 1).told)) = j := rfl
  rw [pass_deadline (deadline?_pause hwait) (by rw [h0]; exact hfirst) hpos, h0]
  show (k.later 1).pass patient reads (n - 1050 - 1) = _
  rw [pass_deadline hlater hsecond.1 hsecond.2, hanswer]
  exact congrArg (fun r => (j.later 1).pass patient reads r) hrest

/-- What a follower is left with after its answer to a block that is not the last one. -/
theorem Keeps.end_answer (h : l.Keeps) {sample : Reading} (hv : l.engine.Judging m false sample) (hm : m ≠ [])
    (hlt : m.length < Message.maxLength) (line : Reading) : (l.tell (.timeout line)).engine.Rests ∨
      (l.tell (.timeout line)).wait = some ⟨some .falling, some 2450⟩ ∧
      ∀ gap, ((l.tell (.timeout line)).engine.after (.capture gap)).Taking m [] := by
  have hwait := h.attends.follower hv.state (by decide)
  have hj := h.tell (c := .timeout line) ⟨_, hwait, rfl⟩
  cases hr : l.engine.rx.refused with
  | true =>
    left
    show (l.engine.onTimeout line).engine.Rests
    rw [Engine.onTimeout_refused hv.state hr]
    exact Engine.quit_rests _
  | false =>
    have hs : (l.tell (.timeout line)).engine = { l.engine with state := .follower .ackFinish } :=
      Engine.onTimeout_follower_ackVerify hv.state hr
    have hmore : (l.tell (.timeout line)).engine.rx.isLast = false := by
      rw [hs, ← Bool.not_eq_true, Incoming.isLast_of_taken hv.taken, hv.eom]
      simp [hlt]
    refine .inr ⟨?_, hv.taking hm hr line⟩
    rw [hj.attends.follower (s := .ackFinish) (by rw [hs]) (by decide), Follower.edge?, Follower.span, hmore]
    rfl

/-- A slot that does not end a frame leads to the edge of the next block, or away from a frame that was refused. -/
theorem Keeps.answering_pass (h : l.Keeps) (ha : l.engine.Answering m false) (hm : m ≠ [])
    (hlt : m.length < Message.maxLength) (h0 : l.waited = 0) (hlong : 1500 < n) (hshort : n ≤ 1500 + 2450) :
    ∃ k : Listener, (∀ patient, l.pass patient reads n = k) ∧ k.Keeps ∧ k.Expects .falling ∧
      (k.engine.Rests ∨ (k.engine.after (.capture k.waited)).Taking m []) := by
  have hverify : (l.tell (.timeout (reads l.told))).engine.Judging m false (reads l.told) := ha.judging hm _
  have hwait := h.attends.follower ha.state (by decide)
  have hk := h.tell (c := .timeout (reads l.told)) ⟨_, hwait, rfl⟩
  obtain ⟨hj, hpass⟩ := h.slot_passes ha.state h0 hlong reads
  generalize l.tell (.timeout (reads l.told)) = k at hk hj hpass hverify
  have hplace := hk.end_answer hverify hm hlt (reads k.told)
  have hone : ((k.tell (.timeout (reads k.told))).later 1).waited = 1 := rfl
  generalize (k.tell (.timeout (reads k.told))) = j at hj hpass hplace hone
  have htime : (j.later 1).waited + (n - 1501) ≤ 2450 := by
    rw [hone]
    omega
  refine ⟨(j.later 1).later (n - 1501), fun patient => ?_, (hj.later 1).later _, ?_⟩
  · rw [hpass]
    rcases hplace with hrests | ⟨hwait, -⟩
    · exact (hj.later 1).rests_pass hrests (Nat.le_trans htime (by decide))
    · refine pass_later fun d hd => ?_
      rw [deadline?_of_wait hwait hd]
      exact htime
  · rcases hplace with hrests | ⟨hwait, htaking⟩
    · exact ⟨((hj.expects hrests.watches).later 1).later _, .inl (by simpa using hrests)⟩
    · have hexpects : j.Expects .falling := ⟨_, hwait, rfl⟩
      exact ⟨(hexpects.later 1).later _, .inr (by simpa using htaking _)⟩

/-- In an ACK slot a pulse is nothing but time. -/
theorem Stands.pulse_slot (h : l.Stands m bits) {whole : Message} {eom : Bool}
    (ha : (l.engine.after (.capture l.waited)).Answering whole eom) {p : Pulse} :
    l.pulse patient reads p = (l.tell (.capture l.waited)).pass patient reads (p.low + p.high) := by
  have hd := h.keeps.tell (h.edge.admits l.waited)
  have hsettled : (l.tell (.capture l.waited)).engine.Settled := by
    intro s hs
    have hstate : (l.tell (.capture l.waited)).engine.state = .follower .ackLow := ha.state
    rw [hstate] at hs
    cases hs
    simp [Follower.edge?]
  rw [pulse, h.edge.sees, hd.pass_through hsettled]

/-- Once the bits of a block are over, its ACK slot comes. -/
theorem Stands.answering {byte : UInt8} {eom : Bool} (h : l.Stands m (Byte.bits byte ++ [eom])) :
    l.engine.Rests ∨ (l.engine.after (.capture l.waited)).Answering (m ++ [byte]) eom := by
  rcases h.place with hr | ⟨hn, -⟩ | ⟨byte', eom', hbits, ha⟩
  · exact .inl hr
  · rw [List.length_append, Byte.length_bits, List.length_singleton] at hn
    omega
  · obtain ⟨hbyte, heom⟩ := List.append_inj' hbits rfl
    obtain rfl := Byte.bits_injective hbyte
    obtain rfl : eom = eom' := List.head_eq_of_cons_eq heom
    exact .inr ha

theorem Stands.slot {byte : UInt8} (h : l.Stands m (Byte.bits byte ++ [false])) (hlt : m.length + 1 < Message.maxLength)
    (hfits : Pulse.Fits ⟨.slot false, low, high⟩) (hin : Pulse.InTime ⟨.slot false, low, high⟩) :
    ∃ k, (∀ patient, l.pulse patient reads ⟨.slot false, low, high⟩ = k) ∧ k.Stands (m ++ [byte]) [] := by
  obtain ⟨hbit, hlong⟩ := hfits
  obtain ⟨b, hb⟩ := Option.isSome_iff_exists.1 hbit
  have hshort : low + high ≤ 1500 + 2450 := hin rfl
  rcases h.answering with hr | ha
  · exact h.keeps.stands_rests hr (low_of_bit hb) (show high ≤ 4800 by omega)
  · have hd := h.keeps.tell (h.edge.admits l.waited)
    have hlen : (m ++ [byte]).length < Message.maxLength := by
      rw [List.length_append]
      exact hlt
    obtain ⟨k, hpass, hk, hedge, hplace⟩ := hd.answering_pass ha (by simp) hlen rfl (hlong rfl) hshort
    refine ⟨k, fun patient => (h.pulse_slot ha).trans (hpass patient), hk, hedge, ?_⟩
    exact hplace.imp id fun ht => .inl ⟨Nat.zero_le 8, ht⟩

/-- However long the line stays as it is after the last block, patience makes no difference. -/
theorem Stands.last {byte : UInt8} {eom : Bool} (h : l.Stands m (Byte.bits byte ++ [eom]))
    (hend : eom = true ∨ m.length + 1 = Message.maxLength) (hfits : Pulse.Fits ⟨.slot true, low, high⟩) :
    l.pulse false reads ⟨.slot true, low, high⟩ = l.pulse true reads ⟨.slot true, low, high⟩ := by
  obtain ⟨b, hb⟩ := Option.isSome_iff_exists.1 hfits.1
  rcases h.answering with hr | ha
  · obtain ⟨k, hk, hrests, -, hpulse⟩ := h.keeps.rests_pulse hr (low_of_bit hb) reads (p := ⟨.slot true, low, high⟩)
    have hclosing : k.engine.Closing := by
      refine Engine.closing_of_not_follower fun s hs => ?_
      rcases hrests with hs' | hs' <;> rw [hs] at hs' <;> cases hs'
    rw [hpulse, hpulse, hk.pass_eq hclosing]
  · have hd := h.keeps.tell (h.edge.admits l.waited)
    have hclosing : (l.tell (.capture l.waited)).engine.Closing := by
      intro s hs
      have hstate : (l.tell (.capture l.waited)).engine.state = .follower .ackLow := ha.state
      rw [hstate] at hs
      cases hs
      refine ⟨(Incoming.isLast_of_taken ha.taken).2 ?_, .inl rfl⟩
      rw [ha.eom, List.length_append]
      exact hend.imp id fun h => Nat.le_of_eq h.symm
    rw [h.pulse_slot ha, h.pulse_slot ha, hd.pass_eq hclosing]

theorem play_eq_leap (ps : List Pulse) : l.play patient reads ps = ps.foldl (fun l p =>
    (((l.sees .falling).leap patient reads p.low p.low).sees .rising).leap patient reads p.high p.high) l := by
  refine congrArg (fun step => ps.foldl step l) (funext fun l => funext fun p => ?_)
  rw [pulse, pass_eq_leap (Nat.le_refl _), pass_eq_leap (Nat.le_refl _)]

theorem play_append (ps : List Pulse) (p : Pulse) :
    l.play patient reads (ps ++ [p]) = (l.play patient reads ps).pulse patient reads p := by
  rw [play, List.foldl_append]
  rfl

/-- While all pulses are in time, a listener stands where the waveform does, patient or not. -/
theorem Keeps.play_waveform (h : l.Keeps) (hw : l.engine.Watches) {bits : Option (List Bool)} {ps : List Pulse}
    (hwave : Waveform m bits ps) (hin : ∀ p ∈ ps, p.InTime) :
    ∃ k, (∀ patient, l.play patient reads ps = k) ∧ ∀ bs, bits = some bs → k.Stands m bs := by
  induction hwave with
  | start hfits =>
    obtain ⟨k, hpulse, hk⟩ := h.stands_start hw hfits (hin _ List.mem_cons_self)
    exact ⟨k, hpulse, by rintro _ ⟨⟩; exact hk⟩
  | @bit m bits ps b low high hwave hn hfits ih =>
    obtain ⟨d, hplay, hd⟩ := ih fun p hp => hin p (List.mem_append_left _ hp)
    obtain ⟨k, hpulse, hk⟩ := (hd bits rfl).bit (hwave.length_lt rfl) hn hfits (hin _ (by simp))
    refine ⟨k, fun patient => ?_, by rintro _ ⟨⟩; exact hk⟩
    rw [play_append, hplay, hpulse]
  | @slot m byte ps low high hwave hlt hfits ih =>
    obtain ⟨d, hplay, hd⟩ := ih fun p hp => hin p (List.mem_append_left _ hp)
    obtain ⟨k, hpulse, hk⟩ := (hd _ rfl).slot hlt hfits (hin _ (by simp))
    refine ⟨k, fun patient => ?_, by rintro _ ⟨⟩; exact hk⟩
    rw [play_append, hplay, hpulse]
  | @last m byte eom ps low high hwave hend hfits ih =>
    obtain ⟨d, hplay, hd⟩ := ih fun p hp => hin p (List.mem_append_left _ hp)
    refine ⟨d.pulse true reads ⟨.slot true, low, high⟩, fun patient => ?_, fun _ hnone => by cases hnone⟩
    rw [play_append, hplay]
    cases patient with
    | false => exact (hd _ rfl).last hend hfits
    | true => rfl

/-! A poll from device 0 to device 4, whose symbols all have the same levels. -/

def poll (levels : Symbol → Nat × Nat) (slot : Nat × Nat) : List Pulse :=
  let pulse (s : Symbol) : List Pulse := [⟨.symbol s, (levels s).1, (levels s).2⟩]
  pulse .start ++ pulse .zero ++ pulse .zero ++ pulse .zero ++ pulse .zero ++ pulse .zero ++ pulse .one ++ pulse .zero ++
    pulse .zero ++ pulse .one ++ [⟨.slot true, slot.1, slot.2⟩]

theorem waveform_poll {levels : Symbol → Nat × Nat} {slot : Nat × Nat}
    (hfits : ∀ s, Pulse.Fits ⟨.symbol s, (levels s).1, (levels s).2⟩) (hslot : Pulse.Fits ⟨.slot true, slot.1, slot.2⟩) :
    Waveform [4] none (poll levels slot) := by
  refine .last (m := []) (?_ : Waveform [] (some (Byte.bits 4 ++ [true])) _) (.inl rfl) hslot
  show Waveform [] (some ([] ++ [false] ++ [false] ++ [false] ++ [false] ++ [false] ++ [true] ++ [false] ++ [false] ++
    [true])) _
  iterate 9 refine .bit ?_ (by decide) (hfits (.ofBit _))
  exact .start (hfits .start)

/-- On a waveform of valid pulses no low level outlasts the deadline that is set for it, nor does a high level
unless its pulse begins with a low level below the window; and while none does, a device makes the same of the
waveform, whether or not it observes the deadlines. -/
theorem deadlines_spare {before : List Call} (hheeds : ({} : Engine).Heeds none before)
    (hwatch : (({} : Engine).run before).Watches) {m : Message} {bits : Option (List Bool)} {ps : List Pulse}
    (hwave : Waveform m bits ps) (waited : Nat) (reads : List Call → Reading) :
    let l : Listener :=
      { engine := ({} : Engine).run before, wait := Engine.unspent (({} : Engine).turns before), waited := waited }
    (∀ p ∈ ps, ∀ s, p.part = .symbol s →
      p.low ≤ s.lowLimit ∧ (s = .zero ∨ s.window.minLow ≤ p.low → p.high ≤ s.highLimit)) ∧
    ((∀ p ∈ ps, p.InTime) → l.play false reads ps = l.play true reads ps) := by
  intro l
  have hkeeps : l.Keeps := ⟨Engine.steady_run before, Engine.attends_new.run Engine.steady_new hheeds⟩
  refine ⟨fun p hp s hs => ?_, fun hin => ?_⟩
  · have hfits := hwave.fits p hp
    obtain ⟨part, low, high⟩ := p
    cases hs
    exact Pulse.limits hfits
  · obtain ⟨k, hplay, -⟩ := hkeeps.play_waveform hwatch hwave hin
    rw [hplay, hplay]

/-- The longest high levels that are in time. -/
theorem deadlines_spare_longest :
    let before : List Call := [.setAddress ⟨4⟩, .setEnabled true]
    let l : Listener := { engine := ({} : Engine).run before, wait := Engine.unspent (({} : Engine).turns before) }
    let reads : List Call → Reading := fun _ => some .high
    let ps := poll (fun | .start => (3500, 2300) | .zero => (1200, 1650) | .one => (400, 2450)) (600, 9000)
    (({} : Engine).Heeds none before ∧ l.engine.Watches ∧ Waveform [4] none ps ∧ ∀ p ∈ ps, p.InTime) ∧
      l.play false reads ps = l.play true reads ps ∧
      l.engine.outcomes (l.play false reads ps).told = [.received [4]] := by
  intro before l reads ps
  have hheeds : ({} : Engine).Heeds none before := by decide +kernel
  have hwatch : l.engine.Watches := .inl (by decide +kernel)
  have hwave : Waveform [4] none ps := waveform_poll (by rintro (_ | _ | _) <;> decide) (by decide)
  have hin : ∀ p ∈ ps, p.InTime := by decide
  refine ⟨⟨hheeds, hwatch, hwave, hin⟩, (deadlines_spare hheeds hwatch hwave 0 reads).2 hin, ?_⟩
  rw [play_eq_leap]
  decide +kernel

/-- A poll whose pulses are all valid is lost to a start bit of 3400 and 2350 ticks, and to a one of 300 and 2500.
The deadlines allow for the tolerance of the whole symbol, but not for that of its low level. -/
theorem valid_frame_cut_off :
    let calls : List Call := [.setAddress ⟨4⟩, .setEnabled true]
    let l : Listener := { engine := ({} : Engine).run calls, wait := Engine.unspent (({} : Engine).turns calls) }
    let reads : List Call → Reading := fun _ => some .high
    let Lost (ps : List Pulse) : Prop := Waveform [4] none ps ∧
      l.engine.outcomes (l.play true reads ps).told = [.received [4]] ∧
      l.engine.outcomes (l.play false reads ps).told = []
    Lost (poll (fun | .start => (3400, 2350) | .zero => (1500, 900) | .one => (600, 1800)) (600, 1800)) ∧
      Lost (poll (fun | .start => (3700, 800) | .zero => (1500, 900) | .one => (300, 2500)) (600, 1800)) := by
  intro calls l reads Lost
  refine ⟨⟨waveform_poll (by rintro (_ | _ | _) <;> decide) (by decide), ?_⟩,
    waveform_poll (by rintro (_ | _ | _) <;> decide) (by decide), ?_⟩
  · rw [play_eq_leap, play_eq_leap]
    decide +kernel
  · rw [play_eq_leap, play_eq_leap]
    decide +kernel

end Listener
end HdmiCec
