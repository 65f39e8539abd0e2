import HdmiCec.Proofs.Engine.Grammar

/-! A follower hears exactly the frames of the grammar. One half plays a frame to a follower whose
start bit begins (`Taking`), the other half reads off its state what it has heard (`Follower.Heard`);
they meet at the deadline at which a message is handed over (`received_iff_frame`). -/
namespace HdmiCec

open Grammar

def BitKind.nth (k n : Nat) : BitKind :=
  if n = 8 then eom else if k ≠ 0 then data else if n < 4 then headerInit else headerDest

theorem BitKind.next_nth {k n : Nat} {b : BitBuffer} (hn : n < 8) (hb : b.pos = 8 * k + (n + 1)) :
    (nth k n).next b = nth k (n + 1) := by
  have hoff : b.offset = (n + 1) % 8 := by
    rw [BitBuffer.offset, hb]
    omega
  have hkind : nth k n = if k ≠ 0 then data else if n < 4 then headerInit else headerDest := if_neg (by omega)
  rw [hkind, nth]
  by_cases hk : k ≠ 0
  · simp only [if_pos hk, next, hoff]
    grind
  · by_cases h4 : n < 4
    · simp only [if_neg hk, if_pos h4, next, hoff]
      grind
    · simp only [if_neg hk, if_neg h4, next, hoff]
      grind

theorem BitKind.nth_eq_eom_iff {k n : Nat} : nth k n = .eom ↔ n = 8 := by
  unfold nth
  split
  · simp [*]
  · split
    · simp [*]
    · split <;> simp [*]

namespace Grammar

theorem Pulses.of_append {bits : List Bool} {b : Bool} {calls : List Engine.Call} (h : Pulses (bits ++ [b]) calls) :
    ∃ earlier low high, calls = earlier ++ [Engine.Call.capture low, .capture high] ∧ Pulses bits earlier ∧
      bitOfLow? low = some b ∧ (Symbol.ofBit b).ValidTotal low high := by
  generalize hl : bits ++ [b] = l at h
  cases h with
  | none => simp at hl
  | more h hlow htotal =>
    obtain ⟨rfl, hb⟩ := List.append_inj' hl rfl
    cases hb
    exact ⟨_, _, _, rfl, h, hlow, htotal⟩

end Grammar

namespace Incoming

theorem taken_noteLow (r : Incoming) (f : BitKind) (b : Bool) (low : Ticks) :
    (r.noteLow f b low).buffer.taken = r.buffer.taken := by
  unfold noteLow
  split
  · rfl
  · exact r.buffer.taken_put b

theorem destination_of_taken {r : Incoming} {m : Message} (h : r.buffer.taken = m.bits) (hm : m ≠ []) :
    r.destination = m.destination := by
  rw [destination, BitBuffer.header_of_taken h hm, Message.destination]

theorem isLast_of_taken {r : Incoming} {m : Message} (h : r.buffer.taken = m.bits) :
    r.isLast = true ↔ r.eom = true ∨ Message.maxLength ≤ m.length := by
  rw [isLast, BitBuffer.blocks_of_taken h, Bool.or_eq_true, decide_eq_true_eq]

end Incoming

namespace Engine

variable {e : Engine} {m : Message} {samples : List Reading} {calls : List Call} {t : Ticks}

/-! What the edges of a bit make of a follower. -/

theorem onCapture_bit_low {f : BitKind} {b : Bool} (h : e.state = .follower (.low f)) (hb : bitOfLow? t = some b)
    (hlt : f ≠ .eom → e.rx.buffer.pos < BitBuffer.capacity) :
    (e.onCapture t).engine.state = .follower (.high f) ∧ (e.onCapture t).engine.rx.bit f = b ∧
      (e.onCapture t).engine.rx.lowTicks = t ∧ (e.onCapture t).engine.rx.buffer.taken = e.rx.buffer.taken := by
  rw [onCapture_low h hb]
  exact ⟨rfl, Incoming.bit_noteLow _ _ _ _ hlt, Incoming.lowTicks_noteLow _ _ _ _, Incoming.taken_noteLow _ _ _ _⟩

theorem onCapture_bit_high {f : BitKind} (h : e.state = .follower (.high f)) (hf : f ≠ .eom)
    (ht : (Symbol.ofBit (e.rx.bit f)).ValidTotal e.rx.lowTicks t) (hlt : e.rx.buffer.pos < BitBuffer.capacity) :
    (e.onCapture t).engine.state = .follower (.low (f.next e.rx.buffer.advance)) ∧
      (e.onCapture t).engine.rx.buffer.taken = e.rx.buffer.taken ++ [e.rx.bit f] := by
  have hbit : e.rx.bit f = e.rx.buffer.current := if_neg hf
  rw [hbit] at ht ⊢
  rw [onCapture_high h hf ht]
  exact ⟨rfl, BitBuffer.taken_advance hlt⟩

/-! A frame is played to a follower. -/

/-- A follower that has taken in the blocks of `m` and these bits of the next one. -/
structure Taking (e : Engine) (m : Message) (bits : List Bool) : Prop where
  state : e.state = .follower (.low (.nth m.length bits.length))
  taken : e.rx.buffer.taken = m.bits ++ bits

theorem Taking.pos_lt {bits : List Bool} (h : e.Taking m bits) (hm : m.length < Message.maxLength)
    (hn : bits.length < 8) : e.rx.buffer.pos < BitBuffer.capacity := by
  rw [BitBuffer.pos_of_taken h.taken]
  simp only [BitBuffer.capacity, Message.maxLength] at hm ⊢
  omega

theorem Taking.onCapture_low {bits : List Bool} (h : e.Taking m bits) (hm : m.length < Message.maxLength)
    (hn : bits.length ≤ 8) {b : Bool} (hlow : bitOfLow? t = some b) :
    let f := BitKind.nth m.length bits.length
    (e.onCapture t).engine.state = .follower (.high f) ∧ (e.onCapture t).engine.rx.bit f = b ∧
      (e.onCapture t).engine.rx.lowTicks = t ∧ (e.onCapture t).engine.rx.buffer.taken = e.rx.buffer.taken := by
  refine onCapture_bit_low h.state hlow fun hf => h.pos_lt hm ?_
  rw [Ne, BitKind.nth_eq_eom_iff] at hf
  omega

theorem Taking.bit {bits : List Bool} (h : e.Taking m bits) (hm : m.length < Message.maxLength) (hn : bits.length < 8)
    {b : Bool} {low high : Ticks} (hlow : bitOfLow? low = some b) (htotal : (Symbol.ofBit b).ValidTotal low high) :
    (e.run [.capture low, .capture high]).Taking m (bits ++ [b]) := by
  have hf : BitKind.nth m.length bits.length ≠ .eom := by
    rw [Ne, BitKind.nth_eq_eom_iff]
    omega
  have hpos : e.rx.buffer.pos = 8 * m.length + bits.length := BitBuffer.pos_of_taken h.taken
  have hlt := h.pos_lt hm hn
  obtain ⟨hs, hbit, hticks, htaken⟩ := h.onCapture_low hm (Nat.le_of_lt hn) hlow
  show ((e.onCapture low).engine.onCapture high).engine.Taking m (bits ++ [b])
  generalize (e.onCapture low).engine = d at hs hbit hticks htaken ⊢
  have hdpos : d.rx.buffer.pos = e.rx.buffer.pos := by rw [← d.rx.buffer.length_taken, htaken, e.rx.buffer.length_taken]
  rw [← hdpos] at hpos hlt
  obtain ⟨hs', htaken'⟩ := onCapture_bit_high (t := high) hs hf (by rw [hbit, hticks]; exact htotal) hlt
  refine ⟨?_, ?_⟩
  · rw [hs', List.length_append, List.length_singleton, BitKind.next_nth hn]
    rw [BitBuffer.pos_advance hlt, hpos]
    omega
  · rw [htaken', hbit, htaken, h.taken, List.append_assoc]

theorem Taking.pulses (h : e.Taking m []) (hm : m.length < Message.maxLength) {bits : List Bool}
    (hp : Pulses bits calls) (hn : bits.length ≤ 8) : (e.run calls).Taking m bits := by
  induction hp with
  | none => exact h
  | more _ hlow htotal ih =>
    rw [List.length_append, List.length_singleton] at hn
    rw [run_append]
    exact (ih (by omega)).bit hm (by omega) hlow htotal

structure Answering (e : Engine) (m : Message) (eom : Bool) : Prop where
  state : e.state = .follower .ackLow
  taken : e.rx.buffer.taken = m.bits
  eom : e.rx.eom = eom

theorem Taking.answering {byte : UInt8} (h : e.Taking m (Byte.bits byte)) {eom : Bool} {low high : Ticks}
    (hlow : bitOfLow? low = some eom) (htotal : (Symbol.ofBit eom).ValidTotal low high) :
    (e.run [.capture low, .capture high]).Answering (m ++ [byte]) eom := by
  have hs : e.state = .follower (.low .eom) := h.state
  obtain ⟨hs', hbit, hticks, htaken⟩ := onCapture_bit_low hs hlow (absurd rfl)
  show ((e.onCapture low).engine.onCapture high).engine.Answering _ _
  generalize (e.onCapture low).engine = d at hs' hbit hticks htaken ⊢
  have heom : d.rx.eom = eom := hbit
  rw [onCapture_high_eom hs' (by rw [heom, hticks]; exact htotal)]
  exact ⟨rfl, by rw [htaken, h.taken, Message.bits_append], heom⟩

theorem Taking.slot (h : e.Taking m []) (hm : m.length < Message.maxLength) {byte : UInt8} {eom : Bool}
    (hp : Pulses (Byte.bits byte ++ [eom]) calls) : (e.run calls).Answering (m ++ [byte]) eom := by
  obtain ⟨earlier, low, high, rfl, hbits, hlow, htotal⟩ := hp.of_append
  rw [run_append]
  exact (h.pulses hm hbits (Nat.le_refl 8)).answering hlow htotal

structure Judging (e : Engine) (m : Message) (eom : Bool) (sample : Reading) : Prop where
  state : e.state = .follower .ackVerify
  taken : e.rx.buffer.taken = m.bits
  eom : e.rx.eom = eom
  refused : e.rx.refused = (m.destination.isBroadcast && sample.isLow)

theorem Answering.judging {eom : Bool} (h : e.Answering m eom) (hm : m ≠ []) (sample : Reading) :
    (e.onTimeout sample).engine.Judging m eom sample := by
  rw [onTimeout_follower_ackLow h.state]
  refine ⟨rfl, h.taken, h.eom, ?_⟩
  show (e.rx.destination.isBroadcast && sample.isLow) = _
  rw [Incoming.destination_of_taken h.taken hm]

theorem Taking.block (h : e.Taking m []) (hm : m.length < Message.maxLength) {byte : UInt8} {eom : Bool}
    (hp : Pulses (Byte.bits byte ++ [eom]) calls) (sample : Reading) :
    (e.run (calls ++ [Call.timeout sample])).Judging (m ++ [byte]) eom sample := by
  rw [run_append]
  exact (h.slot hm hp).judging (by simp) sample

theorem Judging.refused_eq_false {eom : Bool} {sample : Reading} (h : e.Judging m eom sample)
    (hq : m.destination.isBroadcast = true → sample.isLow = false) : e.rx.refused = false := by
  rw [h.refused]
  cases hb : m.destination.isBroadcast with
  | false => rfl
  | true => exact hq hb

/-- A block that nobody refuses leads to the first bit of the next one. -/
theorem Judging.taking {eom : Bool} {sample : Reading} (h : e.Judging m eom sample) (hm : m ≠ [])
    (hr : e.rx.refused = false) (line : Reading) (gap : Ticks) : (e.run [.timeout line, .capture gap]).Taking m [] := by
  show ((e.onTimeout line).engine.onCapture gap).engine.Taking m []
  rw [onTimeout_follower_ackVerify h.state hr, onCapture_ackFinish rfl]
  refine ⟨?_, by rw [List.append_nil]; exact h.taken⟩
  show State.follower (.low .data) = .follower (.low (.nth m.length 0))
  rw [BitKind.nth, if_neg (by decide), if_pos (by simpa using hm)]

/-- A frame that has begun brings a follower to the first bit of a block. -/
theorem taking_of_begun (h : e.Steady) (hs : e.state = .follower .startLow) (hb : Begun m samples calls)
    (hq : Quiet m samples) : (e.run calls).Taking m [] := by
  induction hb with
  | @start low high hlow htotal =>
    have hpos : e.rx.buffer.pos = 0 := h.cursor .startLow hs
    show ((e.onCapture low).engine.onCapture high).engine.Taking [] []
    rw [onCapture_startLow_valid hs (StartPulse.ofLow_eq_valid_iff.1 hlow), onCapture_startHigh rfl, if_pos htotal]
    refine ⟨rfl, ?_⟩
    show (List.range e.rx.buffer.pos).map _ = []
    rw [hpos]
    rfl
  | @block m samples calls block byte sample gap hb hblock hlt ih =>
    obtain ⟨hq, hlast⟩ := (hb.quiet_append byte sample).1 hq
    have hd := ih hq
    cases hblock with
    | @mk pulses line hp =>
      have hsplit : pulses ++ [Call.timeout sample, .timeout line] ++ [Call.capture gap] =
          pulses ++ [Call.timeout sample] ++ [Call.timeout line, Call.capture gap] := by simp
      rw [run_append, hsplit, run_append]
      have hj := hd.block hb.length_lt hp sample
      exact hj.taking (by simp) (hj.refused_eq_false hlast) line gap

theorem received_of_frame {own : LogicalAddress} (h : e.Steady) (hs : e.state = .follower .startLow) {c : Call}
    (hf : WellFormed own m (calls ++ [c])) (hown : (e.run calls).address = own) :
    ((e.run calls).answer c).1 = .completion (some (.received m)) := by
  generalize hall : calls ++ [c] = all at hf
  cases hf with
  | @mk m samples begun block byte eom sample hb hblock hend hq hmeant =>
    cases hblock with
    | @mk pulses line hp =>
      have hsplit : begun ++ (pulses ++ [Call.timeout sample, .timeout line]) =
          (begun ++ (pulses ++ [Call.timeout sample])) ++ [Call.timeout line] := by simp
      rw [hsplit] at hall
      obtain ⟨rfl, hc⟩ := List.append_inj' hall rfl
      cases hc
      obtain ⟨hq, hlast⟩ := (hb.quiet_append byte sample).1 hq
      have hj := (taking_of_begun h hs hb hq).block hb.length_lt hp sample
      rw [← run_append] at hj
      generalize e.run (begun ++ (pulses ++ [Call.timeout sample])) = d at hj hown
      have hdest := Incoming.destination_of_taken hj.taken (by simp)
      have hwhole : d.rx.isLast = true := by
        rw [Incoming.isLast_of_taken hj.taken, hj.eom, List.length_append]
        exact hend.imp id fun h => Nat.le_of_eq h.symm
      have hheard : d.hears d.rx.destination = true := by
        rw [hears, hdest, hown, Bool.or_eq_true, beq_iff_eq]
        exact hmeant
      show Reply.completion (d.onTimeout line).outcome = _
      rw [outcome_onTimeout, verdict, hj.state]
      simp only [hj.refused_eq_false hlast, hwhole, hheard, and_self, if_true, Incoming.message,
        BitBuffer.completed_of_taken hj.taken]

end Engine

/-! What a follower has heard is read off its state. -/

/-- A frame up to somewhere in a block: these blocks are over, and these bits of the next one. -/
inductive Grammar.Within (m : Message) (samples : List Reading) (bits : List Bool) : List Engine.Call → Prop
  | mk {begun pulses : List Engine.Call} : Begun m samples begun → Quiet m samples → Pulses bits pulses →
      Within m samples bits (begun ++ pulses)

theorem Grammar.Within.more {m : Message} {samples : List Reading} {bits : List Bool} {calls : List Engine.Call}
    (h : Within m samples bits calls) {b : Bool} {low high : Ticks} (hlow : bitOfLow? low = some b)
    (htotal : (Symbol.ofBit b).ValidTotal low high) :
    Within m samples (bits ++ [b]) (calls ++ [Engine.Call.capture low, .capture high]) := by
  cases h with
  | mk hb hq hp =>
    rw [List.append_assoc]
    exact .mk hb hq (hp.more hlow htotal)

namespace Incoming

def Measures (r : Incoming) (f : BitKind) (calls : List Engine.Call) : Prop :=
  ∃ m samples bits, Within m samples bits calls ∧ m.length < Message.maxLength ∧ bits.length ≤ 8 ∧
    r.buffer.taken = m.bits ++ bits ∧ f = .nth m.length bits.length

structure Whole (r : Incoming) (m : Message) (byte : UInt8) (samples : List Reading) (calls : List Engine.Call) :
    Prop where
  within : Within m samples (Byte.bits byte ++ [r.eom]) calls
  taken : r.buffer.taken = Message.bits (m ++ [byte])

end Incoming

def Follower.Heard (s : Follower) (r : Incoming) (calls : List Engine.Call) : Prop :=
  match s with
  | startLow => calls = []
  | startHigh => StartPulse.ofLow r.lowTicks = .valid ∧ calls = [.capture r.lowTicks]
  | debounce => True
  | low f => r.Measures f calls
  | high f => bitOfLow? r.lowTicks = some (r.bit f) ∧
    ∃ earlier, calls = earlier ++ [.capture r.lowTicks] ∧ r.Measures f earlier
  | ackLow => ∃ m byte samples, r.Whole m byte samples calls
  | ackVerify => ∃ m byte samples sample earlier, calls = earlier ++ [.timeout sample] ∧
    r.Whole m byte samples earlier ∧ r.refused = ((m ++ [byte]).destination.isBroadcast && sample.isLow)
  | ackFinish => ∃ m byte samples sample line earlier, calls = earlier ++ [.timeout sample, .timeout line] ∧
    r.Whole m byte samples earlier ∧ Quiet (m ++ [byte]) (samples ++ [sample])

namespace Incoming

variable {r q : Incoming} {f : BitKind} {calls : List Engine.Call}

theorem Measures.pos (h : r.Measures f calls) (hf : f ≠ .eom) : r.buffer.pos < BitBuffer.capacity := by
  obtain ⟨m, samples, bits, -, hm, hn, htaken, rfl⟩ := h
  rw [Ne, BitKind.nth_eq_eom_iff] at hf
  rw [BitBuffer.pos_of_taken htaken]
  simp only [BitBuffer.capacity, Message.maxLength] at hm ⊢
  omega

theorem Measures.congr (h : r.Measures f calls) (ht : q.buffer.taken = r.buffer.taken) : q.Measures f calls := by
  obtain ⟨m, samples, bits, hw, hm, hn, htaken, hf⟩ := h
  exact ⟨m, samples, bits, hw, hm, hn, ht.trans htaken, hf⟩

theorem Measures.next (h : r.Measures f calls) (hf : f ≠ .eom) {b : Bool} {low high : Ticks}
    (hlow : bitOfLow? low = some b) (htotal : (Symbol.ofBit b).ValidTotal low high) {c : BitBuffer}
    (hc : c.pos = r.buffer.pos + 1) (hq : q.buffer.taken = r.buffer.taken ++ [b]) :
    q.Measures (f.next c) (calls ++ [Engine.Call.capture low, .capture high]) := by
  obtain ⟨m, samples, bits, hw, hm, hn, htaken, rfl⟩ := h
  rw [Ne, BitKind.nth_eq_eom_iff] at hf
  refine ⟨m, samples, bits ++ [b], hw.more hlow htotal, hm, ?_, ?_, ?_⟩
  · rw [List.length_append, List.length_singleton]
    omega
  · rw [hq, htaken, List.append_assoc]
  · rw [List.length_append, List.length_singleton]
    refine BitKind.next_nth (by omega) ?_
    rw [hc, BitBuffer.pos_of_taken htaken]
    omega

theorem Measures.whole (h : r.Measures .eom calls) {low high : Ticks} (hlow : bitOfLow? low = some r.eom)
    (htotal : (Symbol.ofBit r.eom).ValidTotal low high) :
    ∃ m byte samples, r.Whole m byte samples (calls ++ [Engine.Call.capture low, .capture high]) := by
  obtain ⟨m, samples, bits, hw, hm, hn, htaken, hf⟩ := h
  obtain ⟨byte, rfl⟩ := BitBuffer.exists_byte htaken (BitKind.nth_eq_eom_iff.1 hf.symm)
  exact ⟨m, byte, samples, hw.more hlow htotal, htaken.trans (m.bits_append byte).symm⟩

/-- Nobody has refused the frame, this block included. -/
theorem Whole.quiet {m : Message} {byte : UInt8} {samples : List Reading} (h : r.Whole m byte samples calls)
    {sample : Reading} (hs : ((m ++ [byte]).destination.isBroadcast && sample.isLow) = false) :
    Quiet (m ++ [byte]) (samples ++ [sample]) := by
  cases h.within with
  | mk hb hq _ =>
    refine (hb.quiet_append byte sample).2 ⟨hq, fun hd => ?_⟩
    rw [hd] at hs
    exact hs

/-- A block that is not the last one leads to the next one. -/
theorem Whole.measures {m : Message} {byte : UInt8} {samples : List Reading} (h : r.Whole m byte samples calls)
    (hlast : r.isLast = false) {sample : Reading} (hq : Quiet (m ++ [byte]) (samples ++ [sample])) (line : Reading)
    (gap : Ticks) :
    r.Measures .data (calls ++ [Engine.Call.timeout sample, .timeout line] ++ [Engine.Call.capture gap]) := by
  have hmore : ¬ (r.eom = true ∨ Message.maxLength ≤ (m ++ [byte]).length) := by
    rw [← isLast_of_taken h.taken, hlast]
    decide
  rw [List.length_append, List.length_singleton] at hmore
  obtain ⟨heom, hlt⟩ := not_or.1 hmore
  rw [Bool.not_eq_true] at heom
  have hw := h.within
  rw [heom] at hw
  cases hw with
  | @mk begun pulses hb _ hp =>
    have hblock : Block byte false sample (pulses ++ [Engine.Call.timeout sample, .timeout line]) := .mk line hp
    have hbegun := hb.block gap hblock (by omega)
    refine ⟨m ++ [byte], samples ++ [sample], [], ?_, ?_, Nat.zero_le 8, ?_, ?_⟩
    · have := Within.mk hbegun hq .none
      simpa using this
    · rw [List.length_append, List.length_singleton]
      omega
    · rw [h.taken, List.append_nil]
    · rw [List.length_append]
      rfl

end Incoming

namespace Engine

def Turn.opens (t : Turn) : Bool := t.before.state != .follower .startLow && t.after.state == .follower .startLow

def Turn.note (calls : List Call) (t : Turn) : List Call := if t.opens then [] else calls ++ [t.call]

/-- The events since the last start bit began. -/
def sinceStart (ts : List Turn) : List Call := ts.foldl Turn.note []

def Heard (e : Engine) (calls : List Call) : Prop := ∀ s, e.state = .follower s → s.Heard e.rx calls

variable {e : Engine} {m : Message} {samples : List Reading} {calls : List Call} {t : Ticks} {line : Reading}

theorem heard_quit (e : Engine) (calls : List Call) : e.quit.Heard calls :=
  fun s hs => absurd hs (ne_follower_quit e s)

theorem Heard.startLow (h : e.Heard calls) (hs : e.state = .follower .startLow) (t : Ticks) :
    (e.onCapture t).engine.Heard (calls ++ [Call.capture t]) := by
  by_cases ht : Symbol.start.ValidLow t
  · have hcalls : calls = [] := h _ hs
    rw [onCapture_startLow_valid hs ht, hcalls]
    intro s hs
    cases hs
    exact ⟨StartPulse.ofLow_eq_valid_iff.2 ht, rfl⟩
  · rcases onCapture_startLow_invalid hs ht with hq | hq
    · rw [hq]
      exact heard_quit _ _
    · rw [hq]
      intro s hs
      cases hs
      trivial

theorem Heard.startHigh (h : e.Heard calls) (hs : e.state = .follower .startHigh) (he : e.Steady) (t : Ticks) :
    (e.onCapture t).engine.Heard (calls ++ [Call.capture t]) := by
  obtain ⟨hlow, rfl⟩ := h _ hs
  rw [onCapture_startHigh hs]
  split
  · next ht =>
    intro s hu
    cases hu
    have hpos : e.rx.buffer.pos = 0 := he.cursor .startHigh hs
    have hw : Within [] [] [] ([Call.capture e.rx.lowTicks, .capture t] ++ []) :=
      .mk (.start hlow ht) (fun _ _ hs => by cases hs) .none
    refine ⟨[], [], [], hw, Nat.zero_lt_succ 15, Nat.zero_le 8, ?_, rfl⟩
    show (List.range e.rx.buffer.pos).map _ = []
    rw [hpos]
    rfl
  · exact heard_quit _ _

theorem Heard.low (h : e.Heard calls) {f : BitKind} (hs : e.state = .follower (.low f)) (t : Ticks) :
    (e.onCapture t).engine.Heard (calls ++ [Call.capture t]) := by
  have hm : e.rx.Measures f calls := h _ hs
  cases hb : bitOfLow? t with
  | none =>
    rw [onCapture_low_invalid hs hb]
    exact heard_quit _ _
  | some b =>
    obtain ⟨hs', hbit, hticks, htaken⟩ := onCapture_bit_low hs hb hm.pos
    intro s hu
    rw [hs'] at hu
    cases hu
    refine ⟨by rw [hticks, hbit, hb], calls, by rw [hticks], hm.congr htaken⟩

theorem Heard.high (h : e.Heard calls) {f : BitKind} (hs : e.state = .follower (.high f)) (t : Ticks) :
    (e.onCapture t).engine.Heard (calls ++ [Call.capture t]) := by
  obtain ⟨hlow, earlier, rfl, hm⟩ := h _ hs
  rw [List.append_assoc, List.singleton_append]
  by_cases ht : (Symbol.ofBit (e.rx.bit f)).ValidTotal e.rx.lowTicks t
  · by_cases hf : f = .eom
    · subst hf
      rw [onCapture_high_eom hs ht]
      intro s hu
      cases hu
      exact hm.whole hlow ht
    · obtain ⟨hs', htaken⟩ := onCapture_bit_high hs hf ht (hm.pos hf)
      intro s hu
      rw [hs'] at hu
      cases hu
      exact hm.next hf hlow ht (BitBuffer.pos_advance (hm.pos hf)) htaken
  · rw [onCapture_high_invalid hs ht]
    exact heard_quit _ _

theorem Heard.ackFinish (h : e.Heard calls) (hs : e.state = .follower .ackFinish) (hlast : e.rx.isLast = false)
    (t : Ticks) : (e.onCapture t).engine.Heard (calls ++ [Call.capture t]) := by
  obtain ⟨m, byte, samples, sample, line, earlier, rfl, hw, hq⟩ := h _ hs
  rw [onCapture_ackFinish hs]
  intro s hu
  cases hu
  exact hw.measures hlast hq line t

theorem Heard.ackLow (h : e.Heard calls) (hs : e.state = .follower .ackLow) (line : Reading) :
    (e.onTimeout line).engine.Heard (calls ++ [Call.timeout line]) := by
  obtain ⟨m, byte, samples, hw⟩ := h _ hs
  rw [onTimeout_follower_ackLow hs]
  intro s hu
  cases hu
  refine ⟨m, byte, samples, line, calls, rfl, ⟨hw.within, hw.taken⟩, ?_⟩
  show (e.rx.destination.isBroadcast && line.isLow) = _
  rw [Incoming.destination_of_taken hw.taken (by simp)]

theorem Heard.ackVerify (h : e.Heard calls) (hs : e.state = .follower .ackVerify) (line : Reading) :
    (e.onTimeout line).engine.Heard (calls ++ [Call.timeout line]) := by
  obtain ⟨m, byte, samples, sample, earlier, rfl, hw, hr⟩ := h _ hs
  cases hrefused : e.rx.refused with
  | true =>
    rw [onTimeout_refused hs hrefused]
    exact heard_quit _ _
  | false =>
    rw [onTimeout_follower_ackVerify hs hrefused]
    intro s hu
    cases hu
    rw [hr] at hrefused
    exact ⟨m, byte, samples, sample, line, earlier, by simp, hw, hw.quiet hrefused⟩

/-- Only an edge on a line that was free begins a start bit. -/
theorem startLow_opened {c : Call} (hc : c.isEvent = true) (hs : (e.after c).state = .follower .startLow) :
    e.state ≠ .follower .startLow := by
  intro hb
  cases c with
  | capture t =>
    have hs : (e.onCapture t).engine.state = .follower .startLow := hs
    by_cases ht : Symbol.start.ValidLow t
    · rw [onCapture_startLow_valid hb ht] at hs
      cases hs
    · rcases onCapture_startLow_invalid hb ht with hq | hq <;> rw [hq] at hs
      · exact ne_follower_quit _ _ hs
      · cases hs
  | timeout line =>
    have hs : (e.onTimeout line).engine.state = .follower .startLow := hs
    rw [onTimeout_follower hb (by decide) (by decide)] at hs
    exact ne_follower_quit _ _ hs
  | _ => cases hc

theorem Turn.opens_iff {c : Call} :
    Turn.opens ⟨e, c⟩ = true ↔ e.state ≠ .follower .startLow ∧ (e.after c).state = .follower .startLow := by
  rw [Turn.opens, Bool.and_eq_true, bne_iff_ne, beq_iff_eq]
  rfl

theorem note_of_opened {c : Call} (hc : c.isEvent = true) (hs : (e.after c).state = .follower .startLow)
    (calls : List Call) : Turn.note calls ⟨e, c⟩ = [] := by
  rw [Turn.note, if_pos (Turn.opens_iff.2 ⟨startLow_opened hc hs, hs⟩)]

theorem note_of_not_opened {c : Call} (hs : (e.after c).state ≠ .follower .startLow) (calls : List Call) :
    Turn.note calls ⟨e, c⟩ = calls ++ [c] := by
  rw [Turn.note, if_neg fun h => hs (Turn.opens_iff.1 h).2]

/-- What a follower has heard, after an edge that it waits for. -/
theorem Heard.onCapture (h : e.Heard calls) (he : e.Steady) (hedge : e.state = .idle ∨
    (∃ s, e.state = .initiator s ∧ s.edge?.isSome = true) ∨
    ∃ s, e.state = .follower s ∧ (s.edge? e.rx).isSome = true) (t : Ticks)
    (hs : (e.onCapture t).engine.state ≠ .follower .startLow) :
    (e.onCapture t).engine.Heard (calls ++ [Call.capture t]) := by
  rcases hedge with hi | hi | ⟨s, hi, hs'⟩
  · exact absurd (startLow_of_edge t (.inl hi)) hs
  · exact absurd (startLow_of_edge t (.inr hi)) hs
  · cases s with
    | startLow => exact h.startLow hi t
    | startHigh => exact h.startHigh hi he t
    | low f => exact h.low hi t
    | high f => exact h.high hi t
    | ackFinish =>
      refine h.ackFinish hi ?_ t
      simpa [Follower.edge?] using hs'
    | debounce | ackLow | ackVerify => cases hs'

theorem Heard.onTimeout (h : e.Heard calls) (line : Reading) :
    (e.onTimeout line).engine.Heard (calls ++ [Call.timeout line]) := by
  cases hs : e.state with
  | follower s =>
    by_cases h1 : s = .ackLow
    · subst h1
      exact h.ackLow hs line
    by_cases h2 : s = .ackVerify
    · subst h2
      exact h.ackVerify hs line
    · rw [onTimeout_follower hs h1 h2]
      exact heard_quit _ _
  | _ =>
    intro u hu
    have hx := e.onTimeout_lapses line
    generalize (e.onTimeout line).engine = d at hx hu
    cases hx with
    | same => rw [hs] at hu; cases hu
    | quit | ended => exact absurd hu (ne_follower_quit _ u)
    | again | goes => cases hu
    | answers hf => rw [hs] at hf; cases hf

theorem Heard.after {w : Option Wait} (h : e.Heard calls) (he : e.Steady) (hw : e.Armed w) {c : Call}
    (hc : Wait.Admits w c) : (e.after c).Heard (Turn.note calls ⟨e, c⟩) := by
  by_cases hs : (e.after c).state = .follower .startLow
  · rw [note_of_opened hc.isEvent hs]
    intro u hu
    rw [hs] at hu
    cases hu
    rfl
  · rw [note_of_not_opened hs]
    cases c with
    | capture t => exact h.onCapture he (hw.edge hc) t hs
    | timeout line => exact h.onTimeout line
    | _ => exact hc.elim

def Since (e : Engine) (calls : List Call) : Prop :=
  (calls = [] ∧ e.state = .idle) ∨ ∃ d : Engine, d.Steady ∧ d.state = .follower .startLow ∧ d.run calls = e

theorem Since.after {w : Option Wait} (h : e.Since calls) (he : e.Steady) (hw : e.Armed w) {c : Call}
    (hc : Wait.Admits w c) : (e.after c).Since (Turn.note calls ⟨e, c⟩) := by
  by_cases hs : (e.after c).state = .follower .startLow
  · rw [note_of_opened hc.isEvent hs]
    exact .inr ⟨e.after c, he.after c, hs, rfl⟩
  · rw [note_of_not_opened hs]
    rcases h with ⟨-, hi⟩ | ⟨d, hd, hstart, hrun⟩
    · cases c with
      | capture t =>
        have hs : (e.onCapture t).engine.state ≠ .follower .startLow := hs
        rw [onCapture_idle hi] at hs
        exact absurd rfl hs
      | timeout line =>
        rcases hw.deadline hc with ⟨u, hu⟩ | ⟨u, hu⟩ <;> rw [hi] at hu <;> cases hu
      | _ => exact hc.elim
    · refine .inr ⟨d, hd, hstart, ?_⟩
      rw [run_append, hrun]
      rfl

structure Tracked (e : Engine) (w : Option Wait) (own : LogicalAddress) (calls : List Call) : Prop where
  steady : e.Steady
  armed : e.Armed w
  heard : e.Heard calls
  since : e.Since calls
  address : e.address = own

variable {w : Option Wait} {own : LogicalAddress}

theorem Tracked.after (h : e.Tracked w own calls) {c : Call} (hc : Wait.Admits w c) :
    (e.after c).Tracked (Turn.rearm w ⟨e, c⟩) own (Turn.note calls ⟨e, c⟩) where
  steady := h.steady.after c
  armed := h.armed.after h.steady c
  heard := h.heard.after h.steady h.armed hc
  since := h.since.after h.steady h.armed hc
  address := by
    cases c with
    | capture t => exact (address_onCapture e t).trans h.address
    | timeout line => exact (address_onTimeout e line).trans h.address
    | _ => exact hc.elim

theorem Tracked.run (h : e.Tracked w own calls) {events : List Call} {c : Call} (ho : e.Obeys w (events ++ [c])) :
    ∃ v, Wait.Admits v c ∧ (e.run events).Tracked v own ((e.turns events).foldl Turn.note calls) := by
  induction events generalizing e w calls with
  | nil => exact ⟨w, ho.1, h⟩
  | cons x rest ih => exact ih (h.after ho.1) ho.2

/-- A message is handed over where a whole frame has been heard. -/
theorem Heard.frame (h : e.Heard calls) (line : Reading) (hm : e.verdict = some (.received m)) :
    e.state = .follower .ackVerify ∧ WellFormed e.address m (calls ++ [Call.timeout line]) := by
  obtain ⟨hs, hlast, hheard, rfl⟩ := received_of_verdict hm
  refine ⟨hs, ?_⟩
  obtain ⟨m, byte, samples, sample, earlier, rfl, hw, hr⟩ := h _ hs
  have hrefused : e.rx.refused = false := by
    cases hr : e.rx.refused with
    | false => rfl
    | true =>
      rw [verdict, hs] at hm
      simp [hr] at hm
  rw [hr] at hrefused
  have hq := hw.quiet hrefused
  have hmessage : e.rx.message = m ++ [byte] := BitBuffer.completed_of_taken hw.taken
  have hdest := Incoming.destination_of_taken hw.taken (by simp)
  have hmeant : (m ++ [byte]).destination = e.address ∨ (m ++ [byte]).destination.isBroadcast = true := by
    rw [hears, hdest, Bool.or_eq_true, beq_iff_eq] at hheard
    exact hheard
  rw [Incoming.isLast_of_taken hw.taken, List.length_append, List.length_singleton] at hlast
  rw [hmessage]
  cases hw.within with
  | @mk begun pulses hb _ hp =>
    have hend : e.rx.eom = true ∨ m.length + 1 = Message.maxLength := by
      have := hb.length_lt
      exact hlast.imp id fun h => by omega
    have hblock : Block byte e.rx.eom sample (pulses ++ [Call.timeout sample, .timeout line]) := .mk line hp
    have hframe : WellFormed e.address (m ++ [byte]) _ := .mk hb hblock hend hq hmeant
    simpa using hframe

theorem Tracked.frame (h : e.Tracked w own calls) (line : Reading) (hm : e.verdict = some (.received m)) :
    e.state = .follower .ackVerify ∧ WellFormed own m (calls ++ [Call.timeout line]) :=
  h.address ▸ h.heard.frame line hm

/-- Among events that obey what an engine has armed, it hands over a message exactly at the deadline
that ends a frame for it, and that is where it has judged the ACK of the last block. -/
theorem received_iff_frame {before events : List Call} {c : Call} (hidle : (({} : Engine).run before).state = .idle)
    (hobeys : (({} : Engine).run before).Obeys (armed (({} : Engine).turns before)) (events ++ [c])) (m : Message) :
    let e := ({} : Engine).run before
    let d := e.run events
    ((d.answer c).1 = .completion (some (.received m)) ↔ WellFormed e.address m (sinceStart (e.turns events) ++ [c])) ∧
      ((d.answer c).1 = .completion (some (.received m)) → d.state = .follower .ackVerify ∧ ∃ line, c = .timeout line) := by
  intro e d
  have hstart : e.Tracked (armed (({} : Engine).turns before)) e.address [] :=
    ⟨steady_run before, armed_run before, fun s hs => (by rw [hidle] at hs; cases hs), .inl ⟨rfl, hidle⟩, rfl⟩
  obtain ⟨v, hc, hd⟩ := hstart.run hobeys
  have hgives : (d.answer c).1 = .completion (some (.received m)) →
      (d.state = .follower .ackVerify ∧ ∃ line, c = .timeout line) ∧
        WellFormed e.address m (sinceStart (e.turns events) ++ [c]) := by
    intro hreply
    cases c with
    | capture t =>
      have hnone : (d.answer (.capture t)).1 = .completion none :=
        congrArg Reply.completion (hd.armed.outcome_onCapture hc)
      rw [hnone] at hreply
      cases hreply
    | timeout line =>
      have hverdict : (d.answer (.timeout line)).1 = .completion d.verdict :=
        congrArg Reply.completion (outcome_onTimeout d line)
      rw [hverdict] at hreply
      obtain ⟨hs, hframe⟩ := hd.frame line (Reply.completion.inj hreply)
      exact ⟨⟨hs, line, rfl⟩, hframe⟩
    | _ => exact hc.elim
  refine ⟨⟨fun h => (hgives h).2, fun hf => ?_⟩, fun h => (hgives h).1⟩
  rcases hd.since with ⟨hnil, -⟩ | ⟨k, hk, hs, hrun⟩
  · rw [sinceStart, hnil] at hf
    exact absurd hf.two_le_length (by simp)
  · have hreceived := received_of_frame hk hs hf (by rw [sinceStart, hrun]; exact hd.address)
    rw [sinceStart, hrun] at hreceived
    exact hreceived

/-- A header block from device 0, after an edge that was a glitch. -/
theorem received_iff_frame_poll :
    let zero : List Call := [.capture 1500, .capture 900]
    let one : List Call := [.capture 600, .capture 1800]
    let before : List Call := [.setAddress ⟨4⟩, .setEnabled true]
    let frame : List Call := [.capture 3700, .capture 800] ++ (zero ++ zero ++ zero ++ zero) ++
      (zero ++ one ++ zero ++ zero) ++ one ++ [.timeout none, .timeout none]
    let e := ({} : Engine).run before
    let events : List Call := [.capture 0, .capture 50, .timeout none, .capture 0] ++ frame.dropLast
    e.state = .idle ∧ e.Obeys (armed (({} : Engine).turns before)) (events ++ [.timeout none]) ∧
      sinceStart (e.turns events) ++ [.timeout none] = frame ∧ WellFormed ⟨4⟩ [4] frame := by
  intro zero one before frame e events
  have hidle : e.state = .idle := by decide +kernel
  have hobeys : e.Obeys (armed (({} : Engine).turns before)) (events ++ [.timeout none]) := by decide +kernel
  have hsince : sinceStart (e.turns events) ++ [.timeout none] = frame := by decide +kernel
  obtain ⟨hiff, -⟩ := received_iff_frame hidle hobeys [4]
  have hreply : ((e.run events).answer (.timeout none)).1 = .completion (some (.received [4])) := by decide +kernel
  have hframe := hiff.1 hreply
  rw [hsince] at hframe
  exact ⟨hidle, hobeys, hsince, hframe⟩

end Engine
end HdmiCec
