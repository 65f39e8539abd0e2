import HdmiCec.Proofs.Engine.Hearing
import HdmiCec.Proofs.Engine.Signal

/-! Room for error between two devices. What is sent for a message lies so far inside what is taken for
it that a follower may be 150 ticks off in every single level, and still has the message once
(`received_within_margin`). -/
namespace HdmiCec

open Grammar

namespace Grammar

variable {m : Message} {samples : List Reading} {calls : List Engine.Call}

theorem Pulses.isEvent {bits : List Bool} (h : Pulses bits calls) : ∀ c ∈ calls, c.isEvent = true := by
  induction h with
  | none => simp
  | more _ _ _ ih => simpa [or_imp, forall_and, Engine.Call.isEvent] using ih

theorem Block.isEvent {byte : UInt8} {eom : Bool} {sample : Reading} (h : Block byte eom sample calls) :
    ∀ c ∈ calls, c.isEvent = true := by
  cases h with
  | mk line hp => simpa [or_imp, forall_and, Engine.Call.isEvent] using hp.isEvent

theorem Begun.isEvent (h : Begun m samples calls) : ∀ c ∈ calls, c.isEvent = true := by
  induction h with
  | start => simp [Engine.Call.isEvent]
  | block gap _ hblock _ ih =>
    simp only [List.mem_append, List.mem_singleton, or_imp, forall_and, forall_eq]
    exact ⟨ih, hblock.isEvent, rfl⟩

theorem WellFormed.isEvent {own : LogicalAddress} (h : WellFormed own m calls) : ∀ c ∈ calls, c.isEvent = true := by
  cases h with
  | mk hb hblock =>
    simp only [List.mem_append, or_imp, forall_and]
    exact ⟨hb.isEvent, hblock.isEvent⟩

end Grammar

namespace Engine

def outcomes (e : Engine) (calls : List Call) : List Completion := (e.turns calls).filterMap (·.did.outcome)

variable {e : Engine} {m : Message} {samples : List Reading} {calls : List Call}

theorem turns_append (e : Engine) (a b : List Call) : e.turns (a ++ b) = e.turns a ++ (e.run a).turns b := by
  induction a generalizing e with
  | nil => rfl
  | cons c rest ih => exact congrArg (_ :: ·) (ih _)

theorem outcomes_append (e : Engine) (a b : List Call) :
    e.outcomes (a ++ b) = e.outcomes a ++ (e.run a).outcomes b := by
  rw [outcomes, turns_append, List.filterMap_append]
  rfl

theorem outcomes_capture (h : e.state ≠ .follower .ackLow) (t : Ticks) : e.outcomes [.capture t] = [] := by
  have hnone : Turn.did ⟨e, .capture t⟩ = e.onCapture t := rfl
  simp [outcomes, turns, hnone, outcome_onCapture h]

theorem outcomes_timeout (e : Engine) (line : Reading) : e.outcomes [.timeout line] = e.verdict.toList := by
  have hdid : Turn.did ⟨e, .timeout line⟩ = e.onTimeout line := rfl
  cases hv : e.verdict <;> simp [outcomes, turns, hdid, outcome_onTimeout, hv]

theorem verdict_of_follower {s : Follower} (h : e.state = .follower s) (hs : s ≠ .ackVerify) : e.verdict = none := by
  rw [verdict, h]
  cases s with
  | ackVerify => exact absurd rfl hs
  | _ => rfl

theorem Taking.outcomes_pulses (h : e.Taking m []) (hm : m.length < Message.maxLength) {bits : List Bool}
    (hp : Pulses bits calls) (hn : bits.length ≤ 9) : e.outcomes calls = [] := by
  induction hp with
  | none => rfl
  | @more bits calls b low high hp hlow htotal ih =>
    rw [List.length_append, List.length_singleton] at hn
    have hd := h.pulses hm hp (by omega)
    rw [outcomes_append, ih (by omega)]
    generalize e.run calls = d at hd
    have hs := hd.state
    have hs' := (hd.onCapture_low hm (by omega) hlow).1
    show [] ++ d.outcomes ([Call.capture low] ++ [Call.capture high]) = []
    rw [outcomes_append, outcomes_capture (by rw [hs]; simp)]
    exact outcomes_capture (e := (d.onCapture low).engine) (by rw [hs']; simp) high

theorem Taking.outcomes_block (h : e.Taking m []) (hm : m.length < Message.maxLength) {byte : UInt8} {eom : Bool}
    (hp : Pulses (Byte.bits byte ++ [eom]) calls) (sample : Reading) :
    e.outcomes (calls ++ [Call.timeout sample]) = [] := by
  rw [outcomes_append, h.outcomes_pulses hm hp (Nat.le_refl 9), outcomes_timeout,
    verdict_of_follower (h.slot hm hp).state (by decide)]
  rfl

/-- Nothing comes of a frame that has only begun. -/
theorem outcomes_begun (h : e.Steady) (hs : e.state = .follower .startLow) (hb : Begun m samples calls)
    (hq : Quiet m samples) : e.outcomes calls = [] := by
  induction hb with
  | @start low high hlow htotal =>
    show e.outcomes ([Call.capture low] ++ [Call.capture high]) = []
    have hs' : (e.run [.capture low]).state = .follower .startHigh := by
      show (e.onCapture low).engine.state = _
      rw [onCapture_startLow_valid hs (StartPulse.ofLow_eq_valid_iff.1 hlow)]
    rw [outcomes_append, outcomes_capture (by rw [hs]; decide), outcomes_capture (by rw [hs']; decide)]
    rfl
  | @block m samples calls block byte sample gap hb hblock hlt ih =>
    obtain ⟨hq, hlast⟩ := (hb.quiet_append byte sample).1 hq
    have hd := taking_of_begun h hs hb hq
    cases hblock with
    | @mk pulses line hp =>
      have hsplit : pulses ++ [Call.timeout sample, .timeout line] ++ [Call.capture gap] =
          pulses ++ [Call.timeout sample] ++ ([Call.timeout line] ++ [Call.capture gap]) := by simp
      rw [outcomes_append, ih hq, hsplit, outcomes_append, hd.outcomes_block hb.length_lt hp, outcomes_append]
      have hk := hd.block hb.length_lt hp sample
      generalize (e.run calls).run (pulses ++ [Call.timeout sample]) = k at hk
      have hmore : k.rx.isLast ≠ true := by
        rw [Ne, Incoming.isLast_of_taken hk.taken, hk.eom, List.length_append, List.length_singleton]
        simpa using hlt
      have hverdict : k.verdict = none := by
        rw [verdict, hk.state]
        exact if_neg fun hall => hmore hall.2.1
      have hfinish : (k.run [.timeout line]).state = .follower .ackFinish := by
        show (k.onTimeout line).engine.state = _
        rw [onTimeout_follower_ackVerify hk.state (hk.refused_eq_false hlast)]
      rw [outcomes_timeout, hverdict, outcomes_capture (by rw [hfinish]; decide)]
      rfl

theorem address_run_events (hc : ∀ c ∈ calls, c.isEvent = true) : (e.run calls).address = e.address := by
  induction calls generalizing e with
  | nil => rfl
  | cons c rest ih =>
    rw [run, ih fun d hd => hc d (List.mem_cons_of_mem _ hd)]
    cases c with
    | capture t => exact address_onCapture e t
    | timeout line => exact address_onTimeout e line
    | _ => cases hc _ List.mem_cons_self

/-- A frame for a device that follows from its start bit on comes out once, and nothing comes with it. -/
theorem outcomes_frame (h : e.Steady) (hs : e.state = .follower .startLow) (hf : WellFormed e.address m calls) :
    e.outcomes calls = [.received m] ∧ (e.run calls).state = .follower .ackFinish := by
  have hevents := hf.isEvent
  cases hf with
  | @mk m samples begun block byte eom sample hb hblock hend hq hmeant =>
    cases hblock with
    | @mk pulses line hp =>
      have hsplit : begun ++ (pulses ++ [Call.timeout sample, .timeout line]) =
          begun ++ (pulses ++ [Call.timeout sample]) ++ [Call.timeout line] := by simp
      rw [hsplit] at hevents ⊢
      have hown : (e.run (begun ++ (pulses ++ [Call.timeout sample]))).address = e.address :=
        address_run_events fun c hc => hevents c (List.mem_append_left _ hc)
      have hframe : WellFormed e.address (m ++ [byte])
          (begun ++ (pulses ++ [Call.timeout sample]) ++ [Call.timeout line]) :=
        hsplit ▸ .mk hb (.mk line hp) hend hq hmeant
      have hreply := received_of_frame h hs hframe hown
      obtain ⟨hq, hlast⟩ := (hb.quiet_append byte sample).1 hq
      have hd := taking_of_begun h hs hb hq
      have hk := hd.block hb.length_lt hp sample
      have hquiet : e.outcomes (begun ++ (pulses ++ [Call.timeout sample])) = [] := by
        rw [outcomes_append, outcomes_begun h hs hb hq, hd.outcomes_block hb.length_lt hp]
        rfl
      rw [← run_append] at hk
      rw [outcomes_append, hquiet, run_append e _ [Call.timeout line]]
      generalize e.run (begun ++ (pulses ++ [Call.timeout sample])) = k at hk hreply
      have hout : (k.onTimeout line).outcome = some (.received (m ++ [byte])) := Reply.completion.inj hreply
      rw [outcome_onTimeout] at hout
      refine ⟨by rw [outcomes_timeout, hout]; rfl, ?_⟩
      show (k.onTimeout line).engine.state = _
      rw [onTimeout_follower_ackVerify hk.state (hk.refused_eq_false hlast)]

end Engine

/-! What is sent, as another device measures it. -/

def Near (margin meant measured : Ticks) : Prop := meant ≤ measured + margin ∧ measured ≤ meant + margin

instance (margin meant measured : Ticks) : Decidable (Near margin meant measured) :=
  inferInstanceAs (Decidable (_ ∧ _))

namespace Signal

open Engine (Call)

/-- What a follower is told of these signals while nobody else speaks: of every pulse its two levels, each
measured within the margin; in an ACK slot the two deadlines it has set itself, at the first of which it
reads the line; and after a slot, at any time, the edge at which the next block begins. -/
inductive Measured (margin : Ticks) : List Signal → List Reading → List Call → Prop
  | pulse {low high low' high' : Ticks} {wait : Wait} {sent : List Signal} {samples : List Reading} {calls : List Call} :
      wait.timeout = some high → Near margin low low' → Near margin high high' → Measured margin sent samples calls →
      Measured margin (pulse low wait ++ sent) samples (.capture low' :: .capture high' :: calls)
  | slot {sent : List Signal} {samples : List Reading} {calls : List Call} (sample line : Reading) (gap : Ticks) :
      Measured margin sent samples calls →
      Measured margin (ackSlot ++ sent) (sample :: samples) (.timeout sample :: .timeout line :: .capture gap :: calls)
  | last (sample line : Reading) : Measured margin ackSlot [sample] [.timeout sample, .timeout line]

variable {margin : Ticks} {sent : List Signal} {samples : List Reading} {calls : List Call}

theorem Measured.starts_low (h : Measured margin sent samples calls) : sent.head? = some (.act (.set .low)) := by
  cases h <;> rfl

theorem Measured.of_pulse {low : Ticks} {wait : Wait} (h : Measured margin (Signal.pulse low wait ++ sent) samples calls)
    (hw : wait ≠ .pause ackHighBeforeSample) : ∃ high low' high' rest, wait.timeout = some high ∧
      Near margin low low' ∧ Near margin high high' ∧ calls = .capture low' :: .capture high' :: rest ∧
      Measured margin sent samples rest := by
  generalize hall : Signal.pulse low wait ++ sent = all at h
  cases h with
  | pulse ht hlow hhigh h =>
    simp only [Signal.pulse, List.cons_append, List.nil_append, List.cons.injEq, Signal.act.injEq,
      LineAction.arm.injEq, Wait.pause, Wait.mk.injEq, Option.some.injEq, true_and] at hall
    obtain ⟨rfl, rfl, rfl⟩ := hall
    exact ⟨_, _, _, _, ht, hlow, hhigh, rfl, h⟩
  | slot | last =>
    simp only [ackSlot, Signal.pulse, List.cons_append, List.nil_append, List.cons.injEq, Signal.act.injEq,
      LineAction.arm.injEq, true_and] at hall
    exact absurd hall.2.1 hw

/-- The line is read in an ACK slot and in nothing else. -/
theorem Measured.of_ackSlot (h : Measured margin (ackSlot ++ sent) samples calls) : ∃ sample line,
    (sent = [] ∧ samples = [sample] ∧ calls = [.timeout sample, .timeout line]) ∨
    ∃ gap later rest, samples = sample :: later ∧ calls = .timeout sample :: .timeout line :: .capture gap :: rest ∧
      Measured margin sent later rest := by
  generalize hall : ackSlot ++ sent = all at h
  cases h with
  | pulse ht hlow hhigh h =>
    simp only [ackSlot, Signal.pulse, List.cons_append, List.nil_append, List.cons.injEq, true_and] at hall
    have hhead := h.starts_low
    rw [← hall.2.2] at hhead
    cases hhead
  | slot sample line gap h =>
    obtain rfl := List.append_cancel_left hall
    exact ⟨sample, line, .inr ⟨gap, _, _, rfl, rfl, h⟩⟩
  | last sample line => exact ⟨sample, line, .inl ⟨List.append_right_eq_self.1 hall, rfl, rfl⟩⟩

theorem Measured.of_bit {watched b : Bool} (h : Measured margin (Signal.bit watched b ++ sent) samples calls) :
    ∃ low high rest, Near margin (lowDuration b) low ∧ Near margin (highDuration b) high ∧
      calls = .capture low :: .capture high :: rest ∧ Measured margin sent samples rest := by
  have hw : highWait watched (highDuration b) ≠ .pause ackHighBeforeSample := by
    cases watched <;> cases b <;> decide
  obtain ⟨n, low, high, rest, hn, hlow, hhigh, rfl, hrest⟩ := h.of_pulse hw
  have hn : n = highDuration b := by
    cases watched <;> exact (Option.some.inj hn).symm
  exact ⟨low, high, rest, hlow, hn ▸ hhigh, rfl, hrest⟩

theorem Measured.of_start (h : Measured margin (start ++ sent) samples calls) :
    ∃ low high rest, Near margin Symbol.start.window.low low ∧ Near margin Symbol.start.window.high high ∧
      calls = .capture low :: .capture high :: rest ∧ Measured margin sent samples rest := by
  obtain ⟨n, low, high, rest, hn, hlow, hhigh, rfl, hrest⟩ := h.of_pulse (by decide)
  have hn : n = Symbol.start.window.high := (Option.some.inj hn).symm
  exact ⟨low, high, rest, hlow, hn ▸ hhigh, rfl, hrest⟩

/-! 150 ticks are not too many. -/

theorem start_of_near {low high : Nat} (hlow : Near 150 Symbol.start.window.low low)
    (hhigh : Near 150 Symbol.start.window.high high) :
    StartPulse.ofLow low = .valid ∧ Symbol.start.ValidTotal low high := by
  obtain ⟨hlow1, hlow2⟩ : 3700 ≤ low + 150 ∧ low ≤ 3700 + 150 := hlow
  obtain ⟨hhigh1, hhigh2⟩ : 800 ≤ high + 150 ∧ high ≤ 800 + 150 := hhigh
  have hvalid : 3400 ≤ low ∧ low ≤ 4000 := by omega
  have htotal : 4200 ≤ low + high ∧ low + high ≤ 5800 := by omega
  exact ⟨StartPulse.ofLow_eq_valid_iff.2 hvalid, htotal⟩

theorem bit_of_near {b : Bool} {low high : Nat} (hlow : Near 150 (lowDuration b) low)
    (hhigh : Near 150 (highDuration b) high) : bitOfLow? low = some b ∧ (Symbol.ofBit b).ValidTotal low high := by
  rw [bitOfLow?_eq_some_iff]
  cases b with
  | false =>
    obtain ⟨hlow1, hlow2⟩ : 1500 ≤ low + 150 ∧ low ≤ 1500 + 150 := hlow
    obtain ⟨hhigh1, hhigh2⟩ : 900 ≤ high + 150 ∧ high ≤ 900 + 150 := hhigh
    have hvalid : 1200 ≤ low ∧ low ≤ 1800 := by omega
    have htotal : 1950 ≤ low + high ∧ low + high ≤ 2850 := by omega
    exact ⟨hvalid, htotal⟩
  | true =>
    obtain ⟨hlow1, hlow2⟩ : 600 ≤ low + 150 ∧ low ≤ 600 + 150 := hlow
    obtain ⟨hhigh1, hhigh2⟩ : 1800 ≤ high + 150 ∧ high ≤ 1800 + 150 := hhigh
    have hvalid : 300 ≤ low ∧ low ≤ 900 := by omega
    have htotal : 1950 ≤ low + high ∧ low + high ≤ 2850 := by omega
    exact ⟨hvalid, htotal⟩

theorem Measured.of_bits {watched bitAt : Nat → Bool} {js : List Nat} {bits : List Bool} {earlier : List Call}
    (hp : Pulses bits earlier)
    (h : Measured 150 (js.flatMap (fun j => Signal.bit (watched j) (bitAt j)) ++ sent) samples calls) :
    ∃ pulses rest, calls = pulses ++ rest ∧ Pulses (bits ++ js.map bitAt) (earlier ++ pulses) ∧
      Measured 150 sent samples rest := by
  induction js generalizing bits earlier calls with
  | nil => exact ⟨[], calls, rfl, by simpa using hp, h⟩
  | cons j js ih =>
    rw [List.flatMap_cons, List.append_assoc] at h
    obtain ⟨low, high, others, hlow, hhigh, rfl, hmore⟩ := h.of_bit
    obtain ⟨hbit, htotal⟩ := bit_of_near hlow hhigh
    obtain ⟨pulses, rest, rfl, hall, hrest⟩ := ih (hp.more hbit htotal) hmore
    exact ⟨.capture low :: .capture high :: pulses, rest, rfl, by simpa using hall, hrest⟩

theorem Measured.of_block {first last : Bool} {byte : UInt8}
    (h : Measured 150 (Signal.block first byte last ++ sent) samples calls) : ∃ pulses rest, calls = pulses ++ rest ∧
      Pulses (Byte.bits byte ++ [last]) pulses ∧ Measured 150 (ackSlot ++ sent) samples rest := by
  rw [Signal.block, List.append_assoc, List.append_assoc] at h
  obtain ⟨pulses, rest, rfl, hp, heom⟩ := h.of_bits .none
  have hbyte : Pulses (Byte.bits byte) pulses := hp
  obtain ⟨low, high, slot, hlow, hhigh, rfl, hslot⟩ := heom.of_bit
  obtain ⟨hbit, htotal⟩ := bit_of_near hlow hhigh
  exact ⟨pulses ++ [Call.capture low, .capture high], slot, by simp, hbyte.more hbit htotal, hslot⟩

/-- Blocks that follow on a frame that has begun make a whole frame of it. -/
theorem Measured.of_blocks {own : LogicalAddress} {m rest : Message} {earlier : List Reading} {begun : List Call}
    {first : Bool} (hb : Begun m earlier begun) (hne : rest ≠ []) (hlen : (m ++ rest).length ≤ Message.maxLength)
    (h : Measured 150 (Signal.blocks first rest) samples calls) (hq : Quiet (m ++ rest) (earlier ++ samples))
    (hmeant : (m ++ rest).destination = own ∨ (m ++ rest).destination.isBroadcast = true) :
    WellFormed own (m ++ rest) (begun ++ calls) := by
  induction rest generalizing m earlier begun first samples calls with
  | nil => exact absurd rfl hne
  | cons byte rest ih =>
    obtain ⟨pulses, slot, rfl, hp, hslot⟩ := h.of_block
    obtain ⟨sample, line, ⟨hend, rfl, rfl⟩ | ⟨gap, later, events, rfl, rfl, hlater⟩⟩ := hslot.of_ackSlot
    · have hlast : rest = [] := by
        cases rest with
        | nil => rfl
        | cons => cases hend
      subst hlast
      exact .mk hb (.mk line hp) (.inl rfl) hq hmeant
    · have hmore : rest ≠ [] := by
        rintro rfl
        cases hlater.starts_low
      have hlt : m.length + 1 < Message.maxLength := by
        have hpos := List.length_pos_iff.2 hmore
        rw [List.length_append, List.length_cons] at hlen
        omega
      rw [List.isEmpty_eq_false_iff.2 hmore] at hp
      have hbegun : Begun (m ++ [byte]) (earlier ++ [sample]) _ := hb.block gap (.mk line hp) hlt
      have hsplit : m ++ byte :: rest = m ++ [byte] ++ rest := by simp
      rw [hsplit] at hlen hq hmeant ⊢
      have hframe := ih hbegun hmore hlen hlater (by simpa using hq) hmeant
      simpa using hframe

theorem Measured.wellFormed {own : LogicalAddress} {m : Message} (hm : m.Legal)
    (h : Measured 150 m.signals samples calls) (hq : Quiet m samples)
    (hmeant : m.destination = own ∨ m.destination.isBroadcast = true) : WellFormed own m calls := by
  obtain ⟨low, high, rest, hlow, hhigh, rfl, hblocks⟩ := h.of_start
  obtain ⟨hstart, htotal⟩ := start_of_near hlow hhigh
  exact hblocks.of_blocks (.start hstart htotal) hm.1 hm.2 hq hmeant

end Signal

/-- A message for this device or for all, measured as badly as that by a device that is idle. -/
theorem Engine.received_within_margin {before : List Call} (hidle : (({} : Engine).run before).state = .idle)
    {m : Message} (hm : m.Legal) {samples : List Reading} {calls : List Call}
    (hmeasured : Signal.Measured 150 m.signals samples calls) (hq : Quiet m samples)
    (hmeant : m.destination = (({} : Engine).run before).address ∨ m.destination.isBroadcast = true)
    (opening : Ticks) (line : Reading) :
    (({} : Engine).run before).outcomes (.capture opening :: (calls ++ [.timeout line])) = [.received m] := by
  have he : (({} : Engine).run before).Steady := steady_run before
  generalize ({} : Engine).run before = e at hidle hmeant he
  have hstart : (e.after (.capture opening)).state = .follower .startLow := by
    show (e.onCapture opening).engine.state = _
    rw [onCapture_idle hidle]
  have haddress : (e.after (.capture opening)).address = e.address := address_onCapture e opening
  have hframe : Grammar.WellFormed (e.after (.capture opening)).address m calls :=
    hmeasured.wellFormed hm hq (haddress ▸ hmeant)
  obtain ⟨hreceived, hfinish⟩ := outcomes_frame (he.after (.capture opening)) hstart hframe
  have hopening : e.outcomes [.capture opening] = [] := outcomes_capture (by rw [hidle]; decide) opening
  show e.outcomes ([.capture opening] ++ (calls ++ [.timeout line])) = _
  rw [outcomes_append, hopening, outcomes_append]
  show [] ++ ((e.after (.capture opening)).outcomes calls ++
    ((e.after (.capture opening)).run calls).outcomes [.timeout line]) = _
  rw [hreceived, outcomes_timeout, verdict_of_follower hfinish (by decide)]
  rfl

/-- A broadcast of two blocks in which every level is 150 ticks off. One tick more, and its start bit is
too short. -/
theorem Engine.received_within_margin_broadcast :
    let before : List Call := [.setAddress ⟨4⟩, .setEnabled true]
    let e := ({} : Engine).run before
    let m : Message := [0x0f, 0x36]
    let zero : List Call := [.capture 1650, .capture 750]
    let one : List Call := [.capture 450, .capture 1950]
    let header := zero ++ zero ++ zero ++ zero ++ one ++ one ++ one ++ one ++ zero ++ [.timeout none, .timeout none]
    let data := zero ++ zero ++ one ++ one ++ zero ++ one ++ one ++ zero ++ one ++ [.timeout none, .timeout none]
    let frame (low high : Ticks) : List Call := [.capture low, .capture high] ++ header ++ [.capture 5000] ++ data
    (e.state = .idle ∧ m.Legal ∧ Signal.Measured 150 m.signals [none, none] (frame 3550 650) ∧
      Quiet m [none, none] ∧ m.destination.isBroadcast = true) ∧
    e.outcomes (.capture 0 :: (frame 3550 650 ++ [.timeout none])) = [.received m] ∧
    e.outcomes (.capture 0 :: (frame 3549 650 ++ [.timeout none])) = [] := by
  intro before e m zero one header data frame
  have hidle : e.state = .idle := by decide +kernel
  have hquiet : Quiet m [none, none] := by
    intro _ s hs
    simp only [List.mem_cons, List.not_mem_nil, or_false, or_self] at hs
    rw [hs]
    rfl
  have hmeasured : Signal.Measured 150 m.signals [none, none] (frame 3550 650) := by
    iterate 10 refine .pulse rfl (by decide) (by decide) ?_
    refine .slot none none 5000 ?_
    iterate 9 refine .pulse rfl (by decide) (by decide) ?_
    exact .last none none
  have hmeant : m.destination.isBroadcast = true := by decide
  refine ⟨⟨hidle, by decide, hmeasured, hquiet, hmeant⟩, ?_, by decide +kernel⟩
  exact received_within_margin hidle (by decide) hmeasured hquiet (.inr hmeant) 0 none

end HdmiCec
