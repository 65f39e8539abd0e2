import HdmiCec.Proofs.Bus.Lockstep

/-! One broadcast as all nodes see it while noise may hold the line low in its ACK slots. The speaker
and its followers read the line at the same moment, one after the other, and each keeps what it has read
until it acts on it. So all of them are done with the block in the same way (`Node.Accord`). -/
namespace HdmiCec

namespace Node

variable {n k : Node} {fall now : Nat} {noise : Bool} {log : List (Nat × Completion)}

/-- Speaker `n` and follower `k` read the same in an ACK slot. As long as only one of them has read
the line, the other is going to find the same noise on it. -/
structure Sampled (n k : Node) (noise : Bool) : Prop where
  both : n.engine.state = .initiator .ackVerify → k.engine.state = .follower .ackVerify →
    k.engine.rx.refused = !n.engine.tx.acked
  speaker : n.engine.state = .initiator .ackVerify → k.engine.state = .follower .ackLow →
    n.engine.tx.acked = !noise
  follower : n.engine.state ≠ .initiator .ackVerify → k.engine.state = .follower .ackVerify →
    k.engine.rx.refused = noise

def handed (n : Node) (fall : Nat) : List (Nat × Completion) :=
  if n.engine.tx.isLast then [(fall + Symbol.zero.window.low, .received n.engine.tx.message)] else []

/-- Node `k` while node `n` sends a broadcast and holds the line low since `fall`, or has let go of it.
Of this broadcast `k` has been handed `log`. -/
inductive Accord (n k : Node) (fall now : Nat) (noise : Bool) : List (Nat × Completion) → Prop
  | off : k.engine.state = .disabled → Accord n k fall now noise []
  | waits : n.engine.state = .initiator .freeTime → k.engine.state = .idle → Accord n k fall now noise []
  | follows : k.engine.Follows n.engine → k.engine.state ≠ .follower .ackFinish → n.Sampled k noise →
      Accord n k fall now noise []
  | keeps : k.engine.Follows n.engine → k.engine.state = .follower .ackFinish → n.engine.tx.acked = true →
      Accord n k fall now noise (n.handed fall)
  | drops : n.engine.state = .initiator .ackVerify → n.engine.tx.acked = false →
      fall + Symbol.zero.window.low ≤ now → k.engine.state = .idle → Accord n k fall now noise []
  | through : n.engine.state = .initiator .ackVerify → n.engine.tx.acked = true → n.engine.tx.isLast = true →
      fall + nominalBit ≤ now → k.engine.state = .idle → Accord n k fall now noise (n.handed fall)

theorem Sampled.of_honest (hn : n.engine.state ≠ .initiator .ackVerify) (hk : k.Honest) : n.Sampled k false :=
  ⟨fun h => absurd h hn, fun h => absurd h hn, fun _ h => hk.accepts h⟩

theorem InSlot.speaks (h : n.InSlot) : n.engine.state.speaks = true := by
  rcases h with h | h | h <;> rw [h] <;> rfl

theorem Accord.at {t : Nat} (h : n.Accord k fall now noise log) (ht : now ≤ t) :
    n.Accord k fall t noise log := by
  cases h with
  | off hs => exact .off hs
  | waits hs hk => exact .waits hs hk
  | follows hf hs hm => exact .follows hf hs hm
  | keeps hf hs ha => exact .keeps hf hs ha
  | drops hs ha hlate hk => exact .drops hs ha (Nat.le_trans hlate ht) hk
  | through hs ha hl hlate hk => exact .through hs ha hl (Nat.le_trans hlate ht) hk

/-- A node that follows a broadcast does not answer it. -/
theorem not_pulling_of_follows (hn : n.Sound) (hk : k.Sound) (hf : k.engine.Follows n.engine) (hh : k.Honest)
    (hb : n.engine.tx.message.destination = .broadcast) (ha : k.engine.address ≠ .broadcast) :
    k.pulling = false := by
  refine Bool.eq_false_iff.2 fun hp => ?_
  rcases State.mayPull_cases (hk.free hp) with hs | hs
  · obtain ⟨s, hst, -⟩ := hf.initiator
    cases hks : k.engine.state with
    | initiator u =>
      unfold Engine.Follows at hf
      split at hf <;> simp_all
    | _ => rw [hks] at hs; cases hs
  · have hans : k.engine.state.answers = true := by rcases hs with hs | hs <;> rw [hs] <;> rfl
    obtain ⟨hst, hcopy, -⟩ := hf.of_answers hans
    have hdest := destination_of_copies hn hst hcopy
    rw [hh.pulls hans] at hp
    exact ha (hp.symm.trans (hdest.trans hb))

theorem Accord.falling (h : n.Accord k fall now noise log) (hn : n.Placed fall now) (hk : k.Placed fall now)
    (hd : n.timer.deadline? = some now) (line : Level) (hm : (n.expire line now).engine.state.drives = true)
    (hb : (n.expire line now).engine.tx.message.destination = .broadcast) (ha : k.engine.address ≠ .broadcast)
    (hp : k.pulling = false) : (n.expire line now).Accord (k.after (some .falling) now) now now false log ∧
      (k.after (some .falling) now).Placed now now ∧ (k.after (some .falling) now).pulling = false := by
  have hnot := State.ne_ackVerify_of_drives hm
  have hear : k.timer.waitsFor .falling = true → (k.hear now).engine.Follows (n.expire line now).engine →
      (n.expire line now).Accord (k.after (some .falling) now) now now false [] ∧
        (k.after (some .falling) now).Placed now now ∧ (k.after (some .falling) now).pulling = false := by
    intro hw hf
    have hh := honest_hear hk.sound hw now
    rw [after_of_waitsFor hw]
    refine ⟨.follows hf (fun hs => hnot (hf.of_ackFinish hs)) (.of_honest hnot hh), (hk.hear_falling hw).1, ?_⟩
    exact not_pulling_of_follows (hn.sound.expire hd line now).1 (hk.sound.hear hw now).1 hf hh hb
      (by rwa [engine_hear, Engine.address_onCapture])
  cases h with
  | off hs =>
    rw [after_of_disabled hk.sound hs]
    refine ⟨.off hs, hk.keep_falling ?_ ?_ (by rw [hs]; rfl) (by rw [hs]; rfl), hp⟩
    · rw [hk.sound.waitsFor_of_disabled hs]; decide
    · rw [hk.sound.waitsFor_of_disabled hs]; decide
  | waits hs hidle =>
    have he := Engine.onCapture_idle (t := k.timer.elapsed now) hidle
    refine hear ((hk.sound.waitsFor_of_idle hidle).2 rfl) ?_
    rw [engine_hear, he, engine_expire, Engine.onTimeout_freeTime hs]
    rfl
  | follows hf hs hm' =>
    obtain ⟨hw, hf'⟩ := hn.follows_falling hk hd hf line hm
    exact hear hw hf'
  | keeps hf hs hack =>
    obtain ⟨hw, hf'⟩ := hn.follows_falling hk hd hf line hm
    rw [engine_expire] at hm
    rw [handed, (Engine.acked_of_drives (hf.of_ackFinish hs) hm).2]
    exact hear hw hf'
  | drops hs hack =>
    rw [engine_expire] at hm
    rw [(Engine.acked_of_drives hs hm).1] at hack
    cases hack
  | through hs _ hl =>
    rw [engine_expire] at hm
    rw [(Engine.acked_of_drives hs hm).2] at hl
    cases hl

theorem Accord.rising (h : n.Accord k fall now noise log) (hn : n.Placed fall now) (hk : k.Placed fall now)
    (hd : n.timer.deadline? = some now)
    (hs : n.engine.state = .initiator .startLow ∨ ∃ f, n.engine.state = .initiator (.low f)) (line : Level) :
    (n.expire line now).Accord (k.after (some .rising) now) fall now false log := by
  have hm : (n.expire line now).engine.state = .initiator .startHigh ∨
      ∃ f, (n.expire line now).engine.state = .initiator (.high f) := by
    rw [engine_expire]
    rcases hs with hs | ⟨f, hs⟩
    · rw [Engine.onTimeout_startLow hs]; exact .inl rfl
    · rw [Engine.onTimeout_low hs]; exact .inr ⟨f, rfl⟩
  have hnot : (n.expire line now).engine.state ≠ .initiator .ackVerify := by
    rcases hm with hm | ⟨f, hm⟩ <;> rw [hm] <;> simp
  have hne : n.engine.state ≠ .initiator .ackVerify ∧ n.engine.state ≠ .initiator .freeTime := by
    rcases hs with hs | ⟨f, hs⟩ <;> rw [hs] <;> simp
  cases h with
  | off hoff =>
    rw [after_of_disabled hk.sound hoff]
    exact .off hoff
  | waits hw => exact absurd hw hne.2
  | follows hf =>
    obtain ⟨hw, hf'⟩ := hn.follows_rising hk hd hf hs line
    rw [after_of_waitsFor hw]
    refine .follows hf' (fun hk' => hnot (hf'.of_ackFinish hk')) (.of_honest hnot (.of_not_answers ?_))
    have hno := (hk.sound.hear_rising hw now).1
    cases hst : (k.hear now).engine.state with
    | follower s => simpa [hst, State.mayPull, State.answers] using hno
    | _ => rfl
  | keeps hf hk' => exact absurd (hf.of_ackFinish hk') hne.1
  | drops hv => exact absurd hv hne.1
  | through hv => exact absurd hv hne.1

theorem Accord.slot (h : n.Accord k fall now noise log) (hn : n.Sound)
    (hb : n.engine.tx.message.destination = .broadcast)
    (hs : n.engine.state = .initiator .ackLow ∨ n.engine.state = .initiator .ackHigh) (line : Level)
    (hline : n.Listens → (line = .low ↔ noise = true)) : (n.expire line now).Accord k fall now noise log := by
  have hne : n.engine.state ≠ .initiator .ackVerify ∧ n.engine.state ≠ .initiator .freeTime := by
    rcases hs with hs | hs <;> rw [hs] <;> simp
  have he := n.engine_expire line now
  cases h with
  | off hoff => exact .off hoff
  | waits hw => exact absurd hw hne.2
  | follows hf hk hm =>
    refine .follows (Placed.follows_ack hf hs line) hk ?_
    rcases hs with hs | hs
    · rw [Engine.onTimeout_ackLow hs] at he
      refine ⟨fun hv => ?_, fun hv => ?_, fun _ hk => hm.follower hne.1 hk⟩ <;> rw [he] at hv <;> cases hv
    · rw [Engine.onTimeout_ackHigh hs, Outgoing.isBroadcast_eq (hn.fit.busy _ hs).1, hb] at he
      have hack : (n.expire line now).engine.tx.acked = !noise := by
        rw [he]
        have hl := hline (.inl hs)
        cases line <;> cases noise <;> simp_all [Reading.isLow, LogicalAddress.isBroadcast]
      refine ⟨fun _ hk => ?_, fun _ _ => hack, fun hv => absurd (by rw [he]) hv⟩
      rw [hack, hm.follower hne.1 hk, Bool.not_not]
  | keeps hf hk' => exact absurd (hf.of_ackFinish hk') hne.1
  | drops hv => exact absurd hv hne.1
  | through hv => exact absurd hv hne.1

/-- Within the ACK slot nobody looks out for a rising edge. -/
theorem Accord.unmoved {e : Option Edge} (h : n.Accord k fall now noise log) (hk : k.Sound) (hs : n.InSlot)
    (he : e ≠ some .falling) : k.after e now = k := by
  cases h with
  | off hoff => exact hk.after_of_rests (by rw [hoff]; rfl) he
  | follows hf =>
    rcases answers_of_follows hf hs with ha | hr
    · exact hk.after_of_answers ha e now
    · exact hk.after_of_rests (by rw [hr]; rfl) he
  | keeps _ hr => exact hk.after_of_rests (by rw [hr]; rfl) he
  | waits _ hr => exact hk.after_of_rests (by rw [hr]; rfl) he
  | drops _ _ _ hr => exact hk.after_of_rests (by rw [hr]; rfl) he
  | through _ _ _ _ hr => exact hk.after_of_rests (by rw [hr]; rfl) he

/-- A deadline of a follower passes within the ACK slot. It reads the line, drops the frame or keeps it as
the speaker has read, and is through with the last block when the slot is over. -/
theorem Accord.expire (h : n.Accord k fall now noise log) (hn : n.Placed fall now) (hk : k.Placed fall now)
    (hb : n.engine.tx.message.destination = .broadcast) (hd : k.timer.deadline? = some now)
    (hfirst : ∀ u, n.timer.deadline? = some u → now ≤ u) (hfree : k.engine.isSending = false) (line : Level)
    (hline : n.Listens → (line = .low ↔ noise = true)) : (∃ s, k.engine.state = .follower s) ∧
      n.Accord (k.expire line now) fall now noise (log ++ k.engine.verdict.toList.map (now, ·)) := by
  have he := k.engine_expire line now
  have hquit : k.engine.quit.state = .idle := by simp [Engine.quit, hfree]
  have idle : k.engine.state = .idle → False := by
    intro hs
    rw [hk.sound.deadline?_of_idle hs] at hd
    cases hd
  cases h with
  | off hs =>
    rw [hk.sound.deadline?_of_disabled hs] at hd
    cases hd
  | waits _ hs => exact (idle hs).elim
  | drops _ _ _ hs => exact (idle hs).elim
  | through _ _ _ _ hs => exact (idle hs).elim
  | follows hf hfin hm =>
    rcases hn.follows_expire hk hd hfirst hf line with ⟨hs, ht, hf'⟩ | ⟨hs, ht, hv, hf'⟩ | ⟨hs, -⟩
    · -- It reads the line. The speaker has done so already, or is about to.
      obtain ⟨hst, hcopy, -⟩ := hf.of_answers (by rw [hs]; rfl)
      have hlisten : n.Listens := by
        rcases hst with hst | hst
        · have : now ≤ fall + 600 := hfirst _ (hn.initiator_deadline hst (by simp))
          omega
        · exact hst
      rw [Engine.onTimeout_follower_ackLow hs, destination_of_copies hn.sound (.inr hlisten) hcopy, hb] at he
      have hread : (k.expire line now).engine.rx.refused = noise := by
        rw [he]
        have hl := hline hlisten
        cases line <;> cases noise <;> simp_all [Reading.isLow, LogicalAddress.isBroadcast]
      refine ⟨⟨_, hs⟩, ?_⟩
      simp only [Engine.verdict, hs, Option.toList_none, List.map_nil, List.append_nil]
      refine .follows hf' (by rw [he]; simp) ⟨fun hv _ => ?_, fun _ hk' => ?_, fun _ _ => hread⟩
      · rw [hread, hm.speaker hv hs, Bool.not_not]
      · rw [he] at hk'
        cases hk'
    · -- It drops the frame or keeps it.
      obtain ⟨-, hcopy, heom⟩ := hf.of_answers (by rw [hs]; rfl)
      have hboth := hm.both hv hs
      have hfit := (hn.sound.fit.busy _ hv).2
      have hlast := hcopy.isLast heom hfit hn.sound.fit.tx.length_le
      have hdest := destination_of_copies hn.sound (.inr (.inr hv)) hcopy
      refine ⟨⟨_, hs⟩, ?_⟩
      cases hr : k.engine.rx.refused with
      | true =>
        rw [Engine.onTimeout_refused hs hr] at he
        simp only [Engine.verdict, hs, hr, Bool.true_eq_false, false_and, if_false, Option.toList_none, List.map_nil,
          List.append_nil]
        refine .drops hv ?_ (Nat.le_of_eq ht.symm) (by rw [he, hquit])
        rw [hr] at hboth
        simpa using hboth.symm
      | false =>
        rw [Engine.onTimeout_follower_ackVerify hs hr] at he
        have hlog : [] ++ k.engine.verdict.toList.map (now, ·) = n.handed fall := by
          simp only [Engine.verdict, hs, hr, hlast, hdest, Engine.hears, hb, handed, true_and]
          by_cases hl : n.engine.tx.isLast = true
          · rw [hcopy.message hl, ht]
            simp [hl, LogicalAddress.isBroadcast, Symbol.window]
          · simp [hl]
        rw [hlog]
        refine .keeps (hf' hr) (by rw [he]) ?_
        rw [hr] at hboth
        simpa using hboth.symm
    · exact absurd hs hfin
  | keeps hf hs hack =>
    have hv := hf.of_ackFinish hs
    rcases hn.follows_expire hk hd hfirst hf line with ⟨hs', -⟩ | ⟨hs', -⟩ | ⟨-, hl, ht, -⟩
    · rw [hs] at hs'
      cases hs'
    · rw [hs] at hs'
      cases hs'
    · rw [Engine.onTimeout_follower hs (by simp) (by simp)] at he
      simp only [Engine.Follows, hv] at hf
      have hlast := hf.2.1.isLast hf.2.2 (hn.sound.fit.busy _ hv).2 hn.sound.fit.tx.length_le
      refine ⟨⟨_, hs⟩, ?_⟩
      simp only [Engine.verdict, hs, Option.toList_none, List.map_nil, List.append_nil]
      exact .through hv hack (hlast.symm.trans hl) (Nat.le_of_eq ht.symm) (by rw [he, hquit])

theorem InSlot.unmoved (hs : n.InSlot) (hn : n.Sound) (e : Option Edge) (now : Nat) : n.after e now = n := by
  cases e with
  | none => rfl
  | some e =>
    refine after_of_not_waitsFor (fun hw => ?_) now
    rcases hs with hs | hs | hs <;> rw [hn.waitsFor_of_initiator hs] at hw <;> cases hw

/-- Until the followers are done with the slot, nobody in it looks out for any edge. -/
theorem Accord.still {e : Option Edge} (h : n.Accord k fall now noise log) (hk : k.Placed fall now) (hs : n.InSlot)
    (he : e = some .falling → now < fall + 1500) : k.after e now = k := by
  by_cases hfalling : e = some .falling
  · have hearly := he hfalling
    cases h with
    | off hoff => exact after_of_disabled hk.sound hoff e now
    | waits hw => rcases hs with hs | hs | hs <;> rw [hw] at hs <;> cases hs
    | follows hf hfin =>
      rcases answers_of_follows hf hs with ha | hr
      · exact hk.sound.after_of_answers ha e now
      · exact absurd hr hfin
    | keeps _ hr =>
      have ha := hk.anchored
      have hb := hk.begun
      simp only [Anchored, hr, Symbol.window] at ha
      have hl : k.engine.rx.isLast = true := by
        rcases ha with ha | ha
        · omega
        · exact ha.1
      rw [hfalling]
      refine after_of_not_waitsFor (fun hw => ?_) now
      rw [hk.sound.waitsFor_of_follower hr, Follower.edge?, if_pos hl] at hw
      cases hw
    | drops _ _ hlate =>
      simp only [Symbol.window] at hlate
      omega
    | through _ _ _ hlate =>
      simp only [nominalBit] at hlate
      omega
  · exact h.unmoved hk.sound hs hfalling

/-- Between two deadlines either both have read the line or neither has, and what is read later is not
known yet. -/
theorem Accord.of_ahead (h : n.Accord k fall now noise log) (hn : n.Placed fall now) (hk : k.Placed fall now)
    (hn' : ∀ u, n.timer.deadline? = some u → now < u) (hk' : ∀ u, k.timer.deadline? = some u → now < u)
    (noise' : Bool) : n.Accord k fall now noise' log := by
  cases h with
  | off hs => exact .off hs
  | waits hs hi => exact .waits hs hi
  | keeps hf hs ha => exact .keeps hf hs ha
  | drops hs ha hlate hi => exact .drops hs ha hlate hi
  | through hs ha hl hlate hi => exact .through hs ha hl hlate hi
  | follows hf hfin hm =>
    refine .follows hf hfin ⟨hm.both, fun hv hs => ?_, fun hv hs => ?_⟩
    · have ha := hn.anchored
      have hb := hn.begun
      have hlt := hk' _ (hk.ackLow_deadline hs)
      simp only [Anchored, hv, Initiator.since] at ha
      omega
    · have ha := hk.anchored
      have hb := hk.begun
      simp only [Anchored, hs, sampleTime] at ha
      obtain ⟨hst | hst | hst, -⟩ := hf.of_answers (by rw [hs]; rfl)
      · have : now < fall + 600 := hn' _ (hn.initiator_deadline hst (by simp))
        omega
      · have : now < fall + 1050 := hn' _ (hn.initiator_deadline hst (by simp))
        omega
      · exact absurd hst hv

/-- Everybody has made up its mind by then. -/
theorem Placed.not_answers (hk : k.Placed fall now) (hlate : fall + 1500 < now) :
    k.engine.state.answers = false := by
  refine Bool.eq_false_iff.2 fun ha => ?_
  obtain ⟨u, hu, hle⟩ := hk.answers_deadline ha
  have := hk.onTime u hu
  omega

theorem Accord.rests (h : n.Accord k fall now noise log) (hk : k.Placed fall now)
    (hs : n.engine.state = .initiator .ackVerify) (hlate : fall + 1500 < now) :
    k.engine.state = .disabled ∧ log = [] ∨ n.engine.tx.acked = false ∧ k.engine.state = .idle ∧ log = [] ∨
      n.engine.tx.acked = true ∧ log = n.handed fall ∧
        (k.engine.state = .follower .ackFinish ∨ k.engine.state = .idle) := by
  have hno := hk.not_answers hlate
  cases h with
  | off hoff => exact .inl ⟨hoff, rfl⟩
  | waits hw =>
    rw [hs] at hw
    cases hw
  | follows hf hfin =>
    rcases answers_of_follows hf (.inr (.inr hs)) with ha | hr
    · rw [hno] at ha
      cases ha
    · exact absurd hr hfin
  | keeps _ hr ha => exact .inr (.inr ⟨ha, rfl, .inl hr⟩)
  | drops _ ha _ hr => exact .inr (.inl ⟨ha, hr, rfl⟩)
  | through _ ha _ _ hr => exact .inr (.inr ⟨ha, rfl, .inr hr⟩)

end Node
end HdmiCec
