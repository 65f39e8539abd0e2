import HdmiCec.Proofs.Bus.Ledger

/-! One frame as all nodes see it. Whoever is on follows the node that speaks bit by bit, pulls the
line in the ACK slot exactly if the frame is for its own address, and is through with the last block
at the same time as the speaker (`Node.InStep`). -/
namespace HdmiCec

def State.rests : State → Bool
  | .disabled | .idle | .initiator .freeTime | .follower .ackFinish => true
  | _ => false

theorem State.rests_cases {s : State} (h : s.rests = true) :
    s = .disabled ∨ s = .idle ∨ s = .initiator .freeTime ∨ s = .follower .ackFinish := by
  unfold rests at h
  split at h <;> simp_all

theorem State.speaks_of_drives {s : State} (h : s.drives = true) : s.speaks = true := by
  obtain ⟨u, rfl, hu⟩ := State.drives_iff.1 h
  cases u <;> first | rfl | cases hu

theorem State.initiator_of_speaks {s : State} (h : s.speaks = true) : ∃ u, s = .initiator u ∧ u ≠ .freeTime := by
  cases s with
  | initiator u =>
    refine ⟨u, rfl, ?_⟩
    rintro rfl
    cases h
  | _ => cases h

theorem State.ne_ackVerify_of_drives {s : State} (h : s.drives = true) : s ≠ .initiator .ackVerify := by
  rintro rfl
  cases h

namespace Engine

variable {e : Engine} {line : Reading}

theorem rests_quit (e : Engine) : e.quit.state.rests = true := by
  rcases e.quit_state with ⟨hq, -⟩ | ⟨hq, -⟩ <;> rw [hq] <;> rfl

theorem not_follows_idle {d : Engine} (h : d.state = .idle) : ¬ d.Follows e := by
  intro hf
  unfold Follows at hf
  split at hf <;> simp_all

end Engine

namespace Node

variable {n k : Node} {fall now : Nat} {e : Option Edge}

structure Honest (k : Node) : Prop where
  pulls : k.engine.state.answers = true → (k.pulling = true ↔ k.engine.rx.destination = k.engine.address)
  accepts : k.engine.state = .follower .ackVerify → k.engine.rx.refused = false

theorem Honest.of_not_answers (h : k.engine.state.answers = false) : k.Honest := by
  refine ⟨fun ha => ?_, fun hs => ?_⟩
  · rw [h] at ha
    cases ha
  · rw [hs] at h
    cases h

theorem not_answers_of_waitsFor (h : k.Sound) {ed : Edge} (hw : k.timer.waitsFor ed = true) :
    k.engine.state.answers = false := by
  cases hs : k.engine.state with
  | follower s =>
    rw [h.waitsFor_of_follower hs] at hw
    cases s <;> simp_all [State.answers, Follower.answers, Follower.edge?]
  | _ => rfl

/-- At the end of a block a follower pulls the line if the frame is for its own address. -/
theorem pulling_hear_eom (h : k.engine.state = .follower (.high .eom))
    (ht : (Symbol.ofBit k.engine.rx.eom).ValidTotal k.engine.rx.lowTicks (k.timer.elapsed now))
    (hp : k.pulling = false) : (k.hear now).pulling = true ↔ k.engine.rx.destination = k.engine.address := by
  by_cases hd : k.engine.rx.destination = k.engine.address
  · simp [hear, Engine.onCapture, Engine.edgeMove?, h, Incoming.onEdge, Incoming.bit, ht, Incoming.endBit,
      Engine.perform, Engine.enter, Engine.target, Engine.entry, Engine.followerEntry, absorb, Entry.actions, act,
      hd]
  · simp [hear, Engine.onCapture, Engine.edgeMove?, h, Incoming.onEdge, Incoming.bit, ht, Incoming.endBit,
      Engine.perform, Engine.enter, Engine.target, Engine.entry, Engine.followerEntry, absorb, Entry.actions, act,
      hd, hp]

theorem honest_hear (h : k.Sound) (hw : k.timer.waitsFor .falling = true) (now : Nat) : (k.hear now).Honest := by
  by_cases ha : (k.hear now).engine.state.answers = true
  · rw [engine_hear] at ha
    have hs := Engine.onCapture_answers ha (not_answers_of_waitsFor h hw)
    by_cases ht : (Symbol.ofBit k.engine.rx.eom).ValidTotal k.engine.rx.lowTicks (k.timer.elapsed now)
    · have he : (k.hear now).engine = { k.engine with state := .follower .ackLow } := by
        rw [engine_hear, Engine.onCapture_high_eom hs ht]
      refine ⟨fun _ => ?_, fun hv => ?_⟩
      · rw [he]
        exact pulling_hear_eom hs ht (h.not_pulling_of_waitsFor hw)
      · rw [he] at hv
        cases hv
    · rw [Engine.onCapture_high_invalid hs ht] at ha
      rcases k.engine.quit_state with ⟨hq, -⟩ | ⟨hq, -⟩ <;> rw [hq] at ha <;> cases ha
  · exact .of_not_answers (Bool.eq_false_iff.2 ha)

/-- Node `k` while node `n` speaks, on a line that went low at `fall`. -/
inductive InStep (n k : Node) (fall now : Nat) : Prop
  | off : k.engine.state = .disabled → InStep n k fall now
  | follows : k.engine.Follows n.engine → k.Honest → InStep n k fall now
  /-- The last slot of a frame ends for both at the same time, in either order. -/
  | through : n.engine.state = .initiator .ackVerify → n.engine.tx.isLast = true → fall + nominalBit ≤ now →
      k.engine.state = .idle ∨ k.engine.state = .initiator .freeTime → InStep n k fall now

def Listens (n : Node) : Prop := n.engine.state = .initiator .ackHigh ∨ n.engine.state = .initiator .ackVerify

def InSlot (n : Node) : Prop := n.engine.state = .initiator .ackLow ∨ n.Listens

/-- In an ACK slot a follower answers, or is done with that. -/
theorem answers_of_follows (hf : k.engine.Follows n.engine) (hs : n.InSlot) :
    k.engine.state.answers = true ∨ k.engine.state = .follower .ackFinish := by
  rcases hs with hs | hs | hs
  · simp only [Engine.Follows, hs] at hf
    rcases hf.1 with hst | hst <;> exact .inl (by rw [hst]; rfl)
  · simp only [Engine.Follows, hs] at hf
    rcases hf.1 with hst | hst <;> exact .inl (by rw [hst]; rfl)
  · simp only [Engine.Follows, hs] at hf
    rcases hf.1 with hst | hst | hst
    · exact .inl (by rw [hst]; rfl)
    · exact .inl (by rw [hst]; rfl)
    · exact .inr hst

theorem after_of_disabled (hk : k.Sound) (hs : k.engine.state = .disabled) (e : Option Edge) (now : Nat) :
    k.after e now = k := by
  cases e with
  | none => rfl
  | some e => rw [after_of_not_waitsFor (by rw [hk.waitsFor_of_disabled hs]; decide)]

theorem Sound.after_of_answers (h : k.Sound) (ha : k.engine.state.answers = true) (e : Option Edge) (now : Nat) :
    k.after e now = k := by
  cases e with
  | none => rfl
  | some e =>
    refine after_of_not_waitsFor (fun hw => ?_) now
    rw [not_answers_of_waitsFor h hw] at ha
    cases ha

theorem Sound.after_of_listens (h : n.Sound) (hs : n.Listens) (he : e ≠ some .falling) : n.after e now = n := by
  rcases n.after_cases now he with hsame | ⟨-, hw, -⟩
  · exact hsame
  · rcases h.waits_rising hw with hr | ⟨f, hr⟩ <;> rcases hs with hs | hs <;> rw [hs] at hr <;> cases hr

theorem Sound.after_of_rests (h : k.Sound) (hr : k.engine.state.rests = true) (he : e ≠ some .falling) :
    k.after e now = k := by
  rcases k.after_cases now he with hsame | ⟨-, hw, -⟩
  · exact hsame
  · rcases h.waits_rising hw with hs | ⟨f, hs⟩ <;> rw [hs] at hr <;> cases hr

section instep

theorem InStep.at {t : Nat} (h : n.InStep k fall now) (ht : now ≤ t) : n.InStep k fall t := by
  cases h with
  | off hs => exact .off hs
  | follows hf hh => exact .follows hf hh
  | through hs hl hlate hq => exact .through hs hl (Nat.le_trans hlate ht) hq

theorem InStep.falling (h : n.InStep k fall now) (hn : n.Placed fall now) (hk : k.Placed fall now)
    (hd : n.timer.deadline? = some now) (line : Level) (hm : (n.expire line now).engine.state.drives = true) :
    (n.expire line now).InStep (k.after (some .falling) now) now now := by
  cases h with
  | off hs =>
    rw [after_of_disabled hk.sound hs]
    exact .off hs
  | follows hf hh =>
    obtain ⟨hw, hf'⟩ := hn.follows_falling hk hd hf line hm
    rw [after_of_waitsFor hw]
    exact .follows hf' (honest_hear hk.sound hw now)
  | through hs hl hlate hq =>
    rw [engine_expire] at hm
    have := (Engine.acked_of_drives hs hm).2
    rw [hl] at this
    cases this

theorem InStep.rising (h : n.InStep k fall now) (hn : n.Placed fall now) (hk : k.Placed fall now)
    (hd : n.timer.deadline? = some now)
    (hs : n.engine.state = .initiator .startLow ∨ ∃ f, n.engine.state = .initiator (.low f)) (line : Level) :
    (n.expire line now).InStep (k.after (some .rising) now) fall now := by
  cases h with
  | off hoff =>
    rw [after_of_disabled hk.sound hoff]
    exact .off hoff
  | follows hf hh =>
    obtain ⟨hw, hf'⟩ := hn.follows_rising hk hd hf hs line
    rw [after_of_waitsFor hw]
    refine .follows hf' (.of_not_answers ?_)
    have hno := (hk.sound.hear_rising hw now).1
    cases hst : (k.hear now).engine.state with
    | follower s => simpa [hst, State.mayPull, State.answers] using hno
    | _ => rfl
  | through hv =>
    rw [hv] at hs
    rcases hs with hs | ⟨f, hs⟩ <;> cases hs

theorem InStep.unmoved (h : n.InStep k fall now) (hk : k.Sound) (hs : n.InSlot) (he : e ≠ some .falling) :
    k.after e now = k := by
  cases h with
  | off hoff => exact hk.after_of_rests (by rw [hoff]; rfl) he
  | follows hf hh =>
    rcases answers_of_follows hf hs with ha | hr
    · exact hk.after_of_answers ha e now
    · exact hk.after_of_rests (by rw [hr]; rfl) he
  | through _ _ _ hq =>
    refine hk.after_of_rests ?_ he
    rcases hq with hq | hq <;> rw [hq] <;> rfl

theorem InStep.slot (h : n.InStep k fall now)
    (hs : n.engine.state = .initiator .ackLow ∨ n.engine.state = .initiator .ackHigh) (line : Level) :
    (n.expire line now).InStep k fall now := by
  cases h with
  | off hoff => exact .off hoff
  | follows hf hh => exact .follows (Placed.follows_ack hf hs line) hh
  | through hv =>
    rw [hv] at hs
    rcases hs with hs | hs <;> cases hs

/-- When the ACK slot is over everyone else is done with the block. -/
theorem InStep.rests (h : n.InStep k fall now) (hk : k.Placed fall now)
    (hs : n.engine.state = .initiator .ackVerify) (hlate : fall + 1500 < now) : k.engine.state.rests = true := by
  cases h with
  | off hoff => rw [hoff]; rfl
  | follows hf hh =>
    simp only [Engine.Follows, hs] at hf
    have early : k.engine.state.answers = true → False := by
      intro ha
      obtain ⟨u, hu, hle⟩ := hk.answers_deadline ha
      have := hk.onTime u hu
      omega
    rcases hf.1 with hst | hst | hst
    · exact (early (by rw [hst]; rfl)).elim
    · exact (early (by rw [hst]; rfl)).elim
    · rw [hst]; rfl
  | through _ _ _ hq => rcases hq with hq | hq <;> rw [hq] <;> rfl

theorem InStep.not_pulling (h : n.InStep k fall now) (hk : k.Sound)
    (hs : n.engine.state = .initiator .startLow ∨ ∃ f, n.engine.state = .initiator (.low f)) :
    k.pulling = false := by
  refine hk.not_pulling_of_state ?_
  cases h with
  | off hoff => rw [hoff]; rfl
  | follows hf hh =>
    rcases hs with hs | ⟨f, hs⟩
    · simp only [Engine.Follows, hs] at hf
      rw [hf]; rfl
    · simp only [Engine.Follows, hs] at hf
      rw [hf.1]; rfl
  | through hv =>
    rw [hv] at hs
    rcases hs with hs | ⟨f, hs⟩ <;> cases hs

/-- The header of the frame is known to all when its ACK slot comes. -/
theorem destination_of_copies (hn : n.Sound) (hs : n.InSlot) (hc : k.engine.rx.Copies n.engine.tx) :
    k.engine.rx.destination = n.engine.tx.message.destination := by
  have hfit : n.engine.tx.isPending = true ∧ BitKind.eom.Within n.engine.tx.buffer.pos n.engine.tx.length := by
    rcases hs with hs | hs | hs <;> exact hn.fit.busy _ hs
  obtain ⟨hp, hpos⟩ := hfit
  simp only [BitKind.Within] at hpos
  rw [hc.destination (by omega), Outgoing.destination_message hp]

theorem InStep.addressed (h : n.InStep k fall now) (hn : n.Sound) (hk : k.Sound) (hs : n.Listens)
    (hp : k.pulling = true) :
    k.engine.isEnabled = true ∧ k.engine.address = n.engine.tx.message.destination := by
  have hmay := hk.free hp
  cases h with
  | off hoff => rw [hoff] at hmay; cases hmay
  | follows hf hh =>
    have ha : k.engine.state.answers = true := by
      rcases answers_of_follows hf (.inr hs) with ha | hst
      · exact ha
      · rw [hst] at hmay
        cases hmay
    obtain ⟨-, hcopy, -⟩ := hf.of_answers ha
    refine ⟨?_, ?_⟩
    · rw [Engine.isEnabled, bne_iff_ne]
      rintro hoff
      rw [hoff] at hmay
      cases hmay
    · rw [← destination_of_copies hn (.inr hs) hcopy]
      exact ((hh.pulls ha).1 hp).symm
  | through _ _ _ hq => rcases hq with hq | hq <;> rw [hq] at hmay <;> cases hmay

/-- When the speaker reads the line, those that the frame is for pull it. -/
theorem InStep.pulls (h : n.InStep k fall now) (hn : n.Sound) (hs : n.engine.state = .initiator .ackHigh)
    (he : k.engine.isEnabled = true) (ha : k.engine.address = n.engine.tx.message.destination) :
    k.pulling = true := by
  cases h with
  | off hoff =>
    rw [Engine.isEnabled, hoff] at he
    cases he
  | follows hf hh =>
    simp only [Engine.Follows, hs] at hf
    have hans : k.engine.state.answers = true := by rcases hf.1 with hst | hst <;> rw [hst] <;> rfl
    rw [hh.pulls hans, destination_of_copies hn (.inr (.inl hs)) hf.2.1, ha]
  | through hv =>
    rw [hs] at hv
    cases hv

/-- A deadline of one who is in step. It reads the line as high if the frame is a broadcast. -/
theorem InStep.expire (h : n.InStep k fall now) (hn : n.Placed fall now) (hk : k.Placed fall now)
    (hsp : n.engine.state.speaks = true) (hd : k.timer.deadline? = some now)
    (hfirst : ∀ u, n.timer.deadline? = some u → now ≤ u) {line : Level}
    (hline : n.engine.tx.message.destination = .broadcast → n.Listens → line = .high) :
    n.Listens ∧ n.InStep (k.expire line now) fall now ∧ (∃ s, k.engine.state = .follower s) ∧
      ((k.expire line now).engine.state.rests = k.engine.state.rests ∧ k.engine.verdict = none ∨
      k.engine.state.rests = false ∧ (k.expire line now).engine.state.rests = true ∧ now = fall + 1500 ∧
        k.engine.verdict =
          if n.engine.tx.isLast = true ∧ k.engine.hears n.engine.tx.message.destination = true then
            some (.received n.engine.tx.message) else none) := by
  have he := k.engine_expire line now
  cases h with
  | off hoff =>
    rw [hk.sound.deadline?_of_disabled hoff] at hd
    cases hd
  | follows hf hh =>
    rcases hn.follows_expire hk hd hfirst hf line with ⟨hs, ht, hf'⟩ | ⟨hs, ht, hv, hf'⟩ | ⟨hs, hl, ht, hv⟩
    · have hlisten : n.Listens := by
        obtain ⟨hst, -⟩ := hf.of_answers (by rw [hs]; rfl)
        rcases hst with hst | hst | hst
        · have : now ≤ fall + 600 := hfirst _ (hn.initiator_deadline hst (by simp))
          omega
        · exact .inl hst
        · exact .inr hst
      rw [Engine.onTimeout_follower_ackLow hs] at he
      have hcopy := (hf.of_answers (by rw [hs]; rfl)).2.1
      refine ⟨hlisten, .follows hf' ⟨fun _ => ?_, fun _ => ?_⟩, ⟨_, hs⟩, .inl ⟨by rw [he, hs]; rfl, ?_⟩⟩
      · rw [pulling_expire_ackLow hs, he]
        exact hh.pulls (by rw [hs]; rfl)
      · -- Nobody pulls the line for a broadcast.
        rw [he]
        show (k.engine.rx.destination.isBroadcast && Reading.isLow (some line)) = false
        rw [destination_of_copies hn.sound (.inr hlisten) hcopy, Bool.and_eq_false_iff]
        cases hb : n.engine.tx.message.destination.isBroadcast with
        | false => exact .inl rfl
        | true =>
          rw [hline (LogicalAddress.eq_broadcast_iff.1 hb) hlisten]
          exact .inr rfl
      · simp only [Engine.verdict, hs]
    · have hr := hh.accepts hs
      rw [Engine.onTimeout_follower_ackVerify hs hr] at he
      obtain ⟨-, hcopy, heom⟩ := hf.of_answers (by rw [hs]; rfl)
      have hfit := hn.sound.fit.busy _ hv
      have hlast := hcopy.isLast heom hfit.2 hn.sound.fit.tx.length_le
      have hdest := destination_of_copies hn.sound (.inr (.inr hv)) hcopy
      refine ⟨.inr hv, .follows (hf' hr) (.of_not_answers (by rw [he]; rfl)), ⟨_, hs⟩, .inr ⟨by rw [hs]; rfl,
        by rw [he]; rfl, ht, ?_⟩⟩
      simp only [Engine.verdict, hs, hr, hlast, hdest, true_and]
      by_cases hl : n.engine.tx.isLast = true
      · rw [hcopy.message hl]
      · simp [hl]
    · rw [Engine.onTimeout_follower hs (by simp) (by simp)] at he
      simp only [Engine.Follows, hv] at hf
      have hfit := hn.sound.fit.busy _ hv
      have hlast := (hf.2.1.isLast hf.2.2 hfit.2 hn.sound.fit.tx.length_le).symm.trans hl
      refine ⟨.inr hv, .through hv hlast (Nat.le_of_eq ht.symm) ?_, ⟨_, hs⟩, .inl ⟨?_, ?_⟩⟩
      · rcases k.engine.quit_state with ⟨hq, -⟩ | ⟨hq, -⟩ <;> rw [he, hq] <;> simp
      · rw [he, hs, Engine.rests_quit]; rfl
      · simp only [Engine.verdict, hs]
  | through hv hl hlate hq =>
    rcases hq with hq | hq
    · rw [hk.sound.deadline?_of_idle hq] at hd
      cases hd
    · have := hk.freeTime_deadline hq hd
      obtain ⟨u, hu, hle, -⟩ := hn.speaks_deadline hsp
      have hnow := hfirst u hu
      omega

/-- Before the speaker judges the ACK, nobody who is on is done with the block. -/
theorem InStep.off_of_rests (h : n.InStep k fall now) (hs : n.engine.state ≠ .initiator .ackVerify)
    (hr : k.engine.state.rests = true) : k.engine.state = .disabled := by
  cases h with
  | off hoff => exact hoff
  | follows hf hh =>
    exfalso
    cases hst : n.engine.state with
    | initiator s =>
      cases s with
      | ackVerify => exact hs hst
      | ackLow | ackHigh =>
        simp only [Engine.Follows, hst] at hf
        rcases hf.1 with h | h <;> rw [h] at hr <;> cases hr
      | startLow =>
        simp only [Engine.Follows, hst] at hf
        rw [hf] at hr
        cases hr
      | freeTime => simp only [Engine.Follows, hst] at hf
      | startHigh | low f | high f =>
        simp only [Engine.Follows, hst] at hf
        rw [hf.1] at hr
        cases hr
    | _ => simp only [Engine.Follows, hst] at hf
  | through hv => exact absurd hv hs

end instep

theorem Sound.station_expire (h : n.Sound) {t : Nat} (hd : n.timer.deadline? = some t) (line : Level) (now : Nat) :
    (n.expire line now).station = n.station := by
  have hs : n.engine.state ≠ .disabled := by
    intro hs
    rw [h.deadline?_of_disabled hs] at hd
    cases hd
  have hs' := (Engine.onTimeout_state (some line) hs).1
  rw [← n.engine_expire line now] at hs'
  rw [station, station, address_expire, Engine.isEnabled, Engine.isEnabled, bne_iff_ne.2 hs, bne_iff_ne.2 hs']

structure Takes (k k' : Node) (m : Message) : Prop where
  station : k'.station = k.station
  completions : k'.completions = k.completions
  pulling : k'.pulling = k.pulling
  rx : k'.engine.rx = k.engine.rx
  state : k.engine.state = .idle ∧ k'.engine.state = .initiator .freeTime ∨ k'.engine.state = k.engine.state
  free : k.engine.isSending = false
  waiting : ∀ j : Nat, k'.engine.waiting j = [(j, m)]
  spent : k.engine.spent = 0 ∧ k'.engine.spent = 0
  resends : k'.engine.tx.resends = 0

theorem Takes.rests {k' : Node} {m : Message} (h : k.Takes k' m) :
    k'.engine.state.rests = k.engine.state.rests := by
  rcases h.state with ⟨hs, hs'⟩ | hs
  · rw [hs, hs']; rfl
  · rw [hs]

theorem InStep.takes {k' : Node} {m : Message} (h : n.InStep k fall now) (ht : k.Takes k' m) :
    n.InStep k' fall now := by
  have haddress : k'.engine.address = k.engine.address := congrArg Prod.snd ht.station
  cases h with
  | off hoff =>
    rcases ht.state with ⟨hs, -⟩ | hs
    · rw [hoff] at hs
      cases hs
    · exact .off (hs.trans hoff)
  | follows hf hh =>
    have hs : k'.engine.state = k.engine.state := by
      rcases ht.state with ⟨hs, -⟩ | hs
      · exact absurd hf (Engine.not_follows_idle hs)
      · exact hs
    refine .follows (hf.congr hs ht.rx rfl rfl) ⟨?_, ?_⟩
    · rw [hs, ht.pulling, ht.rx, haddress]
      exact hh.pulls
    · rw [hs, ht.rx]
      exact hh.accepts
  | through hv hl hlate hq =>
    refine .through hv hl hlate ?_
    rcases ht.state with ⟨-, hs⟩ | hs
    · exact .inr hs
    · rw [hs]
      exact hq

theorem Sound.takes (h : k.Sound) {m : Message} {r : Reaction} (hr : k.engine.send m = .ok r) (now : Nat) :
    k.Takes (k.absorb r now) m := by
  obtain ⟨hen, hm, hp, -⟩ := Engine.send_eq_ok_iff.1 hr
  have hresends : k.engine.tx.resends = 0 := h.fit.tx.fresh hp
  have hquiet : k.engine.state.speaks = false := by
    cases hs : k.engine.state with
    | initiator s => exact absurd (h.fit.busy s hs).1 (by simp [hp])
    | _ => rfl
  have hspent : k.engine.spent = 0 := by rw [Engine.spent_of_not_speaks hquiet, hresends]
  have hload : (k.engine.load m).tx.resends = 0 := by rw [Engine.load_tx]; exact hresends
  have hsending : (k.engine.load m).isSending = true := Engine.isSending_load hm
  have hmsg := k.engine.message_load hm
  have haddress := k.engine.load_address m
  have hrx := k.engine.load_rx m
  have hstate := k.engine.load_state m
  by_cases hs : k.engine.state = .idle
  · have heq := absorb_send_of_idle hr hs now
    generalize k.engine.load m = l at *
    have he : (k.absorb r now).engine = { l with state := .initiator .freeTime } := by rw [heq]
    have hw : (k.absorb r now).engine.isSending = true := by rw [he]; exact hsending
    refine ⟨?_, by rw [heq], ?_, by rw [he]; exact hrx, .inl ⟨hs, by rw [he]⟩, hp, fun j => ?_, ⟨hspent, ?_⟩,
      by rw [he]; exact hload⟩
    · rw [Node.station, Node.station, he, hen, ← haddress]
      rfl
    · rw [heq]
      exact (h.not_pulling_of_state (by rw [hs]; rfl)).symm
    · rw [Engine.waiting, if_pos hw, he]
      exact congrArg (fun x => [(j, x)]) hmsg
    · rw [Engine.spent_of_not_speaks (by rw [he]; rfl), he]
      exact congrArg (11 * ·) hload
  · have heq := absorb_send_of_ne_idle hr hs now
    generalize k.engine.load m = l at *
    have he : (k.absorb r now).engine = l := by rw [heq]
    have hst : (k.absorb r now).engine.state = k.engine.state := by rw [he, hstate]
    refine ⟨?_, by rw [heq], by rw [heq], by rw [he, hrx], .inr hst, hp, fun j => ?_, ⟨hspent, ?_⟩,
      by rw [he, hload]⟩
    · rw [Node.station, Node.station, Engine.isEnabled, Engine.isEnabled, hst, he, haddress]
    · rw [Engine.waiting, he, if_pos hsending, hmsg]
    · rw [Engine.spent_of_not_speaks (by rw [hst]; exact hquiet), he, hload]

end Node
end HdmiCec
