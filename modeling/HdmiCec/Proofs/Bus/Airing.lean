import HdmiCec.Proofs.Bus.Accord
import HdmiCec.Proofs.Bus.RoundTrip

/-! A broadcast on the bus, from the moment it is taken until everybody has heard the end of it. While
it is on the line all others are in accord with its speaker (`Bus.Casts`); afterwards everyone has got
it, or nobody (`Bus.Aired`). Each deadline leads from one to the other or stays. -/
namespace HdmiCec

namespace Node

variable {k0 k : Node} {fall now : Nat} {log : List (Nat × Completion)} {e : Option Edge}

structure Bides (k0 k : Node) (log : List (Nat × Completion)) : Prop where
  station : k.station = k0.station
  free : k.engine.isSending = false
  lets : k.pulling = false
  log : k.completions.toList = k0.completions.toList ++ log

theorem Bides.after (h : k0.Bides k log) (hk : k.Sound) (hp : (k.after e now).pulling = false) :
    k0.Bides (k.after e now) log := by
  have hkept := hk.kept_after e now
  exact ⟨hkept.station.trans h.station, (Engine.isSending_of_same hkept.tx).trans h.free, hp,
    hkept.completions.trans h.log⟩

theorem Bides.pulling_after (h : k0.Bides k log) (hk : k.Sound) (he : e ≠ some .falling) (now : Nat) :
    (k.after e now).pulling = false := by
  rcases k.after_cases now he with hsame | ⟨-, hw, hsame⟩
  · rw [hsame]
    exact h.lets
  · rw [hsame]
    exact hk.not_pulling_hear_rising hw now

theorem Bides.expire (h : k0.Bides k log) (hk : k.Placed fall now) (hd : k.timer.deadline? = some now)
    (hf : fall ≤ now) {s : Follower} (hs : k.engine.state = .follower s) (line : Level) :
    k0.Bides (k.expire line now) (log ++ k.engine.verdict.toList.map (now, ·)) := by
  have hx := hk.expire hd hf line
  have hsame := Engine.onTimeout_same (e := k.engine) (by rw [hs]; simp) (some line)
  rw [← k.engine_expire line now] at hsame
  refine ⟨(hk.sound.station_expire hd line now).trans h.station, (Engine.isSending_of_same hsame).trans h.free, ?_, ?_⟩
  · refine Bool.eq_false_iff.2 fun hp => ?_
    have := hx.pulls hp (hx.not_drives hs)
    rw [h.lets] at this
    cases this
  · rw [completions_expire, h.log, List.append_assoc]

end Node

theorem Engine.verdict_of_drives {e : Engine} {s : Initiator} {line : Reading} (hs : e.state = .initiator s)
    (hd : (e.onTimeout line).engine.state.drives = true) : e.verdict = none := by
  by_cases hv : s = .ackVerify
  · subst hv
    obtain ⟨ha, hl⟩ := acked_of_drives hs hd
    simp [verdict, hs, ha, hl]
  · exact verdict_of_initiator hs hv

namespace Bus

variable {b0 b c : Bus} {i id t fall : Nat} {n k : Node} {msg : Message} {ok : Bool}

/-- What node `j` gets of a broadcast of node `i` that ends at `u`. The message is handed over before the
last slot is over. -/
def gets (b : Bus) (i : Nat) (m : Message) (u : Nat) (ok : Bool) (j : Nat) : List (Nat × Completion) :=
  if j = i then [(u, if ok then .sendOk else .sendFailed)]
  else if ok ∧ b.nodes[j]?.any (·.engine.isEnabled) then [(u - ackFinishLast, .received m)]
  else []

/-- Node `i`, which is `n` now, has `msg` on the line. It has begun its last pulse at `fall`, and noise
comes only in its ACK slots. -/
structure Casts (b0 : Bus) (i : Nat) (msg : Message) (fall : Nat) (n : Node) (b : Bus) : Prop where
  here : b.nodes[i]? = some n
  length : b.nodes.length = b0.nodes.length
  placed : ∀ k ∈ b.nodes, k.Placed fall b.now
  fell : fall ≤ b.now
  sends : (∃ s, n.engine.state = .initiator s) ∧ n.engine.tx.message = msg
  own : ∃ n0, b0.nodes[i]? = some n0 ∧ n.station = n0.station ∧
    n.completions.toList = n0.completions.toList
  others : ∀ (j : Nat) k, j ≠ i → b.nodes[j]? = some k →
    ∃ k0 log, b0.nodes[j]? = some k0 ∧ k0.Bides k log ∧ n.Accord k fall b.now b.noise log
  noise : b.noise = true → n.InSlot
  marked : n.engine.state.speaks = true → fall ∈ b.fallingEdges.toList

structure Aired (b0 : Bus) (i : Nat) (msg : Message) (fall : Nat) (ok : Bool) (b : Bus) : Prop where
  length : b.nodes.length = b0.nodes.length
  placed : ∀ k ∈ b.nodes, k.Placed fall b.now
  fell : fall ≤ b.now
  noise : b.noise = false
  nodes : ∀ (j : Nat) k, b.nodes[j]? = some k → ∃ k0, b0.nodes[j]? = some k0 ∧
    k0.Bides k (b0.gets i msg (fall + nominalBit) ok j) ∧ k.engine.state.rests = true

section casts

theorem Casts.nodesSound (h : Casts b0 i msg fall n b) : b.NodesSound := fun k hk => (h.placed k hk).sound

theorem Casts.place (h : Casts b0 i msg fall n b) : n.Placed fall b.now :=
  h.placed n (List.mem_of_getElem? h.here)

theorem Casts.at (h : Casts b0 i msg fall n b) (hb : b.now ≤ t)
    (ht : ∀ k ∈ b.nodes, ∀ u, k.timer.deadline? = some u → t ≤ u) : Casts b0 i msg fall n { b with now := t } := by
  refine ⟨h.here, h.length, fun k hk => (h.placed k hk).at hb (ht k hk), Nat.le_trans h.fell hb, h.sends, h.own,
    fun j k hj hk => ?_, h.noise, h.marked⟩
  obtain ⟨k0, log, hk0, hbides, hacc⟩ := h.others j k hj hk
  exact ⟨k0, log, hk0, hbides, hacc.at hb⟩

/-- Nobody holds the line low but the speaker and the noise. -/
theorem Casts.level_low_iff (h : Casts b0 i msg fall n b) :
    b.level = .low ↔ b.noise = true ∨ n.pulling = true := by
  rw [level_self h.here]
  refine or_congr Iff.rfl ⟨?_, .inl⟩
  rintro (hp | ⟨j, k, hj, hk, hp⟩)
  · exact hp
  · obtain ⟨k0, log, -, hbides, -⟩ := h.others j k hj hk
    rw [hbides.lets] at hp
    cases hp

/-- Once the speaker has let go of the line, only noise holds it low. -/
theorem Casts.reads (h : Casts b0 i msg fall n b) (hs : n.Listens) : b.level = .low ↔ b.noise = true := by
  have hp : n.pulling = false :=
    h.place.sound.not_pulling_of_state (by rcases hs with hs | hs <;> rw [hs] <;> rfl)
  rw [h.level_low_iff, hp]
  simp

theorem Casts.address (h : Casts b0 i msg fall n b) (h0 : b0.Addressed) {j : Nat} (hj : j ≠ i)
    (hk : b.nodes[j]? = some k) : k.engine.address ≠ .broadcast := by
  obtain ⟨k0, log, hk0, hbides, -⟩ := h.others j k hj hk
  have ha : k.engine.address = k0.engine.address := congrArg Prod.snd hbides.station
  rw [ha]
  exact h0 k0 (List.mem_of_getElem? hk0)

/-- A deadline passes while noise holds the line low. The slot is not over before that. -/
theorem Casts.slot_of_noise (h : Casts b0 i msg fall n b) (hn : b.noise = true)
    (hd : n.timer.deadline? = some t) (ht : t < fall + nominalBit) :
    n.engine.state = .initiator .ackLow ∨ n.engine.state = .initiator .ackHigh := by
  rcases h.noise hn with hs | hs | hs
  · exact .inl hs
  · exact .inr hs
  · rw [h.place.initiator_deadline hs (by simp), Option.some.injEq] at hd
    simp only [Initiator.ends] at hd
    omega

theorem Casts.lapses (h : Casts b0 i msg fall n b) (hb : msg.destination = .broadcast) (he : Expires b t id k c)
    (hid : id ≠ i) : (∃ s, k.engine.state = .follower s) ∧ b.level.edge? c.level = none ∧
      (k.expire b.level t).Placed fall t ∧ ∃ k0 log, b0.nodes[id]? = some k0 ∧
        k0.Bides (k.expire b.level t) log ∧ n.Accord (k.expire b.level t) fall t b.noise log := by
  have hmem := List.mem_of_getElem? he.acts.here
  have hat := h.at ((h.placed k hmem).onTime t he.due) he.first
  have hk : k.Placed fall t := hat.placed k hmem
  obtain ⟨k0, log, hk0, hbides, hacc⟩ := hat.others id k hid he.acts.here
  obtain ⟨⟨s, hs⟩, hacc'⟩ := hacc.expire hat.place hk (by rw [h.sends.2]; exact hb) he.due
    (he.first n (List.mem_of_getElem? h.here)) hbides.free b.level h.reads
  have hbides' := hbides.expire hk he.due hat.fell hs b.level
  have hx := hk.expire he.due hat.fell b.level
  have hp := hx.placed
  rw [hx.not_drives hs] at hp
  exact ⟨⟨s, hs⟩, he.acts.edge_none (hbides'.lets.trans hbides.lets.symm), hp, k0, _, hk0, hbides', hacc'⟩

theorem Casts.other (h : Casts b0 i msg fall n b) (hb : msg.destination = .broadcast) (he : Expires b t id k c)
    (hid : id ≠ i) : Casts b0 i msg fall n c := by
  have hat := h.at ((h.placed k (List.mem_of_getElem? he.acts.here)).onTime t he.due) he.first
  obtain ⟨-, hnone, hplace, k0, log, hk0, hbides, hacc⟩ := h.lapses hb he hid
  have hnone' : ({ b with now := t } : Bus).level.edge? c.level = none := hnone
  refine ⟨(he.acts.unchanged hnone' (Ne.symm hid)).trans h.here, he.acts.length.trans h.length, ?_, ?_, h.sends,
    h.own, fun j k' hj hk' => ?_, ?_, ?_⟩
  · rw [he.acts.now]
    refine he.acts.forall_mem hplace fun j k' _ hk' => ?_
    rw [hnone', Node.after_none]
    exact hat.placed k' (List.mem_of_getElem? hk')
  · rw [he.acts.now]
    exact hat.fell
  · rw [he.acts.now, he.acts.noise]
    rcases he.acts.cases hk' with ⟨rfl, rfl⟩ | ⟨-, k'', hk'', rfl⟩
    · exact ⟨k0, log, hk0, hbides, hacc⟩
    · rw [hnone', Node.after_none]
      exact hat.others j k'' hj hk''
  · rw [he.acts.noise]
    exact h.noise
  · rw [he.acts.falls, hnone']
    exact h.marked

theorem Casts.goes {fall' : Nat} (h : Casts b0 i msg fall n b) (he : Expires b t i n c) (hfall : fall' ≤ t)
    (hplaced : (n.expire b.level t).Placed fall' t)
    (hinit : ∃ s, (n.expire b.level t).engine.state = .initiator s) (hv : n.engine.verdict = none)
    (hothers : ∀ (j : Nat) k log, j ≠ i → b.nodes[j]? = some k → k.Placed fall t → k.pulling = false →
      n.Accord k fall t b.noise log → (k.after (b.level.edge? c.level) t).Placed fall' t ∧
        (k.after (b.level.edge? c.level) t).pulling = false ∧
        (n.expire b.level t).Accord (k.after (b.level.edge? c.level) t) fall' t b.noise log)
    (hnoise : b.noise = true → (n.expire b.level t).InSlot)
    (hmarked : (n.expire b.level t).engine.state.speaks = true → fall' ∈ c.fallingEdges.toList) :
    Casts b0 i msg fall' (n.expire b.level t) c := by
  have hat := h.at (h.place.onTime t he.due) he.first
  obtain ⟨s, hs⟩ := hinit
  have hkeeps := n.engine.onTimeout_keeps (some b.level)
  rw [← n.engine_expire b.level t] at hkeeps
  obtain ⟨n0, hn0, hstation, hlog⟩ := h.own
  refine ⟨he.acts.self, he.acts.length.trans h.length, ?_, ?_, ⟨⟨s, hs⟩, ?_⟩, ⟨n0, hn0, ?_, ?_⟩,
    fun j k hj hk => ?_, ?_, hmarked⟩
  · rw [he.acts.now]
    refine he.acts.forall_mem hplaced fun j k hj hk => ?_
    obtain ⟨k0, log, -, hbides, hacc⟩ := hat.others j k hj hk
    exact (hothers j k log hj hk (hat.placed k (List.mem_of_getElem? hk)) hbides.lets hacc).1
  · rw [he.acts.now]
    exact hfall
  · exact (hkeeps (hplaced.sound.fit.busy s hs).1).2.trans h.sends.2
  · exact (h.place.sound.station_expire he.due _ _).trans hstation
  · rw [Node.completions_expire, hv, hlog]
    exact List.append_nil _
  · rcases he.acts.cases hk with ⟨rfl, -⟩ | ⟨-, k', hk', rfl⟩
    · exact absurd rfl hj
    · obtain ⟨k0, log, hk0, hbides, hacc⟩ := hat.others j k' hj hk'
      have hplace := hat.placed k' (List.mem_of_getElem? hk')
      obtain ⟨-, hp, hacc'⟩ := hothers j k' log hj hk' hplace hbides.lets hacc
      rw [he.acts.now, he.acts.noise]
      exact ⟨k0, log, hk0, hbides.after hplace.sound hp, hacc'⟩
  · rw [he.acts.noise]
    exact hnoise

theorem Casts.strike (h : Casts b0 i msg fall n b) (h0 : b0.Addressed) (hb : msg.destination = .broadcast)
    (he : Expires b t i n c) (hq : b.noise = false) (hd : (n.expire b.level t).engine.state.drives = true) :
    Casts b0 i msg t (n.expire b.level t) c := by
  have hat := h.at (h.place.onTime t he.due) he.first
  have hx := hat.place.expire he.due hat.fell b.level
  have hp := hx.placed
  rw [if_pos hd] at hp
  obtain ⟨u, hu, hl⟩ := State.drives_iff.1 hd
  obtain ⟨s, hs⟩ := h.sends.1
  have hfree : n.pulling = false := h.place.sound.not_pulling_of_state (hx.drives hd).2.1
  have hhigh : b.level = .high := by
    refine level_ne_low.1 fun hlow => ?_
    rcases h.level_low_iff.1 hlow with hlow | hlow
    · rw [hq] at hlow; cases hlow
    · rw [hfree] at hlow; cases hlow
  have hedge : b.level.edge? c.level = some .falling := he.acts.falling hhigh (hp.sound.pulls u hu hl)
  have hmsg : (n.expire b.level t).engine.tx.message = msg := by
    have hkeeps := n.engine.onTimeout_keeps (some b.level)
    rw [← n.engine_expire b.level t] at hkeeps
    exact (hkeeps (hp.sound.fit.busy u hu).1).2.trans h.sends.2
  have hv : n.engine.verdict = none := by
    rw [n.engine_expire b.level t] at hd
    exact Engine.verdict_of_drives hs hd
  refine h.goes he (Nat.le_refl t) hp ⟨u, hu⟩ hv (fun j k log hj hk hplace hlets hacc => ?_) ?_ fun _ => ?_
  · have hgo := hacc.falling hat.place hplace he.due b.level hd (by rw [hmsg]; exact hb) (h.address h0 hj hk) hlets
    rw [hedge, hq]
    exact ⟨hgo.2.1, hgo.2.2, hgo.1⟩
  · rw [hq]
    intro hn
    cases hn
  · rw [he.acts.falls]
    have hedge' : ({ b with now := t } : Bus).level.edge? c.level = some .falling := hedge
    rw [if_pos hedge']
    simp

theorem Casts.calm (h : Casts b0 i msg fall n b) (he : Expires b t i n c)
    (hd : (n.expire b.level t).engine.state.drives = false)
    (hinit : ∃ s, (n.expire b.level t).engine.state = .initiator s) (hv : n.engine.verdict = none)
    (hothers : ∀ (j : Nat) k log, j ≠ i → b.nodes[j]? = some k → k.Placed fall t → n.Accord k fall t b.noise log →
      (n.expire b.level t).Accord (k.after (b.level.edge? c.level) t) fall t b.noise log)
    (hnoise : b.noise = true → (n.expire b.level t).InSlot) : Casts b0 i msg fall (n.expire b.level t) c := by
  have hat := h.at (h.place.onTime t he.due) he.first
  have hx := hat.place.expire he.due hat.fell b.level
  have hp := hx.placed
  rw [hd] at hp
  have hedge : b.level.edge? c.level ≠ some .falling := he.acts.not_falling fun hp => hx.pulls hp hd
  refine h.goes he hat.fell hp hinit hv (fun j k log hj hk hplace hlets hacc => ?_) hnoise fun hsp => ?_
  · obtain ⟨k0, log', -, hbides, -⟩ := hat.others j k hj hk
    exact ⟨(hplace.after_calm hedge).1, hbides.pulling_after hplace.sound hedge t,
      hothers j k log hj hk hplace hacc⟩
  · rw [he.acts.falls]
    have hedge' : ({ b with now := t } : Bus).level.edge? c.level ≠ some .falling := hedge
    rw [if_neg hedge']
    exact h.marked (hx.speaks hsp hd)

theorem Casts.release (h : Casts b0 i msg fall n b) (he : Expires b t i n c) (hq : b.noise = false)
    (hs : n.engine.state = .initiator .startLow ∨ ∃ f, n.engine.state = .initiator (.low f)) :
    Casts b0 i msg fall (n.expire b.level t) c := by
  have hat := h.at (h.place.onTime t he.due) he.first
  have hm := n.engine_expire b.level t
  have hnext : (∃ s, (n.expire b.level t).engine.state = .initiator s) ∧ n.engine.verdict = none ∧
      (n.expire b.level t).engine.state.mayPull = false ∧ (n.expire b.level t).engine.state.drives = false := by
    rcases hs with hs | ⟨f, hs⟩
    · rw [hm, Engine.onTimeout_startLow hs]
      exact ⟨⟨_, rfl⟩, Engine.verdict_of_initiator hs (by simp), rfl, rfl⟩
    · rw [hm, Engine.onTimeout_low hs]
      exact ⟨⟨_, rfl⟩, Engine.verdict_of_initiator hs (by simp), rfl, rfl⟩
  obtain ⟨hinit, hv, hmay, hd⟩ := hnext
  have hlow : b.level = .low := by
    refine h.level_low_iff.2 (.inr ?_)
    rcases hs with hs | ⟨f, hs⟩ <;> exact h.place.sound.pulls _ hs rfl
  have hhigh : c.level = .high := by
    refine he.acts.level_high hq ((h.place.sound.expire he.due _ _).1.not_pulling_of_state hmay) fun j k hj hk => ?_
    obtain ⟨k0, log, -, hbides, -⟩ := h.others j k hj hk
    exact hbides.lets
  have hedge : b.level.edge? c.level = some .rising := by rw [hlow, hhigh]; rfl
  refine h.calm he hd hinit hv (fun j k log hj hk hplace hacc => ?_) ?_
  · rw [hedge, hq]
    exact hacc.rising hat.place hplace he.due hs b.level
  · rw [hq]
    intro hn
    cases hn

theorem Casts.slot (h : Casts b0 i msg fall n b) (hb : msg.destination = .broadcast) (he : Expires b t i n c)
    (hs : n.engine.state = .initiator .ackLow ∨ n.engine.state = .initiator .ackHigh) :
    Casts b0 i msg fall (n.expire b.level t) c := by
  have hat := h.at (h.place.onTime t he.due) he.first
  have hm := n.engine_expire b.level t
  have hnext : (∃ s, (n.expire b.level t).engine.state = .initiator s) ∧ n.engine.verdict = none ∧
      (n.expire b.level t).engine.state.drives = false ∧ n.InSlot ∧ (n.expire b.level t).InSlot := by
    rcases hs with hs | hs
    · rw [Node.InSlot, Node.InSlot, Node.Listens, Node.Listens, hm, Engine.onTimeout_ackLow hs]
      exact ⟨⟨_, rfl⟩, Engine.verdict_of_initiator hs (by simp), rfl, .inl hs, .inr (.inl rfl)⟩
    · rw [Node.InSlot, Node.InSlot, Node.Listens, Node.Listens, hm, Engine.onTimeout_ackHigh hs]
      exact ⟨⟨_, rfl⟩, Engine.verdict_of_initiator hs (by simp), rfl, .inr (.inl hs), .inr (.inr rfl)⟩
  obtain ⟨hinit, hv, hd, hin, hin'⟩ := hnext
  have hx := hat.place.expire he.due hat.fell b.level
  have hedge : b.level.edge? c.level ≠ some .falling := he.acts.not_falling fun hp => hx.pulls hp hd
  refine h.calm he hd hinit hv (fun j k log hj hk hplace hacc => ?_) fun _ => hin'
  rw [hacc.unmoved hplace.sound hin hedge]
  exact hacc.slot h.place.sound (by rw [h.sends.2]; exact hb) hs b.level h.reads

/-- Nobody else has anything left to decide when the slot is over, and no edge moves them. -/
theorem Casts.decided {log : List (Nat × Completion)} (h : Casts b0 i msg fall n b) (he : Expires b t i n c)
    (hs : n.engine.state = .initiator .ackVerify) (hd : (n.expire b.level t).engine.state.drives = false)
    (hk : k.Placed fall t) (hacc : n.Accord k fall t b.noise log) : k.after (b.level.edge? c.level) t = k ∧
      (k.engine.state = .disabled ∧ log = [] ∨ n.engine.tx.acked = false ∧ k.engine.state = .idle ∧ log = [] ∨
        n.engine.tx.acked = true ∧ log = n.handed fall ∧
          (k.engine.state = .follower .ackFinish ∨ k.engine.state = .idle)) := by
  have hat := h.at (h.place.onTime t he.due) he.first
  have hx := hat.place.expire he.due hat.fell b.level
  have hedge : b.level.edge? c.level ≠ some .falling := he.acts.not_falling fun hp => hx.pulls hp hd
  have ht : t = fall + nominalBit := hat.place.now_of_deadline he.due hs (by simp)
  refine ⟨hacc.unmoved hk.sound (.inr (.inr hs)) hedge, hacc.rests hk hs ?_⟩
  simp only [nominalBit] at ht
  omega

theorem Casts.again (h : Casts b0 i msg fall n b) (he : Expires b t i n c) (hq : b.noise = false)
    (hs : n.engine.state = .initiator .ackVerify) (ha : n.engine.tx.acked = false)
    (hr : n.engine.tx.resends < Outgoing.maxResends) : Casts b0 i msg fall (n.expire b.level t) c := by
  have hm := n.engine_expire b.level t
  rw [Engine.onTimeout_resend hs ha hr] at hm
  have hd : (n.expire b.level t).engine.state.drives = false := by rw [hm]; rfl
  refine h.calm he hd ⟨_, by rw [hm]⟩ (by simp [Engine.verdict, hs, ha, hr]) (fun j k log _ _ hk hacc => ?_) ?_
  · obtain ⟨hsame, ⟨hoff, rfl⟩ | ⟨-, hidle, rfl⟩ | ⟨hack, -⟩⟩ := h.decided he hs hd hk hacc
    · rw [hsame]
      exact .off hoff
    · rw [hsame]
      exact .waits (by rw [hm]) hidle
    · rw [ha] at hack
      cases hack
  · rw [hq]
    intro hn
    cases hn

theorem gets_self (b : Bus) (i : Nat) (m : Message) (u : Nat) (ok : Bool) :
    b.gets i m u ok i = [(u, if ok then .sendOk else .sendFailed)] := if_pos rfl

theorem gets_of_ne {b : Bus} {j u : Nat} {m : Message} {k : Node} (hj : j ≠ i) (hk : b.nodes[j]? = some k) :
    b.gets i m u ok j =
      if ok = true ∧ k.engine.isEnabled = true then [(u - ackFinishLast, .received m)] else [] := by
  rw [gets, if_neg hj, hk]
  rfl

theorem Casts.finish (h : Casts b0 i msg fall n b) (he : Expires b t i n c) (hq : b.noise = false)
    (hs : n.engine.state = .initiator .ackVerify)
    (hm : (n.expire b.level t).engine = { n.engine with tx := n.engine.tx.finish }.quit)
    (hv : n.engine.verdict = some (if n.engine.tx.acked then .sendOk else .sendFailed))
    (hl : n.engine.tx.acked = true → n.engine.tx.isLast = true) : Aired b0 i msg fall n.engine.tx.acked c := by
  have hat := h.at (h.place.onTime t he.due) he.first
  have hx := hat.place.expire he.due hat.fell b.level
  have hidle : (n.expire b.level t).engine.state = .idle := by rw [hm]; rfl
  have hd : (n.expire b.level t).engine.state.drives = false := by rw [hidle]; rfl
  have ht : t = fall + nominalBit := hat.place.now_of_deadline he.due hs (by simp)
  have hp := hx.placed
  rw [hd] at hp
  refine ⟨he.acts.length.trans h.length, ?_, ?_, he.acts.noise.trans hq, fun j k hk => ?_⟩
  · rw [he.acts.now]
    refine he.acts.forall_mem hp fun j k hj hk => ?_
    have hplace : k.Placed fall t := hat.placed k (List.mem_of_getElem? hk)
    obtain ⟨k0, log, -, -, hacc⟩ := hat.others j k hj hk
    show (k.after (b.level.edge? c.level) t).Placed fall t
    rw [(h.decided he hs hd hplace hacc).1]
    exact hplace
  · rw [he.acts.now]
    exact hat.fell
  · rcases he.acts.cases hk with ⟨rfl, rfl⟩ | ⟨hne, k', hk', rfl⟩
    · obtain ⟨n0, hn0, hstation, hlog⟩ := h.own
      refine ⟨n0, hn0, ⟨(h.place.sound.station_expire he.due _ _).trans hstation, ?_, ?_, ?_⟩, by rw [hidle]; rfl⟩
      · exact hp.sound.fit.prompt (.inl hidle)
      · exact hp.sound.not_pulling_of_state (by rw [hidle]; rfl)
      · rw [Node.completions_expire, hv, hlog, gets_self, ht]
        rfl
    · obtain ⟨k0, log, hk0, hbides, hacc⟩ := hat.others j k' hne hk'
      obtain ⟨hsame, hout⟩ := h.decided he hs hd (hat.placed k' (List.mem_of_getElem? hk')) hacc
      have hsame' : k'.after (({ b with now := t } : Bus).level.edge? c.level) t = k' := hsame
      have hen : k0.engine.isEnabled = k'.engine.isEnabled := (congrArg Prod.fst hbides.station).symm
      rw [hsame']
      refine ⟨k0, hk0, ?_, ?_⟩
      · rw [gets_of_ne hne hk0, hen, Engine.isEnabled]
        rcases hout with ⟨hoff, rfl⟩ | ⟨ha, -, rfl⟩ | ⟨ha, rfl, hst⟩
        · rw [hoff]
          simpa using hbides
        · rw [ha]
          simpa using hbides
        · have hon : k'.engine.state ≠ .disabled := by rcases hst with hst | hst <;> rw [hst] <;> simp
          have htime : fall + nominalBit - ackFinishLast = fall + Symbol.zero.window.low := by
            simp only [nominalBit, ackFinishLast, Symbol.window]
            omega
          rw [if_pos ⟨ha, bne_iff_ne.2 hon⟩, htime]
          rw [Node.handed, if_pos (hl ha), h.sends.2] at hbides
          exact hbides
      · rcases hout with ⟨hoff, -⟩ | ⟨-, hst, -⟩ | ⟨-, -, hst | hst⟩
        · rw [hoff]; rfl
        · rw [hst]; rfl
        · rw [hst]; rfl
        · rw [hst]; rfl

/-- Whatever the speaker does next, its frame goes on, is tried again or has come to its end. -/
theorem Casts.self (h : Casts b0 i msg fall n b) (h0 : b0.Addressed) (hb : msg.destination = .broadcast)
    (he : Expires b t i n c) (hn : b.noise = true → t < fall + nominalBit) :
    (∃ fall' m, Casts b0 i msg fall' m c ∧ (b.noise = true → fall' = fall)) ∨ ∃ ok, Aired b0 i msg fall ok c := by
  cases hq : b.noise with
  | true => exact .inl ⟨fall, _, h.slot hb he (h.slot_of_noise hq he.due (hn hq)), fun _ => rfl⟩
  | false =>
    have hm := n.engine_expire b.level t
    have go : ∀ {fall'}, Casts b0 i msg fall' (n.expire b.level t) c →
        (∃ fall' m, Casts b0 i msg fall' m c ∧ (false = true → fall' = fall)) ∨ ∃ ok, Aired b0 i msg fall ok c :=
      fun hc => .inl ⟨_, _, hc, fun hf => by cases hf⟩
    obtain ⟨⟨s, hs⟩, -⟩ := h.sends
    cases s with
    | freeTime => exact go (h.strike h0 hb he hq (by rw [hm, Engine.onTimeout_freeTime hs]; rfl))
    | startLow => exact go (h.release he hq (.inl hs))
    | startHigh => exact go (h.strike h0 hb he hq (by rw [hm, Engine.onTimeout_startHigh hs]; rfl))
    | low f => exact go (h.release he hq (.inr ⟨f, hs⟩))
    | high f =>
      refine go (h.strike h0 hb he hq ?_)
      by_cases hf : f = .eom
      · subst hf
        rw [hm, Engine.onTimeout_high_eom hs]
        rfl
      · rw [hm, Engine.onTimeout_high hs hf]
        rfl
    | ackLow => exact go (h.slot hb he (.inl hs))
    | ackHigh => exact go (h.slot hb he (.inr hs))
    | ackVerify =>
      cases ha : n.engine.tx.acked with
      | true =>
        cases hl : n.engine.tx.isLast with
        | true =>
          exact .inr ⟨_, h.finish he hq hs (hm.trans (Engine.onTimeout_sent hs ha hl))
            (by simp [Engine.verdict, hs, ha, hl]) fun _ => hl⟩
        | false => exact go (h.strike h0 hb he hq (by rw [hm, Engine.onTimeout_acked hs ha hl]; rfl))
      | false =>
        by_cases hr : n.engine.tx.resends < Outgoing.maxResends
        · exact go (h.again he hq hs ha hr)
        · refine .inr ⟨_, h.finish he hq hs (hm.trans (Engine.onTimeout_failed hs ha hr)) ?_ fun hack => ?_⟩
          · simp [Engine.verdict, hs, ha, hr]
          · rw [ha] at hack
            cases hack

/-- Only the speaker has a frame to send, and only it gives the others something to answer. -/
theorem Casts.toDo_lt (h : Casts b0 i msg fall n b) (hb : msg.destination = .broadcast) (he : Expires b t id k c) :
    c.toDo < b.toDo := by
  refine he.toDo_lt (h.placed k (List.mem_of_getElem? he.acts.here)).sound (fun j k' hj hk' => ?_) ?_
  · by_cases hid : id = i
    · obtain ⟨k0, log, -, hbides, -⟩ := h.others j k' (hid ▸ hj) hk'
      have hkept := (h.placed k' (List.mem_of_getElem? hk')).sound.kept_after (b.level.edge? c.level) t
      have hfree := (Engine.isSending_of_same hkept.tx).trans hbides.free
      simp only [Engine.toSend, hfree, hbides.free, if_true]
    · rw [(h.lapses hb he hid).2.1, Node.after_none]
  · rintro ⟨s, hs⟩ j k' hj hk'
    have hid : id ≠ i := by
      rintro rfl
      obtain rfl : n = k := by simpa [h.here] using he.acts.here
      obtain ⟨⟨u, hu⟩, -⟩ := h.sends
      rw [hs] at hu
      cases hu
    exact Nat.le_of_eq (by rw [(h.lapses hb he hid).2.1, Node.after_none])

end casts

section aired

theorem Aired.nodesSound (h : Aired b0 i msg fall ok b) : b.NodesSound := fun k hk => (h.placed k hk).sound

theorem Aired.at (h : Aired b0 i msg fall ok b) (hb : b.now ≤ t)
    (ht : ∀ k ∈ b.nodes, ∀ u, k.timer.deadline? = some u → t ≤ u) : Aired b0 i msg fall ok { b with now := t } :=
  ⟨h.length, fun k hk => (h.placed k hk).at hb (ht k hk), Nat.le_trans h.fell hb, h.noise, h.nodes⟩

theorem Aired.lapses (h : Aired b0 i msg fall ok b) (he : Expires b t id k c) :
    k.engine.state = .follower .ackFinish ∧ b.level.edge? c.level = none ∧ (k.expire b.level t).Placed fall t ∧
      ∃ k0, b0.nodes[id]? = some k0 ∧ k0.Bides (k.expire b.level t) (b0.gets i msg (fall + nominalBit) ok id) ∧
        (k.expire b.level t).engine.state.rests = true := by
  have hmem := List.mem_of_getElem? he.acts.here
  have hat := h.at ((h.placed k hmem).onTime t he.due) he.first
  have hk : k.Placed fall t := hat.placed k hmem
  obtain ⟨k0, hk0, hbides, hr⟩ := h.nodes id k he.acts.here
  have hs : k.engine.state = .follower .ackFinish := by
    have hd := he.due
    rcases State.rests_cases hr with hs | hs | hs | hs
    · rw [hk.sound.deadline?_of_disabled hs] at hd; cases hd
    · rw [hk.sound.deadline?_of_idle hs] at hd; cases hd
    · have hbusy := (hk.sound.fit.busy _ hs).1
      rw [hbides.free] at hbusy
      cases hbusy
    · exact hs
  have hbides' := hbides.expire hk he.due hat.fell hs b.level
  have hlog : k.engine.verdict.toList.map (t, ·) = [] := by simp [Engine.verdict, hs]
  rw [hlog, List.append_nil] at hbides'
  have hx := hk.expire he.due hat.fell b.level
  have hp := hx.placed
  rw [hx.not_drives hs] at hp
  refine ⟨hs, he.acts.edge_none (hbides'.lets.trans hbides.lets.symm), hp, k0, hk0, hbides', ?_⟩
  rw [k.engine_expire, Engine.onTimeout_follower hs (by simp) (by simp)]
  exact Engine.rests_quit _

theorem Aired.expire (h : Aired b0 i msg fall ok b) (he : Expires b t id k c) : Aired b0 i msg fall ok c := by
  have hat := h.at ((h.placed k (List.mem_of_getElem? he.acts.here)).onTime t he.due) he.first
  obtain ⟨-, hnone, hplace, hnode⟩ := h.lapses he
  have hnone' : ({ b with now := t } : Bus).level.edge? c.level = none := hnone
  refine ⟨he.acts.length.trans h.length, ?_, ?_, he.acts.noise.trans h.noise, fun j k' hk' => ?_⟩
  · rw [he.acts.now]
    refine he.acts.forall_mem hplace fun j k' _ hk' => ?_
    rw [hnone', Node.after_none]
    exact hat.placed k' (List.mem_of_getElem? hk')
  · rw [he.acts.now]
    exact hat.fell
  · rcases he.acts.cases hk' with ⟨rfl, rfl⟩ | ⟨-, k'', hk'', rfl⟩
    · exact hnode
    · rw [hnone', Node.after_none]
      exact h.nodes j k'' hk''

theorem Aired.toDo_lt (h : Aired b0 i msg fall ok b) (he : Expires b t id k c) : c.toDo < b.toDo := by
  obtain ⟨-, hnone, -⟩ := h.lapses he
  refine he.toDo_lt (h.placed k (List.mem_of_getElem? he.acts.here)).sound (fun j k' _ _ => ?_) fun _ j k' _ _ => ?_
  · rw [hnone, Node.after_none]
  · exact Nat.le_of_eq (by rw [hnone, Node.after_none])

theorem Aired.completions (h : Aired b0 i msg fall ok b) : b.completionsSince b0 =
    (List.range b0.nodes.length).flatMap fun j => (b0.gets i msg (fall + nominalBit) ok j).map (j, ·) := by
  refine completionsSince_eq h.length fun j k k0 hk hk0 => ?_
  obtain ⟨k0', hk0', hbides, -⟩ := h.nodes j k hk
  obtain rfl : k0 = k0' := by simpa [hk0] using hk0'
  exact hbides.log

end aired

/-! From one deadline to the next, up to the moment when the noise ends. -/

section onair

variable {limit : Option Nat}

/-- The broadcast is on the line or over. If there is noise, the clock stops within its ACK slot. -/
def OnAir (b0 : Bus) (i : Nat) (msg : Message) (limit : Option Nat) (b : Bus) : Prop :=
  (∃ fall n, Casts b0 i msg fall n b ∧ (b.noise = true → limit.any (· < fall + nominalBit) = true)) ∨
    ∃ fall ok, Aired b0 i msg fall ok b

theorem OnAir.nodesSound (h : OnAir b0 i msg limit b) : b.NodesSound := by
  rcases h with ⟨fall, n, h, -⟩ | ⟨fall, ok, h⟩
  · exact h.nodesSound
  · exact h.nodesSound

theorem OnAir.at (h : OnAir b0 i msg limit b) (hb : b.now ≤ t)
    (ht : ∀ k ∈ b.nodes, ∀ u, k.timer.deadline? = some u → t ≤ u) : OnAir b0 i msg limit { b with now := t } := by
  rcases h with ⟨fall, n, h, hq⟩ | ⟨fall, ok, h⟩
  · exact .inl ⟨fall, n, h.at hb ht, hq⟩
  · exact .inr ⟨fall, ok, h.at hb ht⟩

/-- Without noise it does not matter how far the clock goes. -/
theorem OnAir.of_not_noise (h : OnAir b0 i msg limit b) (hq : b.noise = false) (limit' : Option Nat) :
    OnAir b0 i msg limit' b := by
  rcases h with ⟨fall, n, h, -⟩ | ⟨fall, ok, h⟩
  · refine .inl ⟨fall, n, h, fun hn => ?_⟩
    rw [hq] at hn
    cases hn
  · exact .inr ⟨fall, ok, h⟩

theorem OnAir.not_noise (h : OnAir b0 i msg none b) : b.noise = false := by
  rcases h with ⟨fall, n, h, hq⟩ | ⟨fall, ok, h⟩
  · refine Bool.eq_false_iff.2 fun hn => ?_
    have := hq hn
    cases this
  · exact h.noise

theorem OnAir.expire (h : OnAir b0 i msg limit b) (h0 : b0.Addressed) (hb : msg.destination = .broadcast)
    (he : Expires b t id k c) (hl : limit.any (· < t) = false) : OnAir b0 i msg limit c ∧ c.toDo < b.toDo := by
  rcases h with ⟨fall, n, h, hq⟩ | ⟨fall, ok, h⟩
  · refine ⟨?_, h.toDo_lt hb he⟩
    have hnoise : c.noise = b.noise := he.acts.noise
    by_cases hid : id = i
    · subst hid
      obtain rfl : n = k := by simpa [h.here] using he.acts.here
      have early : b.noise = true → t < fall + nominalBit := by
        intro hn
        obtain ⟨T, rfl, hT⟩ := (Option.any_eq_true _ _).1 (hq hn)
        simp only [Option.any_some, decide_eq_true_eq, decide_eq_false_iff_not] at hl hT
        omega
      rcases h.self h0 hb he early with ⟨fall', m, hc, hsame⟩ | ⟨ok, hc⟩
      · refine .inl ⟨fall', m, hc, fun hn => ?_⟩
        rw [hnoise] at hn
        rw [hsame hn]
        exact hq hn
      · exact .inr ⟨fall, ok, hc⟩
    · exact .inl ⟨fall, n, h.other hb he hid, by rw [hnoise]; exact hq⟩
  · exact ⟨.inr ⟨fall, ok, h.expire he⟩, h.toDo_lt he⟩

end onair

end Bus
end HdmiCec
