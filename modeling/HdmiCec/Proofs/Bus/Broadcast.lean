import HdmiCec.Proofs.Bus.Airing

/-! Broadcasts are all or nothing (`broadcast_all_or_nothing`). Noise may come and go in every ACK slot,
as long as nobody is done with the slot before the noise begins, and the noise is gone before the slot
is. What everybody knows of the broadcast is carried from deadline to deadline and from step to step. -/
namespace HdmiCec

namespace Node

variable {n : Node} {fall now f : Nat}

/-- The time at which the ACK slot has begun in which node `n` lets go of the line and reads it. -/
def slot? (n : Node) : Option Nat :=
  match n.engine.state with
  | .initiator .ackLow => some n.timer.start
  | .initiator .ackHigh => some (n.timer.start - lowDuration true)
  | .initiator .ackVerify => some (n.timer.start - sampleTime)
  | _ => none

theorem Placed.slot (h : n.Placed fall now) (hs : n.slot? = some f) : n.InSlot ∧ f = fall := by
  have ha := h.anchored
  unfold slot? at hs
  split at hs
  · next hst =>
    simp only [Anchored, hst, Initiator.since, Option.some.injEq] at ha hs
    exact ⟨.inl hst, by omega⟩
  · next hst =>
    simp only [Anchored, hst, Initiator.since, Option.some.injEq] at ha hs
    exact ⟨.inr (.inl hst), by omega⟩
  · next hst =>
    simp only [Anchored, hst, Initiator.since, Option.some.injEq] at ha hs
    exact ⟨.inr (.inr hst), by omega⟩
  · cases hs

theorem slot?_of_rests (h : n.engine.state.rests = true) : n.slot? = none := by
  rcases State.rests_cases h with hs | hs | hs | hs <;> simp [slot?, hs]

end Node

namespace Bus

variable {b0 b c d : Bus} {i fall t f : Nat} {n k : Node} {msg : Message}

def Ahead (b : Bus) : Prop := ∀ k ∈ b.nodes, ∀ u, k.timer.deadline? = some u → b.now < u

theorem Settled.ahead (h : b.Settled) : b.Ahead := by
  intro k hk u hu
  rw [h k hk] at hu
  cases hu

section run

variable {limit : Option Nat}

/-- Who is in an ACK slot is the speaker of a broadcast that is on the line. -/
theorem OnAir.slot (h : OnAir b0 i msg limit b) (hn : b.nodes[i]? = some n) (hs : n.slot? = some f) :
    Casts b0 i msg f n b ∧ n.InSlot ∧ (b.noise = true → limit.any (· < f + nominalBit) = true) := by
  rcases h with ⟨fall, m, h, hq⟩ | ⟨fall, ok, h⟩
  · obtain rfl : n = m := by simpa [h.here] using hn.symm
    obtain ⟨hin, rfl⟩ := h.place.slot hs
    exact ⟨h, hin, hq⟩
  · obtain ⟨k0, -, -, hr⟩ := h.nodes i n hn
    rw [Node.slot?_of_rests hr] at hs
    cases hs

/-- However far the clock is to go, it gets there after some number of deadlines. -/
theorem OnAir.advance (h : OnAir b0 i msg limit b) (h0 : b0.Addressed) (hb : msg.destination = .broadcast)
    (hl : ∀ t, limit = some t → b.now ≤ t) : ∃ k0 c, (∀ k, k0 ≤ k → b.advance? limit k = some c) ∧
      OnAir b0 i msg limit c ∧ c.noise = b.noise ∧ (∀ t, limit = some t → c.now ≤ t) ∧ c.step? limit = none := by
  have hstep : ∀ {a t id k c}, (OnAir b0 i msg limit a ∧ a.noise = b.noise ∧ ∀ u, limit = some u → a.now ≤ u) →
      Expires a t id k c → limit.any (· < t) = false →
      (OnAir b0 i msg limit c ∧ c.noise = b.noise ∧ ∀ u, limit = some u → c.now ≤ u) ∧ c.toDo < a.toDo := by
    rintro a t id k c ⟨ha, hq, -⟩ he ht
    obtain ⟨hc, hlt⟩ := ha.expire h0 hb he ht
    refine ⟨⟨hc, he.acts.noise.trans hq, ?_⟩, hlt⟩
    rintro u rfl
    rw [he.acts.now]
    simpa using ht
  obtain ⟨k0, c, hc, ⟨hon, hq, hnow⟩, hlast⟩ :=
    advance_of_toDo (b := b) _ limit (fun ha => ha.1.nodesSound) hstep ⟨h, rfl, hl⟩
  exact ⟨k0, c, hc, hon, hq, hnow, hlast⟩

theorem OnAir.runUntil (h : OnAir b0 i msg (some t) b) (h0 : b0.Addressed) (hb : msg.destination = .broadcast)
    (ht : b.now ≤ t) : ∃ k0 c, (∀ k, k0 ≤ k → b.runUntil? k t = some c) ∧ OnAir b0 i msg (some t) c ∧
      c.noise = b.noise ∧ c.now = t ∧ c.Ahead := by
  obtain ⟨k0, c, hc, hon, hq, hnow, hlast⟩ := h.advance h0 hb (by rintro u ⟨⟩; exact ht)
  have hle := hnow t rfl
  have hahead : ∀ k ∈ c.nodes, ∀ u, k.timer.deadline? = some u → t < u := fun k hk u hu => by
    simpa using step?_eq_none hlast k hk u hu
  refine ⟨k0, { c with now := t }, fun k hk => ?_, hon.at hle fun k hk u hu => Nat.le_of_lt (hahead k hk u hu), hq,
    rfl, hahead⟩
  rw [runUntil?, hc k hk, Option.map_some, Nat.max_eq_right hle]

/-- Noise that comes or goes in an ACK slot before anybody is done with it changes nothing but the
line. -/
theorem Casts.setNoise (h : Casts b0 i msg fall n b) (hs : n.InSlot) (ha : b.Ahead) (on : Bool)
    (hon : on = true → b.now < fall + 1500) : Casts b0 i msg fall n (b.setNoise on) ∧
      (b.setNoise on).noise = on ∧ (b.setNoise on).now = b.now ∧ (b.setNoise on).Ahead := by
  obtain ⟨hnodes, hnow, hnoise, hfalls, hlow⟩ := b.setNoise_spec on h.nodesSound
  generalize b.setNoise on = c at *
  have early : b.level.edge? c.level = some .falling → b.now < fall + 1500 := by
    intro he
    obtain ⟨hne, hlev⟩ := Level.edge?_eq_some_iff.1 he
    rcases hlow.1 hlev with hq | ⟨k, hk, hp⟩
    · exact hon hq
    · have : b.level = .low := level_eq_low_iff.2 (.inr ⟨k, hk, hp⟩)
      exact absurd (this.trans hlev.symm) hne
  have hsame : c.nodes = b.nodes := by
    refine List.ext_getElem? fun j => ?_
    rw [hnodes j]
    cases hk : b.nodes[j]? with
    | none => rfl
    | some k =>
      refine congrArg some ?_
      by_cases hj : j = i
      · subst hj
        obtain rfl : n = k := by simpa [h.here] using hk
        exact hs.unmoved h.place.sound _ _
      · obtain ⟨k0, log, -, -, hacc⟩ := h.others j k hj hk
        exact hacc.still (h.placed k (List.mem_of_getElem? hk)) hs early
  refine ⟨⟨by rw [hsame]; exact h.here, by rw [hsame]; exact h.length, ?_, by rw [hnow]; exact h.fell, h.sends, h.own,
    ?_, fun _ => hs, fun hsp => ?_⟩, hnoise, hnow, ?_⟩
  · rw [hsame, hnow]
    exact h.placed
  · intro j k hj hk
    rw [hsame] at hk
    rw [hnow]
    obtain ⟨k0, log, hk0, hbides, hacc⟩ := h.others j k hj hk
    have hmem := List.mem_of_getElem? hk
    exact ⟨k0, log, hk0, hbides,
      hacc.of_ahead h.place (h.placed k hmem) (ha n (List.mem_of_getElem? h.here)) (ha k hmem) _⟩
  · rw [hfalls]
    have hmem := h.marked hsp
    split
    · simp [hmem]
    · exact hmem
  · rw [Ahead, hsame, hnow]
    exact ha

end run

/-- While node `i` sends, time passes, and noise may come in its ACK slots. It begins before the others
make up their minds, and ends before the slot does. -/
def Lets (b : Bus) (i : Nat) : Step → Prop
  | .glitch low => ∃ n fall, b.nodes[i]? = some n ∧ n.slot? = some fall ∧ b.now < fall + 1500 ∧
      b.now + low < fall + 2400
  | .run | .runFor _ => True
  | _ => False

/-- The states in which the broadcast of node `i` is when it was taken in state `b`, between two steps of
a script. -/
inductive Disturbed (i : Nat) (b : Bus) : Bus → Prop
  | start : Disturbed i b b
  | perform {c d : Bus} {k : Nat} {s : Step} {r : Reply} :
      Disturbed i b c → c.Lets i s → c.perform? k s = some (d, r) → Disturbed i b d

/-- The same states, and those from one deadline to the next within a step, which goes no further than
`limit`. -/
inductive Passes (i : Nat) (b : Bus) : Option Nat → Bus → Prop
  | rest {limit : Option Nat} {c : Bus} : Disturbed i b c → Passes i b limit c
  | noise {c : Bus} {low : Nat} : Disturbed i b c → c.Lets i (.glitch low) →
      Passes i b (some (c.now + low)) (c.setNoise true)
  | deadline {limit : Option Nat} {c d : Bus} : Passes i b limit c → c.step? limit = some d → Passes i b limit d

/-- Noise comes while the broadcast is on the line, and does not outlast the slot. -/
theorem OnAir.disturb {low : Nat} (h : OnAir b0 i msg none b) (ha : b.Ahead) (hl : b.Lets i (.glitch low)) :
    OnAir b0 i msg (some (b.now + low)) (b.setNoise true) ∧ (b.setNoise true).noise = true ∧
      (b.setNoise true).now = b.now := by
  obtain ⟨n, fall, hn, hs, hbegin, hend⟩ := hl
  obtain ⟨hc, hin, -⟩ := h.slot hn hs
  obtain ⟨hc, hq, hnow, -⟩ := hc.setNoise hin ha true fun _ => hbegin
  refine ⟨.inl ⟨fall, n, hc, fun _ => ?_⟩, hq, hnow⟩
  rw [Option.any_some, decide_eq_true_eq]
  exact hend

theorem OnAir.calm (h : OnAir b0 i msg (some t) b) (ha : b.Ahead) (hq : b.noise = true) :
    OnAir b0 i msg none (b.setNoise false) ∧ (b.setNoise false).Ahead := by
  rcases h with ⟨fall, n, h, -⟩ | ⟨fall, ok, h⟩
  · obtain ⟨hc, hoff, -, hahead⟩ := h.setNoise (h.noise hq) ha false nofun
    refine ⟨.inl ⟨fall, n, hc, fun hon => ?_⟩, hahead⟩
    rw [hoff] at hon
    cases hon
  · rw [h.noise] at hq
    cases hq

theorem OnAir.plays {s : Step} (h : OnAir b0 i msg none b) (h0 : b0.Addressed) (hb : msg.destination = .broadcast)
    (ha : b.Ahead) (hl : b.Lets i s) : ∃ k0 c, (∀ k, k0 ≤ k → b.perform? k s = some (c, .nothing)) ∧
      OnAir b0 i msg none c ∧ c.Ahead := by
  cases s with
  | run =>
    obtain ⟨k0, c, hc, hon, -, -, hlast⟩ := h.advance h0 hb nofun
    exact ⟨k0, c, fun k hk => by rw [perform?, run?, hc k hk]; rfl, hon, (step?_eq_none_iff.1 hlast).ahead⟩
  | runFor ticks =>
    have hq := h.not_noise
    obtain ⟨k0, c, hc, hon, hq', -, hahead⟩ :=
      (h.of_not_noise hq (some (b.now + ticks))).runUntil h0 hb (Nat.le_add_right _ _)
    exact ⟨k0, c, fun k hk => by rw [perform?, hc k hk]; rfl, hon.of_not_noise (hq'.trans hq) none, hahead⟩
  | glitch low =>
    obtain ⟨hon, hq, hnow⟩ := h.disturb ha hl
    obtain ⟨k0, c, hc, hon', hq', -, hahead⟩ := hon.runUntil h0 hb (hnow ▸ Nat.le_add_right _ _)
    obtain ⟨hoff, hahead'⟩ := hon'.calm hahead (hq'.trans hq)
    exact ⟨k0, c.setNoise false, fun k hk => by rw [perform?, glitch?, hc k hk]; rfl, hoff, hahead'⟩
  | send id m => exact hl.elim
  | setEnabled id on => exact hl.elim
  | setAddress id a => exact hl.elim

theorem OnAir.disturbed (h : OnAir b0 i msg none b) (h0 : b0.Addressed) (hb : msg.destination = .broadcast)
    (ha : b.Ahead) (hd : Disturbed i b c) : OnAir b0 i msg none c ∧ c.Ahead := by
  induction hd with
  | start => exact ⟨h, ha⟩
  | @perform c d k s r _ hl hp ih =>
    obtain ⟨k0, d', hall, hd⟩ := ih.1.plays h0 hb ih.2 hl
    have hsame := (perform?_mono hp (Nat.le_max_left k k0)).symm.trans (hall _ (Nat.le_max_right k k0))
    simp only [Option.some.injEq, Prod.mk.injEq] at hsame
    rw [hsame.1]
    exact hd

theorem OnAir.passes {limit : Option Nat} (h : OnAir b0 i msg none b) (h0 : b0.Addressed)
    (hb : msg.destination = .broadcast) (ha : b.Ahead) (hp : Passes i b limit c) : OnAir b0 i msg limit c := by
  induction hp with
  | rest hd =>
    obtain ⟨hon, -⟩ := h.disturbed h0 hb ha hd
    exact hon.of_not_noise hon.not_noise _
  | noise hd hl =>
    obtain ⟨hon, hahead⟩ := h.disturbed h0 hb ha hd
    exact (hon.disturb hahead hl).1
  | deadline _ hs ih =>
    obtain ⟨t, id, n, he, hl⟩ := step?_eq_some ih.nodesSound hs
    exact (ih.expire h0 hb he hl).1

/-- A frame has been taken on a bus at rest. -/
theorem Quiet.casts {r : Reaction} (h : b.Quiet)
    (hidle : ∀ k ∈ b.nodes, k.engine.state = .disabled ∨ k.engine.state = .idle) (hr : n.engine.send msg = .ok r)
    (ha : Acts b i n (n.absorb r b.now) c) :
    Casts b i msg c.lastFall (n.absorb r b.now) c ∧ c.noise = false ∧ c.Ahead := by
  have hmem := List.mem_of_getElem? ha.here
  have hn := h.placed n hmem
  obtain ⟨hen, hm, -, -⟩ := Engine.send_eq_ok_iff.1 hr
  have hst : n.engine.state = .idle := by
    rcases hidle n hmem with hst | hst
    · rw [Engine.isEnabled, hst] at hen
      cases hen
    · exact hst
  have htakes := hn.sound.takes hr b.now
  have heq := Node.absorb_send_of_idle hr hst b.now
  have hself : (n.absorb r b.now).engine.state = .initiator .freeTime := by rw [heq]
  have hquiet := h.send hr ha
  have hm' := hquiet.placed _ (List.mem_of_getElem? ha.self)
  have hnone : b.level.edge? c.level = none := ha.edge_none htakes.pulling
  refine ⟨⟨ha.self, ha.length, hquiet.placed, hquiet.fell, ⟨⟨_, hself⟩, ?_⟩,
    ⟨n, ha.here, htakes.station, by rw [htakes.completions]⟩, fun j k hj hk => ?_, ?_, ?_⟩, ha.noise.trans h.noise,
    ha.forall_mem (fun u hu => ?_) fun j k _ hk u hu => ?_⟩
  · rw [heq]
    exact n.engine.message_load hm
  · rw [ha.unchanged hnone hj] at hk
    have hk' := List.mem_of_getElem? hk
    refine ⟨k, [], hk, ⟨rfl, (h.free hidle hk').1, ?_, (List.append_nil _).symm⟩, ?_⟩
    · refine (h.placed k hk').sound.not_pulling_of_state ?_
      rcases hidle k hk' with hs | hs <;> rw [hs] <;> rfl
    · rcases hidle k hk' with hs | hs
      · exact .off hs
      · exact .waits hself hs
  · rw [ha.noise, h.noise]
    intro hon
    cases hon
  · rw [hself]
    intro hsp
    cases hsp
  · rw [hm'.sound.deadline?_of_initiator hself, Option.some.injEq] at hu
    have hpos : 0 < Initiator.freeTime.span (n.absorb r b.now).engine.tx := by
      show 0 < (n.absorb r b.now).engine.tx.freeTime.ticks
      cases (n.absorb r b.now).engine.tx.freeTime <;> decide
    have hstart : (n.absorb r b.now).timer.start = b.now := by rw [heq]; rfl
    rw [ha.now]
    lia
  · have hk' := List.mem_of_getElem? hk
    rw [hnone, Node.after_none] at hu
    rcases hidle k hk' with hs | hs
    · rw [(h.placed k hk').sound.deadline?_of_disabled hs] at hu
      cases hu
    · rw [(h.placed k hk').sound.deadline?_of_idle hs] at hu
      cases hu

end Bus

/-- What node `k` has made by `now` of the ACK slot that the speaker `n` has begun at `fall`. As long as
it is undecided, it is at the same bit as the speaker, and has read the same if both have read. Before the
speaker has read the line, everybody that is on is undecided. -/
inductive Node.Vote (n k : Node) (fall now : Nat) : Prop
  | off : k.engine.state = .disabled → Vote n k fall now
  | undecided : k.engine.state.answers = true → k.engine.rx.buffer.pos = n.engine.tx.buffer.pos →
      (n.engine.state = .initiator .ackVerify → k.engine.state = .follower .ackVerify →
        k.engine.rx.refused = !n.engine.tx.acked) → Vote n k fall now
  | drops : n.engine.state = .initiator .ackVerify → n.engine.tx.acked = false → k.engine.state = .idle →
      Vote n k fall now
  | keeps : n.engine.state = .initiator .ackVerify → n.engine.tx.acked = true →
      k.engine.state = .follower .ackFinish ∨
        k.engine.state = .idle ∧ n.engine.tx.isLast = true ∧ fall + nominalBit ≤ now → Vote n k fall now

theorem Node.Accord.vote {n k : Node} {fall now : Nat} {noise : Bool} {log : List (Nat × Completion)}
    (h : n.Accord k fall now noise log) (hs : n.InSlot) : n.Vote k fall now := by
  cases h with
  | off hoff => exact .off hoff
  | waits hw => rcases hs with hs | hs | hs <;> rw [hw] at hs <;> cases hs
  | follows hf hfin hm =>
    rcases answers_of_follows hf hs with ha | hr
    · exact .undecided ha (hf.of_answers ha).2.1.pos hm.both
    · exact absurd hr hfin
  | keeps hf hr ha => exact .keeps (hf.of_ackFinish hr) ha (.inl hr)
  | drops hv ha _ hr => exact .drops hv ha hr
  | through hv ha hl hlate hr => exact .keeps hv ha (.inr ⟨hr, hl, hlate⟩)

namespace Bus

variable {b0 b c d : Bus} {i fall t f : Nat} {n k : Node} {msg : Message} {limit : Option Nat}

theorem OnAir.votes (h : OnAir b0 i msg limit b) (hn : b.nodes[i]? = some n) (hs : n.slot? = some f) :
    f ∈ b.fallingEdges.toList ∧ ∀ (j : Nat) k, j ≠ i → b.nodes[j]? = some k → n.Vote k f b.now := by
  obtain ⟨hc, hin, -⟩ := h.slot hn hs
  refine ⟨hc.marked hin.speaks, fun j k hj hk => ?_⟩
  obtain ⟨k0, log, -, -, hacc⟩ := hc.others j k hj hk
  exact hacc.vote hin

/-- When the speaker counts what it has read, the slot is over for everybody, and they have made of it the
same. -/
theorem OnAir.counted {m : Node} (h : OnAir b0 i msg limit b) (hb : msg.destination = .broadcast)
    (hstep : b.step? limit = some c) (hn : b.nodes[i]? = some n) (hs : n.engine.state = .initiator .ackVerify)
    (hm : c.nodes[i]? = some m) (hne : m.engine.state ≠ .initiator .ackVerify) {j : Nat} (hj : j ≠ i)
    (hk : b.nodes[j]? = some k) (hon : k.engine.isEnabled = true) :
    n.engine.tx.acked = false ∧ k.engine.state = .idle ∨ n.engine.tx.acked = true ∧
      (k.engine.state = .follower .ackFinish ∨ k.engine.state = .idle ∧ n.engine.tx.isLast = true) := by
  have hslot : n.slot? = some (n.timer.start - sampleTime) := by simp [Node.slot?, hs]
  obtain ⟨hc, hin, -⟩ := h.slot hn hslot
  generalize n.timer.start - sampleTime = fall at hc
  obtain ⟨t, id, k', he, -⟩ := step?_eq_some h.nodesSound hstep
  have hid : id = i := by
    refine Decidable.byContradiction fun hid => hne ?_
    have hsame := (he.acts.unchanged (hc.lapses hb he hid).2.1 (Ne.symm hid)).trans hn
    rw [hm] at hsame
    cases hsame
    exact hs
  subst hid
  obtain rfl : n = k' := by simpa [hn] using he.acts.here
  have hat := hc.at (hc.place.onTime t he.due) he.first
  have ht : t = fall + nominalBit := hat.place.now_of_deadline he.due hs (by simp)
  have hno : k.engine.state.answers = false :=
    (hat.placed k (List.mem_of_getElem? hk)).not_answers (by rw [ht]; simp [nominalBit])
  obtain ⟨k0, log, -, -, hacc⟩ := hc.others j k hj hk
  cases hacc.vote hin with
  | off hoff =>
    rw [Engine.isEnabled, hoff] at hon
    cases hon
  | undecided ha =>
    rw [hno] at ha
    cases ha
  | drops _ ha hr => exact .inl ⟨ha, hr⟩
  | keeps _ ha hr => exact .inr ⟨ha, hr.imp_right fun hr => ⟨hr.1, hr.2.1⟩⟩

theorem OnAir.aired (h : OnAir b0 i msg limit b) (hs : b.Settled) : ∃ fall ok, Aired b0 i msg fall ok b := by
  rcases h with ⟨fall, n, h, -⟩ | h
  · obtain ⟨⟨s, hst⟩, -⟩ := h.sends
    have hd := hs n (List.mem_of_getElem? h.here)
    rw [h.place.sound.deadline?_of_initiator hst] at hd
    cases hd
  · exact h

/-- Node `i` has been given the broadcast `msg` in state `b0`, and `b` is the state after that. Whatever
noise there is in the ACK slots, all nodes agree on every block, and so on the whole frame. -/
structure AllOrNothing (b0 : Bus) (i : Nat) (msg : Message) (b : Bus) : Prop where
  /-- All steps come to their end. -/
  plays : ∀ {c s}, Disturbed i b c → c.Lets i s → ∃ k0 d, ∀ k, k0 ≤ k → c.perform? k s = some (d, .nothing)
  /-- At no time within a slot anybody has made up its mind in another way than the speaker. -/
  votes : ∀ {limit c n fall}, Passes i b limit c → c.nodes[i]? = some n → n.slot? = some fall →
    fall ∈ c.fallingEdges.toList ∧ ∀ (j : Nat) k, j ≠ i → c.nodes[j]? = some k → n.Vote k fall c.now
  /-- Everybody has dropped the frame when the speaker counts a NAK, and nobody when it counts an ACK. -/
  counted : ∀ {limit c d n m}, Passes i b limit c → c.step? limit = some d →
    c.nodes[i]? = some n → n.engine.state = .initiator .ackVerify →
    d.nodes[i]? = some m → m.engine.state ≠ .initiator .ackVerify →
    ∀ (j : Nat) k, j ≠ i → c.nodes[j]? = some k → k.engine.isEnabled = true →
      n.engine.tx.acked = false ∧ k.engine.state = .idle ∨ n.engine.tx.acked = true ∧
        (k.engine.state = .follower .ackFinish ∨ k.engine.state = .idle ∧ n.engine.tx.isLast = true)
  /-- In the end either everybody has got the message, or nobody has got anything. -/
  ends : ∀ {c}, Disturbed i b c → ∃ k0 d u ok, (∀ k, k0 ≤ k → c.perform? k .run = some (d, .nothing)) ∧
    d.Settled ∧ d.completionsSince b0 =
      (List.range b0.nodes.length).flatMap fun j => (b0.gets i msg u ok j).map (j, ·)

theorem OnAir.allOrNothing (h : OnAir b0 i msg none b) (h0 : b0.Addressed) (hb : msg.destination = .broadcast)
    (ha : b.Ahead) : b0.AllOrNothing i msg b where
  plays := by
    intro c s hd hl
    obtain ⟨hon, hahead⟩ := h.disturbed h0 hb ha hd
    obtain ⟨k0, d, hall, -⟩ := hon.plays h0 hb hahead hl
    exact ⟨k0, d, hall⟩
  votes := fun hp hn hs => (h.passes h0 hb ha hp).votes hn hs
  counted := fun hp hstep hn hs hm hne _ _ hj hk hon =>
    (h.passes h0 hb ha hp).counted hb hstep hn hs hm hne hj hk hon
  ends := by
    intro c hd
    obtain ⟨hon, -⟩ := h.disturbed h0 hb ha hd
    obtain ⟨k0, d, hall, hon, -, -, hlast⟩ := hon.advance h0 hb nofun
    have hsettled := step?_eq_none_iff.1 hlast
    obtain ⟨fall, ok, haired⟩ := hon.aired hsettled
    refine ⟨k0, d, fall + nominalBit, ok, fun k hk => ?_, hsettled, haired.completions⟩
    rw [perform?, run?, hall k hk]
    rfl

/-- From any state of rest, a node that is on sends a broadcast, and while it does so noise comes within
any of its ACK slots. Then in every block the speaker counts a NAK and everybody drops the frame, or it
counts an ACK and nobody does. In the end the speaker knows whether all have got the message or none. -/
theorem broadcast_all_or_nothing {as : List LogicalAddress} {past : List (Step × Reply)}
    (h : Reaches (fun _ => True) as past b) (hs : b.Settled) (hi : b.nodes[i]? = some n)
    (hen : n.engine.isEnabled = true) (hm : msg.Legal) (hb : msg.destination = .broadcast) :
    ∃ c, (∀ k, b.perform? k (.send i msg) = some (c, .ok)) ∧ b.AllOrNothing i msg c := by
  have hsane := h.sane
  have hidle := hsane.idle hs
  have hquiet := hsane.quiet h.noise hs
  have hfree := (hquiet.free hidle (List.mem_of_getElem? hi)).1
  obtain ⟨r, hr⟩ : ∃ r, n.engine.send msg = .ok r := ⟨_, Engine.send_eq_ok_iff.2 ⟨hen, hm, hfree, rfl⟩⟩
  have hsound := ((hsane.timed n (List.mem_of_getElem? hi)).send hr).sound
  have hacts := acts_cause (f := fun n => (n, r)) hsane.nodesSound hi hsound
  have he : b.send i n msg = .ok (b.cause i (·.react i fun n => (n, r))) := by simp only [Bus.send, hr]; rfl
  refine ⟨b.cause i (·.react i fun n => (n, r)), fun k => ?_, ?_⟩
  · simp only [perform?, hi, Option.map_some, he]
  · obtain ⟨hcasts, hq, hahead⟩ := hquiet.casts hidle hr hacts
    refine OnAir.allOrNothing (.inl ⟨_, _, hcasts, fun hon => ?_⟩) hsane.addressed hb hahead
    rw [hq] at hon
    cases hon

theorem broadcast_all_or_nothing_noisy : ∃ a b c, ofAddresses [⟨0⟩, ⟨4⟩, ⟨5⟩] = .ok a ∧
    (∀ k, a.perform? k (.send 0 [15, 54]) = some (b, .ok)) ∧ a.AllOrNothing 0 [15, 54] b ∧
    Disturbed 0 b c ∧ c.Lets 0 (.glitch 900) := by
  obtain ⟨a, ha⟩ := (@ofAddresses_eq_ok_iff [⟨0⟩, ⟨4⟩, ⟨5⟩]).2 (by decide)
  have rest : ((ofAddresses [⟨0⟩, ⟨4⟩, ⟨5⟩]).toOption.any fun a => a.nodes.all (·.timer.deadline? = none) &&
      a.nodes[0]?.any (·.engine.isEnabled)) = true := by decide +kernel
  have run : ((ofAddresses [⟨0⟩, ⟨4⟩, ⟨5⟩]).toOption.any fun a => (a.perform? 0 (.send 0 [15, 54])).any fun p =>
      (p.1.perform? 100 (.runFor 36200)).any fun q => q.1.nodes[0]?.any fun n => n.slot?.any fun fall =>
        q.1.now < fall + 1500 && q.1.now + 900 < fall + 2400) = true := by decide +kernel
  rw [ha] at rest run
  simp only [Except.toOption, Option.any_some, Bool.and_eq_true, List.all_eq_true, decide_eq_true_eq] at rest run
  obtain ⟨n, hn, hen⟩ := (Option.any_eq_true _ _).1 rest.2
  obtain ⟨b, hsend, hall⟩ :=
    broadcast_all_or_nothing (.start ha) rest.1 hn hen (show Message.Legal [15, 54] by decide) (by decide)
  rw [hsend 0, Option.any_some] at run
  obtain ⟨⟨c, r⟩, hc, hr⟩ := (Option.any_eq_true _ _).1 run
  obtain ⟨m, hm, hr⟩ := (Option.any_eq_true _ _).1 hr
  obtain ⟨fall, hfall, hr⟩ := (Option.any_eq_true _ _).1 hr
  simp only [Bool.and_eq_true, decide_eq_true_eq] at hr
  exact ⟨a, b, c, ha, hsend, hall, .perform (s := .runFor 36200) .start trivial hc, m, fall, hm, hfall, hr.1, hr.2⟩

end Bus
end HdmiCec
