import HdmiCec.Proofs.Bus.Contention

/-! A bus that has come to rest carries the next frame as if nothing had happened before
(`round_trip`). Noise leaves nothing behind at a node but its state, its frames and its timer, and at
rest none of them is of any account. -/
namespace HdmiCec

namespace Node

variable {n : Node} {now : Nat}

structure Timed (n : Node) (now : Nat) : Prop where
  sound : n.Sound
  begun : n.timer.start ≤ now
  onTime : ∀ t, n.timer.deadline? = some t → now ≤ t

theorem Timed.of_start (h : n.Sound) (hs : n.timer.start = now) : n.Timed now where
  sound := h
  begun := by omega
  onTime := fun t ht => hs ▸ h.start_le_deadline ht

theorem Timed.at {t : Nat} (h : n.Timed now) (hn : now ≤ t) (ht : ∀ u, n.timer.deadline? = some u → t ≤ u) :
    n.Timed t := ⟨h.sound, Nat.le_trans h.begun hn, ht⟩

theorem Timed.after (h : n.Timed now) (e : Option Edge) : (n.after e now).Timed now := by
  cases e with
  | none => exact h
  | some e =>
    by_cases hw : n.timer.waitsFor e = true
    · rw [after_of_waitsFor hw]
      obtain ⟨hs, hstart⟩ := h.sound.hear hw now
      exact .of_start hs hstart
    · rw [after_of_not_waitsFor hw]
      exact h

theorem Timed.send {m : Message} {r : Reaction} (h : n.Timed now) (hr : n.engine.send m = .ok r) :
    (n.absorb r now).Timed now := by
  have hs := h.sound.send hr now
  by_cases hi : n.engine.state = .idle
  · refine .of_start hs ?_
    rw [absorb_send_of_idle hr hi]
    rfl
  · rw [absorb_send_of_ne_idle hr hi] at hs ⊢
    exact ⟨hs, h.begun, h.onTime⟩

theorem Timed.setEnabled (h : n.Timed now) (on : Bool) : (n.absorb (n.engine.setEnabled on) now).Timed now := by
  have hs := h.sound.setEnabled on now
  have hx := h.sound.switched on now
  generalize n.absorb (n.engine.setEnabled on) now = m at hx hs
  cases hx with
  | same => exact h
  | on => exact .of_start hs rfl
  | off => exact ⟨hs, h.begun, fun t ht => by simp [EdgeTimer.deadline?, EdgeTimer.stop] at ht⟩

end Node

namespace Bus

variable {b c : Bus} {id t : Nat} {n m : Node}

structure Sane (b : Bus) : Prop where
  timed : ∀ n ∈ b.nodes, n.Timed b.now
  fell : b.lastFall ≤ b.now
  addressed : b.Addressed

theorem Sane.nodesSound (h : b.Sane) : b.NodesSound := fun n hn => (h.timed n hn).sound

theorem Sane.at (h : b.Sane) (hb : b.now ≤ t) (ht : ∀ n ∈ b.nodes, ∀ u, n.timer.deadline? = some u → t ≤ u) :
    Sane { b with now := t } :=
  ⟨fun n hn => (h.timed n hn).at hb (ht n hn), Nat.le_trans h.fell hb, h.addressed⟩

/-- What happens at one node leaves the others in order. -/
theorem Sane.acts (h : b.Sane) (ha : Acts b id n m c) (hm : m.Timed b.now) (haddr : m.engine.address ≠ .broadcast) :
    c.Sane := by
  refine ⟨?_, ?_, ha.forall_mem haddr fun j k _ hk => ?_⟩
  · rw [ha.now]
    exact ha.forall_mem hm fun j k _ hk => (h.timed k (List.mem_of_getElem? hk)).after _
  · rw [ha.lastFall, ha.now]
    split
    · exact Nat.le_refl _
    · exact h.fell
  · rw [k.address_after]
    exact h.addressed k (List.mem_of_getElem? hk)

theorem Sane.expire (h : b.Sane) (he : Expires b t id n c) : c.Sane := by
  have hn := h.timed n (List.mem_of_getElem? he.acts.here)
  have hat := h.at (hn.onTime t he.due) he.first
  obtain ⟨hs, hstart⟩ := hn.sound.expire he.due b.level t
  refine hat.acts he.acts (.of_start hs hstart) ?_
  rw [Node.address_expire]
  exact h.addressed n (List.mem_of_getElem? he.acts.here)

theorem Sane.setNoise (h : b.Sane) (on : Bool) :
    (b.setNoise on).Sane ∧ (b.setNoise on).noise = on ∧ (b.setNoise on).now = b.now := by
  obtain ⟨hnodes, hnow, hnoise, hfalls, -⟩ := b.setNoise_spec on h.nodesSound
  have hold : ∀ k ∈ (b.setNoise on).nodes, ∃ k' ∈ b.nodes, ∃ e, k = k'.after e b.now := by
    intro k hk
    obtain ⟨j, hj⟩ := List.mem_iff_getElem?.1 hk
    obtain ⟨k', hk', rfl⟩ := Option.map_eq_some_iff.1 ((hnodes j).symm.trans hj)
    exact ⟨k', List.mem_of_getElem? hk', _, rfl⟩
  refine ⟨⟨fun k hk => ?_, ?_, fun k hk => ?_⟩, hnoise, hnow⟩
  · obtain ⟨k', hk', e, rfl⟩ := hold k hk
    rw [hnow]
    exact (h.timed k' hk').after e
  · rw [lastFall, hfalls, hnow]
    split
    · simp
    · exact h.fell
  · obtain ⟨k', hk', e, rfl⟩ := hold k hk
    rw [k'.address_after]
    exact h.addressed k' hk'

theorem Sane.send {msg : Message} {r : Reaction} (h : b.Sane) (hr : n.engine.send msg = .ok r)
    (ha : Acts b id n (n.absorb r b.now) c) : c.Sane := by
  have hmem := List.mem_of_getElem? ha.here
  refine h.acts ha ((h.timed n hmem).send hr) ?_
  rw [Node.engine_absorb, (Engine.send_keeps hr).2]
  exact h.addressed n hmem

theorem Sane.setEnabled {on : Bool} (h : b.Sane) (ha : Acts b id n (n.absorb (n.engine.setEnabled on) b.now) c) :
    c.Sane := by
  have hmem := List.mem_of_getElem? ha.here
  refine h.acts ha ((h.timed n hmem).setEnabled on) ?_
  rw [Node.engine_absorb, (n.engine.setEnabled_keeps on).2]
  exact h.addressed n hmem

theorem Sane.setAddress {a : LogicalAddress} (h : b.Sane) (hv : a.Assignable) (hn : b.nodes[id]? = some n)
    (ha : Alters b id { n with engine := { n.engine with address := a } } c) : c.Sane := by
  have ht := h.timed n (List.mem_of_getElem? hn)
  exact h.acts (ha.acts hn rfl) ⟨ht.sound.setAddress a, ht.begun, ht.onTime⟩ hv.ne_broadcast

theorem preserved_sane : Preserved (fun _ => True) fun _ b => b.Sane where
  sound := Sane.nodesSound
  expire := Sane.expire
  pass := fun h hb ht => h.at hb fun n hn u hu => Nat.le_of_lt (ht n hn u hu)
  send := fun _ h hr ha => h.send hr ha
  setEnabled := fun _ h ha => h.setEnabled ha
  setAddress := fun _ hv h hn ha => h.setAddress hv hn ha
  noise := fun on _ h => (h.setNoise on).1

theorem Reaches.sane {as : List LogicalAddress} {past : List (Step × Reply)}
    (h : Reaches (fun _ => True) as past b) : b.Sane := by
  refine preserved_sane.reaches (fun hb => ?_) h
  have hs := starts_of_ofAddresses hb
  refine ⟨fun k hk => ?_, hs.quiet.fell, hs.addressed (ofAddresses_eq_ok_iff.1 ⟨_, hb⟩)⟩
  have hp := hs.quiet.placed k hk
  exact ⟨hp.sound, hp.begun, hp.onTime⟩

/-- Nodes alone do not change what comes from outside. -/
theorem preserved_noise (v : Bool) : Preserved Step.Clean fun _ b => b.Sane ∧ b.noise = v where
  sound := fun h => h.1.nodesSound
  expire := fun h he => ⟨h.1.expire he, he.acts.noise.trans h.2⟩
  pass := fun h hb ht => ⟨h.1.at hb fun n hn u hu => Nat.le_of_lt (ht n hn u hu), h.2⟩
  send := fun _ h hr ha => ⟨h.1.send hr ha, ha.noise.trans h.2⟩
  setEnabled := fun _ h ha => ⟨h.1.setEnabled ha, ha.noise.trans h.2⟩
  setAddress := fun _ hv h hn ha => ⟨h.1.setAddress hv hn ha, ha.noise.trans h.2⟩
  noise := fun _ ha => ha.elim

theorem Reaches.noise {as : List LogicalAddress} {past : List (Step × Reply)}
    (h : Reaches (fun _ => True) as past b) : b.noise = false := by
  induction h with
  | start hb => exact (starts_of_ofAddresses hb).noise
  | @perform past b c k s r hr _ hp ih =>
    by_cases hc : s.Clean
    · exact (@Preserved.perform b c _ _ [] (preserved_noise false) k s r hc ⟨hr.sane, ih⟩ hp).2
    · cases s with
      | glitch low =>
        obtain ⟨d, hd, hq⟩ := Option.map_eq_some_iff.1 hp
        obtain ⟨d', hd', rfl⟩ := Option.map_eq_some_iff.1 hd
        simp only [Prod.mk.injEq] at hq
        obtain ⟨rfl, -⟩ := hq
        obtain ⟨hon, -, hnow⟩ := hr.sane.setNoise true
        have hlow := @Preserved.runUntil _ d' _ _ [] preserved_sane (b.now + low) k hon (by omega) hd'
        exact (hlow.setNoise false).2.1
      | _ => exact absurd trivial hc
  | deadline hr hs ih =>
    obtain ⟨t, id, n, he, -⟩ := step?_eq_some hr.sane.nodesSound hs
    exact he.acts.noise.trans ih

theorem Sane.idle (h : b.Sane) (hs : b.Settled) :
    ∀ k ∈ b.nodes, k.engine.state = .disabled ∨ k.engine.state = .idle := by
  intro k hk
  have hn := (h.timed k hk).sound
  have hnone := hs k hk
  cases hst : k.engine.state with
  | disabled => exact .inl rfl
  | idle => exact .inr rfl
  | initiator s =>
    rw [hn.deadline?_of_initiator hst] at hnone
    cases hnone
  | follower s =>
    by_cases hd : s = .debounce
    · subst hd
      obtain ⟨q, -, -, hq⟩ := hn.timer_of_debounce hst
      rw [hq] at hnone
      cases hnone
    · rw [hn.deadline?_of_follower hst hd] at hnone
      cases hnone

theorem Sane.quiet (h : b.Sane) (hn : b.noise = false) (hs : b.Settled) : b.Quiet := by
  have hidle := h.idle hs
  have silent : ∀ k ∈ b.nodes, k.engine.state.speaks = false := by
    intro k hk
    rcases hidle k hk with hst | hst <;> rw [hst] <;> rfl
  refine ⟨hn, h.fell, fun k hk => ?_, ?_, ?_⟩
  · have ht := h.timed k hk
    refine ⟨ht.sound, ht.begun, ht.onTime, ?_⟩
    rcases hidle k hk with hst | hst <;> simp only [Node.Anchored, hst]
  · intro i j n m hi _ hsp
    rw [silent n (List.mem_of_getElem? hi)] at hsp
    cases hsp
  · intro k hk hw
    rcases (h.timed k hk).sound.waits_rising hw with hst | ⟨f, hst⟩ <;>
      rcases hidle k hk with hst' | hst' <;> rw [hst] at hst' <;> cases hst'

theorem Over.single {b0 : Bus} {i : Nat} {msg : Message} {ended : List Ending}
    (h : Over b0 [(i, msg)] ended b) : ∃ u, ended = [⟨i, msg, u⟩] := by
  have hnode : ∀ p ∈ ended.map Ending.frame, p.1 = i := by
    intro p hp
    have hmem : p ∈ (ended.map Ending.frame).filter (·.1 == p.1) := List.mem_filter.2 ⟨hp, by simp⟩
    rw [← h.frames p.1] at hmem
    exact congrArg Prod.fst (List.mem_singleton.1 (List.mem_filter.1 hmem).1)
  have hone := h.frames i
  rw [filter_of_forall hnode, if_pos rfl, List.filter_cons_of_pos (by simp), List.filter_nil] at hone
  obtain ⟨e, rfl, he⟩ := List.map_eq_singleton_iff.1 hone.symm
  obtain ⟨rfl, rfl⟩ := Prod.mk.injEq .. ▸ he
  exact ⟨e.time, rfl⟩

/-- From any state of rest, whatever led there: a frame handed to a node that is on is taken, and ends
once. All that the nodes see of it is what they should, everybody is idle again, and the line has
fallen as often as the frame costs. -/
theorem round_trip {as : List LogicalAddress} {past : List (Step × Reply)}
    (h : Reaches (fun _ => True) as past b) (hs : b.Settled) {i : Nat} (hi : b.nodes[i]? = some n)
    (hen : n.engine.isEnabled = true) {msg : Message} (hm : msg.Legal) :
    ∃ (k0 : Nat) (b' c : Bus) (u : Nat),
      (∀ k, k0 ≤ k → b.perform? k (.send i msg) = some (b', .ok) ∧ b'.perform? k .run = some (c, .nothing)) ∧
      c.Settled ∧
      c.completionsSince b =
        (List.range b.nodes.length).flatMap (fun j => (b.seen j ⟨i, msg, u⟩).map (j, ·)) ∧
      (c.fallingEdgesSince b).length = (if b.answered i msg then 1 + 10 * msg.length else 6 * 11) ∧
      c.nodes.map Node.station = b.nodes.map Node.station ∧
      ∀ k ∈ c.nodes, k.engine.isEnabled = true → k.engine.state = .idle ∧ k.engine.isSending = false := by
  have hsane := h.sane
  have hidle := hsane.idle hs
  have hquiet := hsane.quiet h.noise hs
  have hmem := List.mem_of_getElem? hi
  obtain ⟨r, hr⟩ : ∃ r, n.engine.send msg = .ok r :=
    ⟨_, Engine.send_eq_ok_iff.2 ⟨hen, hm, (hquiet.free hidle hmem).1, rfl⟩⟩
  obtain ⟨b', hsend⟩ : ∃ b', ∀ k, b.perform? k (.send i msg) = some (b', .ok) := by
    refine ⟨b.cause i (·.react i fun n => (n, r)), fun k => ?_⟩
    have he : b.send i n msg = .ok (b.cause i (·.react i fun n => (n, r))) := by simp only [Bus.send, hr]; rfl
    simp only [perform?, hi, Option.map_some, he]
  have hgoing : Going b [(i, msg)] b' := by
    have hfirst : Going b [] b := ⟨[], .inl (hquiet.between hidle)⟩
    exact (preserved_going hsane.addressed).perform (s := .send i msg) trivial hfirst (hsend 0)
  obtain ⟨k0, c, hrun⟩ := hgoing.quiet.advance none
  obtain ⟨hlast, hstep⟩ := (preserved_going hsane.addressed).advance hgoing (hrun k0 (Nat.le_refl _))
  have hsettled := step?_eq_none_iff.1 hstep
  obtain ⟨ended, hover⟩ := hlast.over hsettled
  obtain ⟨u, rfl⟩ := hover.single
  refine ⟨k0, b', c, u, fun k hk => ⟨hsend k, ?_⟩, hsettled, ?_, ?_, ?_, ?_⟩
  · rw [perform?, run?, hrun k hk]
    rfl
  · rw [hover.completions]
    simp
  · rw [fallingEdgesSince, List.length_drop, Array.length_toList, hover.falls]
    simp [cost, Outgoing.maxResends, sumOver_cons, sumOver_nil]
  · refine List.ext_getElem? fun j => ?_
    rw [List.getElem?_map, List.getElem?_map]
    exact hover.ledger.stations j
  · intro k hk hon
    refine ⟨?_, (hover.ledger.quiet.free hover.idle hk).1⟩
    rcases hover.idle k hk with hst | hst
    · rw [Engine.isEnabled, hst] at hon
      cases hon
    · exact hst

theorem round_trip_after_noise :
    ∃ b, Reaches (fun _ => True) [⟨0⟩, ⟨4⟩] [(.glitch 700, .nothing), (.run, .nothing)] b ∧ b.Settled ∧
      ∃ (k0 : Nat) (b' c : Bus) (u : Nat),
        (∀ k, k0 ≤ k → b.perform? k (.send 1 [64, 54]) = some (b', .ok) ∧
          b'.perform? k .run = some (c, .nothing)) ∧ c.Settled ∧
        c.completionsSince b =
          (List.range b.nodes.length).flatMap (fun j => (b.seen j ⟨1, [64, 54], u⟩).map (j, ·)) ∧
        (c.fallingEdgesSince b).length = (if b.answered 1 [64, 54] then 1 + 10 * [64, 54].length else 6 * 11) ∧
        c.nodes.map Node.station = b.nodes.map Node.station ∧
        ∀ k ∈ c.nodes, k.engine.isEnabled = true → k.engine.state = .idle ∧ k.engine.isSending = false := by
  obtain ⟨a, ha⟩ := (@ofAddresses_eq_ok_iff [⟨0⟩, ⟨4⟩]).2 (by decide)
  have run : ((ofAddresses [⟨0⟩, ⟨4⟩]).toOption.any fun a => (a.perform? 100 (.glitch 700)).any fun p =>
      p.2 = .nothing && (p.1.perform? 100 .run).any fun q =>
        q.2 = .nothing && (q.1.nodes.all (·.timer.deadline? = none) &&
          q.1.nodes[1]?.any (·.engine.isEnabled))) = true := by decide +kernel
  rw [ha] at run
  simp only [Except.toOption, Option.any_some] at run
  obtain ⟨⟨b, r⟩, hb, hr⟩ := (Option.any_eq_true _ _).1 run
  rw [Bool.and_eq_true, decide_eq_true_eq] at hr
  obtain ⟨rfl, hr⟩ := hr
  obtain ⟨⟨c, r⟩, hc, hr⟩ := (Option.any_eq_true _ _).1 hr
  rw [Bool.and_eq_true, decide_eq_true_eq, Bool.and_eq_true, List.all_eq_true, Option.any_eq_true] at hr
  obtain ⟨rfl, hall, n, hn, hen⟩ := hr
  have hreach : Reaches (fun _ => True) [⟨0⟩, ⟨4⟩] [(.glitch 700, .nothing), (.run, .nothing)] c :=
    .perform (.perform (.start ha) trivial hb) trivial hc
  have hsettled : c.Settled := fun k hk => by simpa using hall k hk
  have hlegal : Message.Legal [64, 54] := by decide
  exact ⟨c, hreach, hsettled, round_trip hreach hsettled hn hen hlegal⟩

end Bus
end HdmiCec
