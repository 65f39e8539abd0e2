import HdmiCec.Proofs.Bus.Anchor

/-! Mutual exclusion. While no noise disturbs the line, at most one node speaks, and nobody holds
the line low but that node and those who answer it (`speaker_unique`). What rules out a second
speaker is time: a falling edge that everybody sees comes long before the shortest free time ends. -/
namespace HdmiCec

theorem State.drives_iff {s : State} : s.drives = true ↔ ∃ u, s = .initiator u ∧ u.isLow = true := by
  cases s <;> simp [drives]

theorem State.not_mayPull {s : State} (h1 : s.speaks = false) (h2 : s.answers = false) : s.mayPull = false := by
  cases s with
  | initiator u => cases u <;> simp_all [speaks, mayPull, Initiator.isLow]
  | follower u => exact h2
  | _ => rfl

theorem State.mayPull_cases {s : State} (h : s.mayPull = true) :
    s.speaks = true ∨ s = .follower .ackLow ∨ s = .follower .ackVerify := by
  cases s with
  | initiator u => cases u <;> simp_all [speaks, mayPull, Initiator.isLow]
  | follower u => cases u <;> simp_all [mayPull, Follower.answers]
  | _ => simp [mayPull] at h

namespace Node

variable {n : Node} {fall now : Nat} {e : Option Edge}

theorem not_speaks_hear_rising (h : n.Sound) (hw : n.timer.waitsFor .rising = true) (now : Nat) :
    (n.hear now).engine.state.speaks = false ∧ n.engine.state.speaks = false := by
  constructor
  · rcases h.state_hear_rising hw now with hq | ⟨s, hq, -⟩
    · rw [hq, Engine.not_speaks_quit]
    · rw [hq]; rfl
  · rcases h.waits_rising hw with hs | ⟨f, hs⟩ <;> rw [hs] <;> rfl

/-- Without a falling edge a node keeps its place. -/
theorem Placed.after_calm (h : n.Placed fall now) (he : e ≠ some .falling) :
    (n.after e now).Placed fall now ∧ (n.after e now).engine.state.speaks = n.engine.state.speaks ∧
      ((n.after e now).timer.waitsFor .rising = true → e = none ∧ n.timer.waitsFor .rising = true) := by
  rcases n.after_cases now he with hsame | ⟨he, hw, hsame⟩
  · rw [hsame]
    refine ⟨h, rfl, fun hw => ⟨?_, hw⟩⟩
    cases e with
    | none => rfl
    | some e =>
      cases e with
      | falling => exact absurd rfl he
      | rising =>
        have := (h.sound.hear_rising hw now).2
        rw [after_of_waitsFor hw] at hsame
        rw [hsame, hw] at this
        cases this
  · rw [hsame]
    obtain ⟨h1, h2⟩ := not_speaks_hear_rising h.sound hw now
    refine ⟨h.hear_rising hw, h1.trans h2.symm, fun hr => ?_⟩
    rw [(h.sound.hear_rising hw now).2] at hr
    cases hr

/-- A falling edge that one node causes and all others see. -/
theorem Placed.after_falling (h : n.Placed fall now) (hr : ¬ n.timer.waitsFor .rising = true)
    (hs : n.engine.state.speaks = false) (ha : n.engine.state.answers = false) :
    (n.after (some .falling) now).Placed now now ∧
      (n.after (some .falling) now).engine.state.speaks = false := by
  by_cases hw : n.timer.waitsFor .falling = true
  · rw [after_of_waitsFor hw]
    exact h.hear_falling hw
  · rw [after_of_not_waitsFor hw]
    exact ⟨h.keep_falling hw hr hs ha, hs⟩

end Node

namespace Bus

variable {b c : Bus} {id t : Nat} {n m : Node}

structure Quiet (b : Bus) : Prop where
  noise : b.noise = false
  fell : b.lastFall ≤ b.now
  placed : ∀ n ∈ b.nodes, n.Placed b.lastFall b.now
  alone : ∀ (i j : Nat) n m, b.nodes[i]? = some n → b.nodes[j]? = some m → n.engine.state.speaks = true →
    m.engine.state.speaks = true → i = j
  /-- A low pulse that is being measured lasts. -/
  held : ∀ n ∈ b.nodes, n.timer.waitsFor .rising = true → b.level = .low

theorem Quiet.nodesSound (h : b.Quiet) : b.NodesSound := fun n hn => (h.placed n hn).sound

theorem Quiet.at (h : b.Quiet) (hb : b.now ≤ t) (ht : ∀ n ∈ b.nodes, ∀ u, n.timer.deadline? = some u → t ≤ u) :
    Quiet { b with now := t } where
  noise := h.noise
  fell := Nat.le_trans h.fell hb
  placed := fun n hn => (h.placed n hn).at hb (ht n hn)
  alone := h.alone
  held := h.held

theorem Acts.lastFall (h : Acts b id n m c) :
    c.lastFall = if b.level.edge? c.level = some .falling then b.now else b.lastFall := by
  unfold Bus.lastFall
  rw [h.falls]
  split <;> simp

theorem Acts.self (h : Acts b id n m c) : c.nodes[id]? = some m := by
  rw [h.nodes, if_pos rfl]

theorem Acts.other (h : Acts b id n m c) {j : Nat} (hj : j ≠ id) {k : Node} (hk : b.nodes[j]? = some k) :
    c.nodes[j]? = some (k.after (b.level.edge? c.level) b.now) := by
  rw [h.nodes, if_neg hj, hk]
  rfl

theorem Acts.cases (h : Acts b id n m c) {j : Nat} {k : Node} (hk : c.nodes[j]? = some k) :
    j = id ∧ k = m ∨
      j ≠ id ∧ ∃ k', b.nodes[j]? = some k' ∧ k = k'.after (b.level.edge? c.level) b.now := by
  rw [h.nodes] at hk
  by_cases hj : j = id
  · rw [if_pos hj] at hk
    cases hk
    exact .inl ⟨hj, rfl⟩
  · rw [if_neg hj] at hk
    obtain ⟨k', hk', rfl⟩ := Option.map_eq_some_iff.1 hk
    exact .inr ⟨hj, k', hk', rfl⟩

/-- Everybody is as it should be, if the node that acts is and all that the others learn keeps them so. -/
theorem Acts.forall_mem {P : Node → Prop} (h : Acts b id n m c) (hm : P m) (ho : ∀ (j : Nat) k, j ≠ id →
    b.nodes[j]? = some k → P (k.after (b.level.edge? c.level) b.now)) : ∀ k ∈ c.nodes, P k := by
  intro k hk
  obtain ⟨j, hj⟩ := List.mem_iff_getElem?.1 hk
  rcases h.cases hj with ⟨-, rfl⟩ | ⟨hne, k', hk', rfl⟩
  · exact hm
  · exact ho j k' hne hk'

theorem Acts.unchanged (h : Acts b id n m c) (he : b.level.edge? c.level = none) {j : Nat} (hj : j ≠ id) :
    c.nodes[j]? = b.nodes[j]? := by
  rw [h.nodes, if_neg hj, he]
  cases b.nodes[j]? <;> rfl

/-- A node that lets go of the line, or leaves it as it is, causes no falling edge. -/
theorem Acts.not_falling (h : Acts b id n m c) (hp : m.pulling = true → n.pulling = true) :
    b.level.edge? c.level ≠ some .falling := by
  intro he
  obtain ⟨hne, hc⟩ := Level.edge?_eq_some_iff.1 he
  refine hne (Eq.trans ?_ hc.symm)
  rw [Edge.level]
  refine level_eq_low_iff.2 ?_
  rcases h.level.1 hc with hq | hm | ⟨j, k, -, hk, hp'⟩
  · exact .inl hq
  · exact .inr ⟨n, List.mem_of_getElem? h.here, hp hm⟩
  · exact .inr ⟨k, List.mem_of_getElem? hk, hp'⟩

/-- A node that begins to pull a line that nobody else pulls causes a falling edge. -/
theorem Acts.falling (h : Acts b id n m c) (hb : b.level = .high) (hm : m.pulling = true) :
    b.level.edge? c.level = some .falling := by
  rw [hb, h.level.2 (.inr (.inl hm))]
  rfl

theorem Quiet.calm (h : b.Quiet) (ha : Acts b id n m c) (hm : m.Placed b.lastFall b.now)
    (hp : m.pulling = true → n.pulling = true)
    (hs : m.engine.state.speaks = true → n.engine.state.speaks = true)
    (hw : m.timer.waitsFor .rising = true → n.timer.waitsFor .rising = true) : c.Quiet := by
  have he := ha.not_falling hp
  have hfall : c.lastFall = b.lastFall := by rw [ha.lastFall, if_neg he]
  have speaks : ∀ (j : Nat) k, c.nodes[j]? = some k → k.engine.state.speaks = true →
      ∃ k', b.nodes[j]? = some k' ∧ k'.engine.state.speaks = true := by
    intro j k hk hsp
    rcases ha.cases hk with ⟨rfl, rfl⟩ | ⟨-, k', hk', rfl⟩
    · exact ⟨n, ha.here, hs hsp⟩
    · exact ⟨k', hk', ((h.placed k' (List.mem_of_getElem? hk')).after_calm he).2.1 ▸ hsp⟩
  refine ⟨ha.noise.trans h.noise, ?_, ?_, ?_, ?_⟩
  · rw [hfall, ha.now]
    exact h.fell
  · rw [hfall, ha.now]
    exact ha.forall_mem hm fun j k _ hk => ((h.placed k (List.mem_of_getElem? hk)).after_calm he).1
  · intro i j k l hk hl hks hls
    obtain ⟨k', hk', hks'⟩ := speaks i k hk hks
    obtain ⟨l', hl', hls'⟩ := speaks j l hl hls
    exact h.alone i j k' l' hk' hl' hks' hls'
  · refine ha.forall_mem (fun hr => ?_) fun j k _ hk hr => ?_
    · -- The node itself does not pull the line, somebody else does.
      have hn := hw hr
      have hnp := (h.placed n (List.mem_of_getElem? ha.here)).sound.not_pulling_of_waitsFor hn
      rcases level_eq_low_iff.1 (h.held n (List.mem_of_getElem? ha.here) hn) with hq | ⟨p, hp', hpull⟩
      · exact ha.level.2 (.inl hq)
      · obtain ⟨i, hi⟩ := List.mem_iff_getElem?.1 hp'
        refine ha.level.2 (.inr (.inr ⟨i, p, ?_, hi, hpull⟩))
        rintro rfl
        rw [ha.here] at hi
        cases hi
        rw [hnp] at hpull
        cases hpull
    · obtain ⟨hnone, hr'⟩ := ((h.placed k (List.mem_of_getElem? hk)).after_calm he).2.2 hr
      exact (Level.edge?_eq_none_iff.1 hnone).symm.trans (h.held k (List.mem_of_getElem? hk) hr')

theorem Quiet.fall (h : b.Quiet) (ha : Acts b id n m c) (hm : m.Placed b.now b.now) (hb : b.level = .high)
    (hp : m.pulling = true) (ho : ∀ (j : Nat) k, j ≠ id → b.nodes[j]? = some k →
      k.engine.state.speaks = false ∧ k.engine.state.answers = false) : c.Quiet := by
  have he := ha.falling hb hp
  have hfall : c.lastFall = b.now := by rw [ha.lastFall, if_pos he]
  have hlow : c.level = .low := ha.level.2 (.inr (.inl hp))
  have others : ∀ (j : Nat) k, j ≠ id → b.nodes[j]? = some k →
      (k.after (some .falling) b.now).Placed b.now b.now ∧
        (k.after (some .falling) b.now).engine.state.speaks = false := by
    intro j k hj hk
    obtain ⟨h1, h2⟩ := ho j k hj hk
    refine (h.placed k (List.mem_of_getElem? hk)).after_falling (fun hr => ?_) h1 h2
    rw [h.held k (List.mem_of_getElem? hk) hr] at hb
    cases hb
  refine ⟨ha.noise.trans h.noise, ?_, ?_, ?_, fun _ _ _ => hlow⟩
  · exact Nat.le_of_eq (hfall.trans ha.now.symm)
  · rw [hfall, ha.now]
    refine ha.forall_mem hm fun j k hj hk => ?_
    rw [he]
    exact (others j k hj hk).1
  · have only : ∀ (j : Nat) k, c.nodes[j]? = some k → k.engine.state.speaks = true → j = id := by
      intro j k hk hsp
      rcases ha.cases hk with ⟨hj, -⟩ | ⟨hne, k', hk', rfl⟩
      · exact hj
      · rw [he, (others j k' hne hk').2] at hsp
        cases hsp
    intro i j k l hk hl hks hls
    exact (only i k hk hks).trans (only j l hl hls).symm

structure Turn (b : Bus) (t id : Nat) (n : Node) (c : Bus) : Prop where
  later : b.now ≤ t
  due : n.timer.deadline? = some t
  first : ∀ k ∈ b.nodes, ∀ u, k.timer.deadline? = some u → t ≤ u
  acts : Acts { b with now := t } id n (n.expire b.level t) c
  before : Quiet { b with now := t }
  expired : Node.Expired n (n.expire b.level t) b.lastFall t
  /-- Who begins to pull the line is heard by all others. -/
  falling : (n.expire b.level t).engine.state.drives = true → b.level.edge? c.level = some .falling ∧
    ∀ (j : Nat) k, j ≠ id → b.nodes[j]? = some k →
      k.engine.state.speaks = false ∧ k.engine.state.answers = false
  calm : (n.expire b.level t).engine.state.drives = false → b.level.edge? c.level ≠ some .falling

theorem Quiet.turn (h : b.Quiet) (he : Expires b t id n c) : Turn b t id n c := by
  have hn := List.mem_of_getElem? he.acts.here
  have hlater := (h.placed n hn).onTime t he.due
  have hb := h.at hlater he.first
  have hx : Node.Expired n (n.expire b.level t) b.lastFall t :=
    (hb.placed n hn).expire he.due hb.fell b.level
  refine ⟨hlater, he.due, he.first, he.acts, hb, hx, fun hd => ?_, fun hd => ?_⟩
  · obtain ⟨hlate, hpull, hsp⟩ := hx.drives hd
    have others : ∀ (j : Nat) k, j ≠ id → b.nodes[j]? = some k →
        k.engine.state.speaks = false ∧ k.engine.state.answers = false := by
      intro j k hj hk
      have hplaced : k.Placed b.lastFall t := hb.placed k (List.mem_of_getElem? hk)
      constructor
      · refine Bool.eq_false_iff.2 fun hks => ?_
        rcases hsp with hns | hns
        · exact hj (h.alone j id k n hk he.acts.here hks hns)
        · obtain ⟨u, hu, hle, -⟩ := hplaced.speaks_deadline hks
          have := he.first k (List.mem_of_getElem? hk) u hu
          have hfree : b.lastFall + 4800 ≤ t := (hb.placed n hn).freeTime_deadline hns he.due
          omega
      · refine Bool.eq_false_iff.2 fun hka => ?_
        obtain ⟨u, hu, hle⟩ := hplaced.answers_deadline hka
        have := he.first k (List.mem_of_getElem? hk) u hu
        omega
    refine ⟨he.acts.falling ?_ ?_, others⟩
    · refine level_eq_high_iff.2 ⟨h.noise, fun k hk => ?_⟩
      obtain ⟨j, hj⟩ := List.mem_iff_getElem?.1 hk
      by_cases hji : j = id
      · subst hji
        rw [show (n : Node) = k by simpa [hj] using he.acts.here.symm] at hpull
        exact (h.placed k hk).sound.not_pulling_of_state hpull
      · obtain ⟨h1, h2⟩ := others j k hji hj
        exact (h.placed k hk).sound.not_pulling_of_state (State.not_mayPull h1 h2)
    · obtain ⟨u, hu, hl⟩ := State.drives_iff.1 hd
      exact hx.placed.sound.pulls u hu hl
  · exact he.acts.not_falling fun hp => hx.pulls hp hd

theorem Turn.lastFall_of_drives (hx : Turn b t id n c) (hd : (n.expire b.level t).engine.state.drives = true) :
    c.lastFall = t := by
  rw [hx.acts.lastFall]
  exact if_pos (hx.falling hd).1

theorem Turn.lastFall_of_calm (hx : Turn b t id n c) (hd : (n.expire b.level t).engine.state.drives = false) :
    c.lastFall = b.lastFall := by
  rw [hx.acts.lastFall]
  exact if_neg (hx.calm hd)

theorem Turn.lastFall_le (hx : Turn b t id n c) : b.lastFall ≤ c.lastFall := by
  rw [hx.acts.lastFall]
  split
  · exact hx.before.fell
  · exact Nat.le_refl _

theorem Quiet.expire (h : b.Quiet) (he : Expires b t id n c) : c.Quiet := by
  have hx := h.turn he
  have hp := hx.expired.placed
  cases hd : (n.expire b.level t).engine.state.drives with
  | true =>
    obtain ⟨hedge, others⟩ := hx.falling hd
    rw [if_pos hd] at hp
    obtain ⟨u, hu, hl⟩ := State.drives_iff.1 hd
    have hb : b.level = .high := by
      cases hb : b.level with
      | high => rfl
      | low => rw [hb] at hedge; cases hc : c.level <;> rw [hc] at hedge <;> cases hedge
    exact hx.before.fall hx.acts hp hb (hp.sound.pulls u hu hl) others
  | false =>
    rw [hd] at hp
    refine hx.before.calm hx.acts hp (fun h => hx.expired.pulls h hd) (fun h => hx.expired.speaks h hd) ?_
    rw [hx.expired.waits]
    simp

theorem Quiet.setEnabled {on : Bool} (h : b.Quiet) (ha : Acts b id n (n.absorb (n.engine.setEnabled on) b.now) c) :
    c.Quiet := by
  have hn := h.placed n (List.mem_of_getElem? ha.here)
  have hm := hn.sound.setEnabled on b.now
  have hx := hn.sound.switched on b.now
  generalize n.absorb (n.engine.setEnabled on) b.now = m at hx ha hm
  cases hx with
  | same => exact h.calm ha hn (fun h => h) (fun h => h) fun h => h
  | on _ _ hq =>
    refine h.calm ha (.of_start hm rfl ?_) ?_ ?_ ?_
    · simp only [Node.Anchored, hq]
    · simp
    · simp [hq, State.speaks]
    · simp [EdgeTimer.waitsFor, EdgeTimer.arm, Wait.onEdge]
  | off =>
    refine h.calm ha ⟨hm, hn.begun, ?_, ?_⟩ ?_ ?_ ?_
    · simp [EdgeTimer.deadline?, EdgeTimer.stop]
    · simp only [Node.Anchored]
    · simp
    · simp [State.speaks]
    · simp [EdgeTimer.waitsFor, EdgeTimer.stop]

theorem Quiet.send {msg : Message} {r : Reaction} (h : b.Quiet) (hr : n.engine.send msg = .ok r)
    (ha : Acts b id n (n.absorb r b.now) c) : c.Quiet := by
  have hn := h.placed n (List.mem_of_getElem? ha.here)
  have hm := hn.sound.send hr b.now
  by_cases hs : n.engine.state = .idle
  · rw [Node.absorb_send_of_idle hr hs] at ha hm
    refine h.calm ha (.of_start hm rfl ?_) ?_ ?_ ?_
    · simp only [Node.Anchored]
      exact h.fell
    · simp
    · simp [State.speaks]
    · simp [EdgeTimer.waitsFor, EdgeTimer.arm, Wait.within]
  · rw [Node.absorb_send_of_ne_idle hr hs] at ha hm
    obtain ⟨-, -, hp, -⟩ := Engine.send_eq_ok_iff.1 hr
    refine h.calm ha ⟨hm, hn.begun, hn.onTime, ?_⟩ (fun h => h) ?_ fun h => h
    · refine hn.anchored.congr (n.engine.load_state msg) (n.engine.load_rx msg) rfl fun s hst => ?_
      exact absurd (hn.sound.fit.busy s hst).1 (by simp [hp])
    · rw [Engine.load_state]
      exact fun h => h

theorem Quiet.setAddress {a : LogicalAddress} (h : b.Quiet) (hn : b.nodes[id]? = some n)
    (ha : Alters b id { n with engine := { n.engine with address := a } } c) : c.Quiet := by
  have hp := h.placed n (List.mem_of_getElem? hn)
  exact h.calm (ha.acts hn rfl) ⟨hp.sound.setAddress a, hp.begun, hp.onTime, hp.anchored⟩ (fun h => h)
    (fun h => h) fun h => h

def Step.Clean : Step → Prop
  | .glitch _ => False
  | _ => True

theorem preserved_quiet : Preserved Step.Clean fun _ b => b.Quiet where
  sound := Quiet.nodesSound
  expire := Quiet.expire
  pass := fun h hb ht => h.at hb fun n hn u hu => Nat.le_of_lt (ht n hn u hu)
  send := fun _ h hr ha => h.send hr ha
  setEnabled := fun _ h ha => h.setEnabled ha
  setAddress := fun _ _ h hn ha => h.setAddress hn ha
  noise := fun _ ha => ha.elim

theorem Starts.quiet {as : List LogicalAddress} (h : Starts as b) : b.Quiet := by
  have hf : b.lastFall = 0 := by simp [lastFall, h.falls]
  have hn : ∀ n ∈ b.nodes, ∃ a, n = fresh a := by
    intro n hn
    rw [h.nodes, List.mem_map] at hn
    obtain ⟨a, -, rfl⟩ := hn
    exact ⟨a, rfl⟩
  refine ⟨h.noise, by omega, ?_, ?_, ?_⟩
  · intro n hmem
    obtain ⟨a, rfl⟩ := hn n hmem
    refine ⟨sound_fresh a, Nat.zero_le _, ?_, trivial⟩
    rw [(sound_fresh a).deadline?_of_idle rfl]
    simp
  · intro i j n m hi hj hs
    obtain ⟨a, rfl⟩ := hn n (List.mem_of_getElem? hi)
    cases hs
  · intro n hmem hw
    obtain ⟨a, rfl⟩ := hn n hmem
    cases hw

/-- At most one node speaks at any time, and who holds the line low is that node or answers it. -/
theorem speaker_unique {as : List LogicalAddress} {past : List (Step × Reply)} (h : Reaches Step.Clean as past b) :
    (∀ (i j : Nat) n m, b.nodes[i]? = some n → b.nodes[j]? = some m → n.engine.state.speaks = true →
      m.engine.state.speaks = true → i = j) ∧
    (b.level = .low → ∃ (i : Nat) (n : Node), b.nodes[i]? = some n ∧ n.pulling = true ∧
      (n.engine.state.speaks = true ∨ n.engine.state = .follower .ackLow ∨
        n.engine.state = .follower .ackVerify)) := by
  have hq : b.Quiet := preserved_quiet.reaches (fun hb => (starts_of_ofAddresses hb).quiet) h
  refine ⟨hq.alone, fun hl => ?_⟩
  rcases level_eq_low_iff.1 hl with hn | ⟨n, hn, hp⟩
  · rw [hq.noise] at hn
    cases hn
  · obtain ⟨i, hi⟩ := List.mem_iff_getElem?.1 hn
    exact ⟨i, n, hi, hp, State.mayPull_cases ((hq.placed n hn).sound.free hp)⟩

theorem speaker_unique_first_bit : ∃ b, Reaches Step.Clean [⟨0⟩, ⟨4⟩] [(.send 0 [4], .ok)] b ∧
    b.level = .low ∧ ∃ (i : Nat) (n : Node), b.nodes[i]? = some n ∧ n.pulling = true ∧
      (n.engine.state.speaks = true ∨ n.engine.state = .follower .ackLow ∨
        n.engine.state = .follower .ackVerify) := by
  obtain ⟨a, ha⟩ := (@ofAddresses_eq_ok_iff [⟨0⟩, ⟨4⟩]).2 (by decide)
  have run : ((ofAddresses [⟨0⟩, ⟨4⟩]).toOption.any fun a => (a.perform? 1 (.send 0 [4])).any fun p =>
      p.2 = .ok && (p.1.step? none).any fun b => b.level = .low) = true := by decide +kernel
  rw [ha] at run
  simp only [Except.toOption, Option.any_some] at run
  obtain ⟨⟨c, r⟩, hc, hr⟩ := (Option.any_eq_true _ _).1 run
  rw [Bool.and_eq_true, decide_eq_true_eq] at hr
  obtain ⟨rfl, hr⟩ := hr
  obtain ⟨b, hb, hl⟩ := (Option.any_eq_true _ _).1 hr
  have hreach : Reaches Step.Clean [⟨0⟩, ⟨4⟩] [(.send 0 [4], .ok)] b :=
    .deadline (.perform (.start ha) trivial hc) hb
  exact ⟨b, hreach, by simpa using hl, (speaker_unique hreach).2 (by simpa using hl)⟩

end Bus
end HdmiCec
