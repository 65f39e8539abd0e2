import HdmiCec.Proofs.Bus.Node

/-! What one node does to the line reaches the others at once. Nodes that are told of an edge never
change the level again, so that an edge reaches each of them exactly once (`nodes_cause`). -/
namespace HdmiCec

def Edge.level : Edge → Level
  | rising => .high
  | falling => .low

theorem Level.edge?_self (l : Level) : l.edge? l = none := by cases l <;> rfl

theorem Level.edge?_eq_some_iff {l m : Level} {e : Edge} : l.edge? m = some e ↔ l ≠ m ∧ m = e.level := by
  cases l <;> cases m <;> cases e <;> simp [Level.edge?, Edge.level]

theorem Level.edge?_eq_none_iff {l m : Level} : l.edge? m = none ↔ l = m := by
  cases l <;> cases m <;> simp [Level.edge?]

def Node.after (n : Node) (e : Option Edge) (now : Nat) : Node :=
  if e.any n.timer.waitsFor then n.hear now else n

theorem Node.after_none (n : Node) (now : Nat) : n.after none now = n := rfl

theorem Node.after_of_waitsFor {n : Node} {e : Edge} (h : n.timer.waitsFor e = true) (now : Nat) :
    n.after (some e) now = n.hear now := by simp [after, h]

theorem Node.after_of_not_waitsFor {n : Node} {e : Edge} (h : ¬ n.timer.waitsFor e = true) (now : Nat) :
    n.after (some e) now = n := by simp [after, h]

/-- Without a falling edge only those are concerned who measure a low pulse. -/
theorem Node.after_cases {e : Option Edge} (n : Node) (now : Nat) (he : e ≠ some .falling) : n.after e now = n ∨
    e = some .rising ∧ n.timer.waitsFor .rising = true ∧ n.after e now = n.hear now := by
  cases e with
  | none => exact .inl rfl
  | some e =>
    cases e with
    | falling => exact absurd rfl he
    | rising =>
      by_cases hw : n.timer.waitsFor .rising = true
      · exact .inr ⟨rfl, hw, after_of_waitsFor hw now⟩
      · exact .inl (after_of_not_waitsFor hw now)

theorem Node.Sound.waits_rising {n : Node} (h : n.Sound) (hw : n.timer.waitsFor .rising = true) :
    n.engine.state = .follower .startLow ∨ ∃ f, n.engine.state = .follower (.low f) := by
  cases hs : n.engine.state with
  | disabled => simp [h.waitsFor_of_disabled hs] at hw
  | idle => simp [h.waitsFor_of_idle hs] at hw
  | initiator s =>
    rw [h.waitsFor_of_initiator hs] at hw
    cases s with
    | high f => cases f <;> simp [Initiator.edge?] at hw
    | _ => simp [Initiator.edge?] at hw
  | follower s =>
    rw [h.waitsFor_of_follower hs] at hw
    cases s with
    | startLow => exact .inl rfl
    | low f => exact .inr ⟨f, rfl⟩
    | ackFinish =>
      simp only [Follower.edge?] at hw
      split at hw <;> simp at hw
    | _ => simp [Follower.edge?] at hw

/-- What a rising edge makes of a node that watches for one. -/
theorem Node.Sound.state_hear_rising {n : Node} (h : n.Sound) (hw : n.timer.waitsFor .rising = true) (now : Nat) :
    (n.hear now).engine = n.engine.quit ∨ ∃ s, (n.hear now).engine.state = .follower s ∧
      (s = .startHigh ∨ s = .debounce ∨ ∃ f, s = .high f) := by
  rcases h.waits_rising hw with hs | ⟨f, hs⟩
  · by_cases ht : Symbol.start.ValidLow (n.timer.elapsed now)
    · exact .inr ⟨.startHigh, by rw [Node.engine_hear, Engine.onCapture_startLow_valid hs ht], .inl rfl⟩
    · rcases Engine.onCapture_startLow_invalid hs ht with hq | hq
      · exact .inl ((n.engine_hear now).trans hq)
      · exact .inr ⟨.debounce, by rw [Node.engine_hear, hq], .inr (.inl rfl)⟩
  · cases ht : bitOfLow? (n.timer.elapsed now) with
    | some v => exact .inr ⟨.high f, by rw [Node.engine_hear, Engine.onCapture_low hs ht], .inr (.inr ⟨f, rfl⟩)⟩
    | none => exact .inl ((n.engine_hear now).trans (Engine.onCapture_low_invalid hs ht))

/-- A rising edge makes no node pull the line, speak or watch for another one. -/
theorem Node.Sound.hear_rising {n : Node} (h : n.Sound) (hw : n.timer.waitsFor .rising = true) (now : Nat) :
    (n.hear now).engine.state.mayPull = false ∧ (n.hear now).timer.waitsFor .rising = false := by
  have hs := (h.hear hw now).1
  rcases h.state_hear_rising hw now with hq | ⟨s, hq, hc⟩
  · rcases n.engine.quit_state with ⟨hi, -⟩ | ⟨hi, -⟩
    · refine ⟨by rw [hq, hi]; rfl, Bool.eq_false_iff.2 fun hr => ?_⟩
      rcases hs.waits_rising hr with hr | ⟨f, hr⟩ <;> rw [hq, hi] at hr <;> cases hr
    · refine ⟨by rw [hq, hi]; rfl, Bool.eq_false_iff.2 fun hr => ?_⟩
      rcases hs.waits_rising hr with hr | ⟨f, hr⟩ <;> rw [hq, hi] at hr <;> cases hr
  · refine ⟨?_, Bool.eq_false_iff.2 fun hr => ?_⟩
    · rcases hc with rfl | rfl | ⟨f, rfl⟩ <;> rw [hq] <;> rfl
    · rcases hs.waits_rising hr with hr | ⟨f, hr⟩ <;> rcases hc with rfl | rfl | ⟨g, rfl⟩ <;>
        rw [hq] at hr <;> cases hr

theorem Node.Sound.not_pulling_hear_rising {n : Node} (h : n.Sound) (hw : n.timer.waitsFor .rising = true)
    (now : Nat) : (n.hear now).pulling = false :=
  (h.hear hw now).1.not_pulling_of_state (h.hear_rising hw now).1

theorem Node.address_after (n : Node) (e : Option Edge) (now : Nat) :
    (n.after e now).engine.address = n.engine.address := by
  unfold Node.after
  split
  · rw [Node.engine_hear, Engine.address_onCapture]
  · rfl

theorem Node.Sound.completions_after {n : Node} (h : n.Sound) (e : Option Edge) (now : Nat) :
    (n.after e now).completions.toList = n.completions.toList := by
  cases e with
  | none => rfl
  | some e =>
    by_cases hw : n.timer.waitsFor e = true
    · have hs : n.engine.state ≠ .follower .ackLow := by
        intro hs
        have := (h.waitsFor_of_follower hs).1 hw
        simp [Follower.edge?] at this
      rw [Node.after_of_waitsFor hw, Node.hear, Node.completions_absorb, Engine.outcome_onCapture hs]
      simp
    · rw [Node.after_of_not_waitsFor hw]

namespace Bus

def NodesSound (b : Bus) : Prop := ∀ n ∈ b.nodes, n.Sound

theorem level_eq_low_iff {b : Bus} : b.level = .low ↔ b.noise = true ∨ ∃ n ∈ b.nodes, n.pulling = true := by
  simp only [level, Level.ofPulls, ite_eq_left_iff, Bool.not_eq_true, Bool.or_eq_false_iff]
  cases b.noise <;> simp

theorem level_eq_high_iff {b : Bus} : b.level = .high ↔ b.noise = false ∧ ∀ n ∈ b.nodes, n.pulling = false := by
  simp only [level, Level.ofPulls]
  cases b.noise <;> simp

theorem level_ne_low {b : Bus} : b.level ≠ .low ↔ b.level = .high := by cases b.level <;> simp

theorem react_of_getElem? {b : Bus} {id : Nat} {n : Node} (h : b.nodes[id]? = some n)
    (f : Node → Node × Reaction) : b.react id f =
      { b with nodes := b.nodes.set id ((f n).1.absorb (f n).2 b.now), notices := b.notices ++ (f n).2.notices } := by
  simp [react, h]

section hear

variable {b : Bus} {id : Nat} {n : Node} {e : Edge}

theorem nodes_hear (h : b.nodes[id]? = some n) : (b.hear id).nodes = b.nodes.set id (n.hear b.now) := by
  rw [Bus.hear, react_of_getElem? h]
  rfl

theorem keep_hear (b : Bus) (id : Nat) : (b.hear id).now = b.now ∧ (b.hear id).noise = b.noise ∧
    (b.hear id).fallingEdges = b.fallingEdges := by
  unfold Bus.hear react
  split <;> exact ⟨rfl, rfl, rfl⟩

theorem level_hear (h : b.nodes[id]? = some n) (hn : n.Sound) (hw : n.timer.waitsFor e = true)
    (hl : b.level = e.level) : (b.hear id).level = e.level := by
  obtain ⟨-, hnoise, -⟩ := b.keep_hear id
  cases e with
  | rising =>
    obtain ⟨hq, hp⟩ := level_eq_high_iff.1 hl
    refine level_eq_high_iff.2 ⟨hnoise.trans hq, ?_⟩
    intro m hm
    rw [nodes_hear h] at hm
    rcases List.mem_or_eq_of_mem_set hm with hm | rfl
    · exact hp m hm
    · exact hn.not_pulling_hear_rising hw b.now
  | falling =>
    refine level_eq_low_iff.2 ?_
    rcases level_eq_low_iff.1 hl with hq | ⟨m, hm, hp⟩
    · exact .inl (hnoise.trans hq)
    · obtain ⟨j, hj⟩ := List.mem_iff_getElem?.1 hm
      have hne : id ≠ j := by
        rintro rfl
        rw [h] at hj
        cases hj
        exact absurd (hp.symm.trans (hn.not_pulling_of_waitsFor hw)) (by decide)
      refine .inr ⟨m, List.mem_iff_getElem?.2 ⟨j, ?_⟩, hp⟩
      rw [nodes_hear h, List.getElem?_set_ne hne]
      exact hj

end hear

theorem spread_same (depth : Nat) (b : Bus) (causer : Nat) : spread depth b causer b.level = b := by
  cases depth with
  | zero => rfl
  | succ depth => simp only [spread, Level.edge?_self]

theorem foldl_hear {e : Edge} (depth : Nat) (ids : List Nat) (hd : ids.Nodup) (b : Bus)
    (hl : b.level = e.level)
    (hw : ∀ id ∈ ids, ∃ n, b.nodes[id]? = some n ∧ n.Sound ∧ n.timer.waitsFor e = true) :
    let c := ids.foldl (fun b id => spread depth (b.hear id) id b.level) b
    (∀ j : Nat, c.nodes[j]? = if j ∈ ids then b.nodes[j]?.map (·.hear b.now) else b.nodes[j]?) ∧
      c.now = b.now ∧ c.noise = b.noise ∧ c.fallingEdges = b.fallingEdges ∧ c.level = b.level := by
  induction ids generalizing b with
  | nil => simp
  | cons id ids ih =>
    obtain ⟨n, hn, hs, hwait⟩ := hw id (by simp)
    obtain ⟨hnot, hd⟩ := List.nodup_cons.1 hd
    have hl' := level_hear hn hs hwait hl
    have hone : spread depth (b.hear id) id b.level = b.hear id := by
      rw [hl, ← hl', spread_same]
    obtain ⟨hnow, hnoise, hfall⟩ := b.keep_hear id
    have hw' : ∀ j ∈ ids, ∃ m, (b.hear id).nodes[j]? = some m ∧ m.Sound ∧ m.timer.waitsFor e = true := by
      intro j hj
      have hne : id ≠ j := by
        rintro rfl
        exact hnot hj
      obtain ⟨m, hm, h⟩ := hw j (by simp [hj])
      exact ⟨m, by rw [nodes_hear hn, List.getElem?_set_ne hne, hm], h⟩
    obtain ⟨hnodes, h1, h2, h3, h4⟩ := ih hd (b.hear id) hl' hw'
    simp only [List.foldl_cons, hone]
    refine ⟨fun j => ?_, h1.trans hnow, h2.trans hnoise, h3.trans hfall, h4.trans (hl'.trans hl.symm)⟩
    rw [hnodes j, hnow, nodes_hear hn]
    by_cases hj : j = id
    · subst hj
      have hlt : j < b.nodes.length := (List.getElem?_eq_some_iff.1 hn).1
      rw [if_neg hnot, if_pos (by simp), List.getElem?_set_self hlt, hn]
      rfl
    · rw [List.getElem?_set_ne (Ne.symm hj)]
      simp [hj]

theorem mem_waiting {b : Bus} {e : Edge} {causer id : Nat} :
    id ∈ b.waiting e causer ↔ id ≠ causer ∧ ∃ n, b.nodes[id]? = some n ∧ n.timer.waitsFor e = true := by
  simp only [waiting, List.mem_filter, List.mem_range, Bool.and_eq_true, bne_iff_ne, Option.any_eq_true]
  constructor
  · rintro ⟨-, h⟩
    exact h
  · rintro ⟨hc, n, hn, hw⟩
    exact ⟨(List.getElem?_eq_some_iff.1 hn).1, hc, n, hn, hw⟩

theorem nodup_waiting (b : Bus) (e : Edge) (causer : Nat) : (b.waiting e causer).Nodup :=
  List.nodup_range.filter _

theorem keep_noteEdge (b : Bus) (e : Edge) : (b.noteEdge e).nodes = b.nodes ∧ (b.noteEdge e).now = b.now ∧
    (b.noteEdge e).noise = b.noise ∧ (b.noteEdge e).level = b.level := by
  unfold noteEdge
  split <;> exact ⟨rfl, rfl, rfl, rfl⟩

/-- All nodes but the one that caused it learn of a change of level, once each. -/
theorem spread_spec (depth : Nat) (c : Bus) (causer : Nat) (before : Level) (hs : c.NodesSound) :
    let d := spread (depth + 1) c causer before
    (∀ j : Nat, d.nodes[j]? = c.nodes[j]?.map fun n =>
        if j = causer then n else n.after (before.edge? c.level) c.now) ∧
      d.now = c.now ∧ d.noise = c.noise ∧
      (d.fallingEdges = if before.edge? c.level = some .falling then c.fallingEdges.push c.now
        else c.fallingEdges) ∧ d.level = c.level := by
  cases he : before.edge? c.level with
  | none =>
    simp only [spread, he, reduceCtorEq, if_false, and_self, and_true]
    intro j
    cases c.nodes[j]? <;> simp [Node.after_none]
  | some e =>
    obtain ⟨hnodes, hnow, hnoise, hlevel⟩ := c.keep_noteEdge e
    have hw : ∀ id ∈ (c.noteEdge e).waiting e causer,
        ∃ n, (c.noteEdge e).nodes[id]? = some n ∧ n.Sound ∧ n.timer.waitsFor e = true := by
      intro id hid
      obtain ⟨-, n, hn, hw⟩ := mem_waiting.1 hid
      exact ⟨n, hn, hs n (hnodes ▸ List.mem_of_getElem? hn), hw⟩
    have hl : (c.noteEdge e).level = e.level := hlevel.trans (Level.edge?_eq_some_iff.1 he).2
    obtain ⟨h1, h2, h3, h4, h5⟩ := foldl_hear depth _ (nodup_waiting _ e causer) _ hl hw
    simp only [spread, he]
    refine ⟨fun j => ?_, h2.trans hnow, h3.trans hnoise, h4.trans ?_, h5.trans hlevel⟩
    · rw [h1 j, hnodes, hnow]
      cases hj : c.nodes[j]? with
      | none => simp
      | some n =>
        by_cases hc : j = causer
        · subst hc
          have : j ∉ (c.noteEdge e).waiting e j := fun h => (mem_waiting.1 h).1 rfl
          simp [this]
        · by_cases hwait : n.timer.waitsFor e = true
          · have : j ∈ (c.noteEdge e).waiting e causer := mem_waiting.2 ⟨hc, n, by rw [hnodes, hj], hwait⟩
            simp [this, hc, Node.after_of_waitsFor hwait]
          · have : j ∉ (c.noteEdge e).waiting e causer := by
              intro h
              obtain ⟨-, m, hm, hmw⟩ := mem_waiting.1 h
              rw [hnodes, hj] at hm
              cases hm
              exact hwait hmw
            simp [this, hc, Node.after_of_not_waitsFor hwait]
    · cases e <;> simp [noteEdge]

/-- Node `n` at `id` turns into `m`, and all others learn at once what that does to the line. -/
structure Acts (b : Bus) (id : Nat) (n m : Node) (c : Bus) : Prop where
  here : b.nodes[id]? = some n
  nodes : ∀ j : Nat, c.nodes[j]? =
    if j = id then some m else b.nodes[j]?.map (·.after (b.level.edge? c.level) b.now)
  now : c.now = b.now
  noise : c.noise = b.noise
  falls : c.fallingEdges =
    if b.level.edge? c.level = some .falling then b.fallingEdges.push b.now else b.fallingEdges
  level : c.level = .low ↔
    b.noise = true ∨ m.pulling = true ∨ ∃ j k, j ≠ id ∧ b.nodes[j]? = some k ∧ k.pulling = true

/-- Where nobody else holds the line, a node that does not pull it lets go of it. -/
theorem Acts.level_high {b c : Bus} {id : Nat} {n m : Node} (h : Acts b id n m c) (hq : b.noise = false)
    (hm : m.pulling = false) (ho : ∀ (j : Nat) k, j ≠ id → b.nodes[j]? = some k → k.pulling = false) :
    c.level = .high := by
  refine level_ne_low.1 fun hc => ?_
  rcases h.level.1 hc with hq' | hp | ⟨j, k, hj, hk, hp⟩
  · rw [hq] at hq'
    cases hq'
  · rw [hm] at hp
    cases hp
  · rw [ho j k hj hk] at hp
    cases hp

theorem level_set {b c : Bus} {id : Nat} {n m : Node} (hn : b.nodes[id]? = some n)
    (hc : c.nodes = b.nodes.set id m) (hq : c.noise = b.noise) : c.level = .low ↔
      b.noise = true ∨ m.pulling = true ∨ ∃ j k, j ≠ id ∧ b.nodes[j]? = some k ∧ k.pulling = true := by
  have hlt : id < b.nodes.length := (List.getElem?_eq_some_iff.1 hn).1
  rw [level_eq_low_iff, hq, hc]
  constructor
  · rintro (h | ⟨k, hk, hp⟩)
    · exact .inl h
    · obtain ⟨j, hj⟩ := List.mem_iff_getElem?.1 hk
      by_cases hji : j = id
      · subst hji
        rw [List.getElem?_set_self hlt] at hj
        cases hj
        exact .inr (.inl hp)
      · rw [List.getElem?_set_ne (Ne.symm hji)] at hj
        exact .inr (.inr ⟨j, k, hji, hj, hp⟩)
  · rintro (h | hp | ⟨j, k, hji, hj, hp⟩)
    · exact .inl h
    · exact .inr ⟨m, List.mem_set hlt m, hp⟩
    · refine .inr ⟨k, List.mem_iff_getElem?.2 ⟨j, ?_⟩, hp⟩
      rw [List.getElem?_set_ne (Ne.symm hji)]
      exact hj

theorem level_self {b : Bus} {id : Nat} {n : Node} (hn : b.nodes[id]? = some n) : b.level = .low ↔
    b.noise = true ∨ n.pulling = true ∨ ∃ j k, j ≠ id ∧ b.nodes[j]? = some k ∧ k.pulling = true := by
  refine level_set hn ?_ rfl
  obtain ⟨hlt, rfl⟩ := List.getElem?_eq_some_iff.1 hn
  exact (List.set_getElem_self hlt).symm

theorem edge?_level_eq_none {b c : Bus} (h : b.level = .low ↔ c.level = .low) : b.level.edge? c.level = none := by
  rw [Level.edge?_eq_none_iff]
  cases hb : b.level <;> cases hc : c.level <;> simp_all

theorem Acts.edge_none {b c : Bus} {id : Nat} {n m : Node} (h : Acts b id n m c) (hp : m.pulling = n.pulling) :
    b.level.edge? c.level = none := by
  refine edge?_level_eq_none ?_
  rw [h.level, level_self h.here, hp]

/-- Whatever a node does within one call, the bus follows as `Acts` says. -/
theorem acts_cause {b : Bus} {id : Nat} {n : Node} {f : Node → Node × Reaction} (hs : b.NodesSound)
    (hn : b.nodes[id]? = some n) (hm : ((f n).1.absorb (f n).2 b.now).Sound) :
    Acts b id n ((f n).1.absorb (f n).2 b.now) (b.cause id (·.react id f)) := by
  have hlt : id < b.nodes.length := (List.getElem?_eq_some_iff.1 hn).1
  have hr := react_of_getElem? hn f
  have hs' : (b.react id f).NodesSound := by
    intro k hk
    rw [hr] at hk
    rcases List.mem_or_eq_of_mem_set hk with hk | rfl
    · exact hs k hk
    · exact hm
  obtain ⟨h1, h2, h3, h4, h5⟩ := spread_spec b.nodes.length (b.react id f) id b.level hs'
  have hlevel : (b.cause id (·.react id f)).level = (b.react id f).level := h5
  refine ⟨hn, fun j => ?_, ?_, ?_, ?_, ?_⟩
  · rw [hlevel]
    refine (h1 j).trans ?_
    rw [hr]
    by_cases hj : j = id
    · subst hj
      simp [hlt]
    · rw [List.getElem?_set_ne (Ne.symm hj), if_neg hj]
      simp [hj]
  · exact h2.trans (by rw [hr])
  · exact h3.trans (by rw [hr])
  · rw [hlevel]
    exact h4.trans (by rw [hr])
  · rw [hlevel]
    exact level_set hn (by rw [hr]) (by rw [hr])

/-- Noise that comes or goes is an edge to all nodes that wait for it, if they do not hold the line low
themselves. -/
theorem setNoise_spec (b : Bus) (on : Bool) (hs : b.NodesSound) :
    let c := b.setNoise on
    (∀ j : Nat, c.nodes[j]? = b.nodes[j]?.map (·.after (b.level.edge? c.level) b.now)) ∧
      c.now = b.now ∧ c.noise = on ∧
      (c.fallingEdges = if b.level.edge? c.level = some .falling then b.fallingEdges.push b.now
        else b.fallingEdges) ∧ (c.level = .low ↔ on = true ∨ ∃ n ∈ b.nodes, n.pulling = true) := by
  obtain ⟨hnodes, hnow, hnoise, hfalls, hlevel⟩ :=
    spread_spec b.nodes.length { b with noise := on } b.nodes.length b.level hs
  have hlevel' : (b.setNoise on).level = ({ b with noise := on } : Bus).level := hlevel
  intro c
  refine ⟨fun j => ?_, hnow, hnoise, ?_, ?_⟩
  · rw [hlevel']
    refine (hnodes j).trans (Option.map_congr fun k hk => ?_)
    have hlt := (List.getElem?_eq_some_iff.1 hk).1
    exact if_neg (Nat.ne_of_lt hlt)
  · rw [hlevel']
    exact hfalls
  · rw [hlevel']
    exact level_eq_low_iff

end Bus
end HdmiCec
