import HdmiCec.Proofs.Bus.Story

/-! The wait before a start bit. It lasts as long as its kind asks for, and no edge falls meanwhile;
hence a line that is high when it begins stays high until the start bit (`start_bit_after_free_time`).
Nobody looks at the line when it begins, and a line that is low then may even stay so
(`start_bit_on_low_line`). -/
namespace HdmiCec

theorem Initiator.of_leads_startLow {s : Initiator} (h : s.leads .startLow = true) : s = .freeTime := by
  cases s with
  | freeTime => rfl
  | high f => cases f <;> cases h
  | _ => cases h

theorem Engine.quit_ne_startLow (e : Engine) : e.quit.state ≠ .initiator .startLow := by
  intro h
  have hspeaks := e.not_speaks_quit
  rw [h] at hspeaks
  cases hspeaks

namespace Node

variable {n m : Node} {e : Option Edge} {now : Nat}

/-- A node that is told of an edge only watches for a falling one if its wait begins now, or if it watched already
and no edge fell. -/
theorem Sound.watch_after (h : n.Sound) {s : Initiator} (hs : s.edge? = some .falling)
    (hm : (n.after e now).engine.state = .initiator s) :
    (n.after e now).timer.start = now ∨ n.after e now = n ∧ e ≠ some .falling := by
  cases he : e with
  | none => exact .inr ⟨n.after_none now, by simp⟩
  | some ed =>
    subst he
    by_cases hw : n.timer.waitsFor ed = true
    · rw [after_of_waitsFor hw]
      exact .inl (h.hear hw now).2
    · rw [after_of_not_waitsFor hw] at hm ⊢
      refine .inr ⟨rfl, fun hfall => ?_⟩
      cases hfall
      exact hw ((h.waitsFor_of_initiator hm).2 hs)

/-- A node that acts enters a state of an initiator, or is left where it was. -/
theorem Sound.initiator_acted (h : n.Sound) (ha : n.Acted now m) {s : Initiator} (hm : m.engine.state = .initiator s) :
    m.timer.start = now ∨ n.engine.state = .initiator s ∧ m.timer = n.timer ∧ m.pulling = n.pulling := by
  cases ha with
  | expires line hd => exact .inl (h.expire hd line now).2
  | sends hr =>
    by_cases hi : n.engine.state = .idle
    · rw [absorb_send_of_idle hr hi]
      exact .inl rfl
    · rw [absorb_send_of_ne_idle hr hi] at hm ⊢
      exact .inr ⟨by simpa using hm, rfl, rfl⟩
  | switches on =>
    have hx := h.switched on now
    generalize n.absorb (n.engine.setEnabled on) now = k at hx hm
    cases hx with
    | same => exact .inr ⟨hm, rfl, rfl⟩
    | on _ _ hq => cases hq.symm.trans hm
    | off => cases hm
  | moves a => exact .inr ⟨hm, rfl, rfl⟩

theorem startLow_after (hm : (n.after e now).engine.state = .initiator .startLow) :
    n.engine.state = .initiator .startLow := by
  unfold after at hm
  split at hm
  · rw [engine_hear] at hm
    have hx := n.engine.onCapture_hears (n.timer.elapsed now)
    generalize (n.engine.onCapture (n.timer.elapsed now)).engine = d at hx hm
    cases hx with
    | same => exact hm
    | quit => exact absurd hm (Engine.quit_ne_startLow _)
    | opens => cases hm
    | goes => cases hm
  · exact hm

/-- A start bit is sent when the wait for a free line is over, and only then. -/
theorem Sound.startLow_acted (h : n.Sound) (ha : n.Acted now m) (hn : n.engine.state ≠ .initiator .startLow)
    (hm : m.engine.state = .initiator .startLow) :
    n.engine.state = .initiator .freeTime ∧ now = n.timer.start + n.engine.tx.freeTime.ticks := by
  cases ha with
  | expires line hd =>
    rw [engine_expire] at hm
    have hx := n.engine.onTimeout_lapses (some line)
    generalize (n.engine.onTimeout (some line)).engine = d at hx hm
    cases hx with
    | same => exact absurd hm hn
    | quit => exact absurd hm (Engine.quit_ne_startLow _)
    | ended => exact absurd hm (Engine.quit_ne_startLow _)
    | again => cases hm
    | goes hs hl =>
      cases hm
      have hst := hs
      rw [Initiator.of_leads_startLow hl] at hst
      have hdue := (h.deadline?_of_initiator hst).symm.trans hd
      exact ⟨hst, (Option.some.inj hdue).symm⟩
    | answers => cases hm
  | sends hr =>
    by_cases hi : n.engine.state = .idle
    · rw [absorb_send_of_idle hr hi] at hm
      cases hm
    · rw [absorb_send_of_ne_idle hr hi, Engine.load_state] at hm
      exact absurd hm hn
  | switches on =>
    have hx := h.switched on now
    generalize n.absorb (n.engine.setEnabled on) now = k at hx hm
    cases hx with
    | same => exact absurd hm hn
    | on _ _ hq => cases hq.symm.trans hm
    | off => cases hm
  | moves a => exact absurd hm hn

end Node

namespace Bus

variable {b c : Bus} {as : List LogicalAddress} {past : List Bus} {id t : Nat} {n m : Node}

/-- The line has been high without interruption since time `t`: it is high, and was high in all the
states that the bus has been in since then. -/
def HighSince (t : Nat) : List Bus → Prop
  | [] => False
  | b :: past => b.level = .high ∧ (b.now ≤ t ∨ HighSince t past)

def Watches (b : Bus) (id : Nat) (s : Initiator) (t : Nat) : Prop :=
  ∃ n, b.nodes[id]? = some n ∧ n.engine.state = .initiator s ∧ n.timer.start = t

/-- A wait in which an initiator watches for others has just begun, or goes on while no edge falls. -/
theorem Happens.watches (hs : b.NodesSound) (h : Happens b c) (hm : c.nodes[id]? = some m) {s : Initiator}
    (hedge : s.edge? = some .falling) (hst : m.engine.state = .initiator s) :
    m.timer.start = c.now ∨ b.Watches id s m.timer.start ∧ b.level.edge? c.level ≠ some .falling := by
  obtain ⟨n, hn, hcomes⟩ := h.node hs hm
  have hsound := hs n (List.mem_of_getElem? hn)
  rcases hcomes with rfl | ⟨hacted, hfall⟩
  · rcases hsound.watch_after hedge hst with hnow | ⟨hsame, hfall⟩
    · exact .inl hnow
    · rw [hsame] at hst ⊢
      exact .inr ⟨⟨n, hn, hst, rfl⟩, hfall⟩
  · rcases hsound.initiator_acted hacted hst with hnow | ⟨hwaits, htimer, hpulling⟩
    · exact .inl hnow
    · exact .inr ⟨⟨n, hn, hwaits, by rw [htimer]⟩, hfall fun hp => hpulling ▸ hp⟩

/-- Node `id` has been in state `s` since the bus was in `first`, and no edge has fallen. -/
inductive Watched (id : Nat) (s : Initiator) (first : Bus) : List Bus → Prop
  | begins {past : List Bus} : first.Watches id s first.now → Watched id s first (first :: past)
  | goesOn {b c : Bus} {past : List Bus} : Watched id s first (b :: past) → c.Watches id s first.now →
      b.level.edge? c.level ≠ some .falling → Watched id s first (c :: b :: past)

theorem Watched.high {s : Initiator} {first : Bus} {states : List Bus} (h : Watched id s first states)
    (hfirst : first.level = .high) : HighSince first.now states := by
  induction h with
  | begins => exact ⟨hfirst, .inl (Nat.le_refl _)⟩
  | @goesOn b c past _ _ hedge ih =>
    refine ⟨?_, .inr ih⟩
    rw [ih.1] at hedge
    cases hc : c.level with
    | high => rfl
    | low => exact absurd (by rw [hc]; rfl) hedge

/-- A wait in which an initiator watches for others goes back to a state in which it began. -/
theorem Story.watched (h : Story as past b) (hn : b.nodes[id]? = some n) {s : Initiator}
    (hedge : s.edge? = some .falling) (hst : n.engine.state = .initiator s) :
    ∃ first, n.timer.start = first.now ∧ Watched id s first (b :: past) := by
  induction h generalizing n with
  | @start b hb =>
    rw [(starts_of_ofAddresses hb).nodes] at hn
    obtain ⟨a, -, rfl⟩ := List.mem_map.1 (List.mem_of_getElem? hn)
    cases hst
  | @next past b c hstory hc ih =>
    rcases hc.watches hstory.sane.nodesSound hn hedge hst with hnow | ⟨⟨n', hn', hst', hstart⟩, hfall⟩
    · exact ⟨c, hnow, .begins ⟨n, hn, hst, hnow⟩⟩
    · obtain ⟨first, hfirst, hwatched⟩ := ih hn' hst'
      have hsame : n.timer.start = first.now := hstart.symm.trans hfirst
      exact ⟨first, hsame, hwatched.goesOn ⟨n, hn, hst, hsame⟩ hfall⟩

/-- Before a start bit a node waits for as long as the kind of its wait asks for, and no edge falls
meanwhile. If the line was high when the wait began, it has been high ever since. -/
theorem start_bit_after_free_time (h : Story as past b) (hc : Happens b c) (hn : b.nodes[id]? = some n)
    (hm : c.nodes[id]? = some m) (hbefore : n.engine.state ≠ .initiator .startLow)
    (hafter : m.engine.state = .initiator .startLow) :
    n.engine.state = .initiator .freeTime ∧ ∃ first, c.now = first.now + n.engine.tx.freeTime.ticks ∧
      Watched id .freeTime first (b :: past) ∧
      (first.level = .high → HighSince (c.now - n.engine.tx.freeTime.ticks) (b :: past)) := by
  have hs := h.sane.nodesSound
  obtain ⟨n', hn', hcomes⟩ := hc.node hs hm
  obtain rfl : n = n' := Option.some.inj (hn.symm.trans hn')
  rcases hcomes with rfl | ⟨hacted, -⟩
  · exact absurd (Node.startLow_after hafter) hbefore
  · obtain ⟨hst, hnow⟩ := (hs n (List.mem_of_getElem? hn)).startLow_acted hacted hbefore hafter
    obtain ⟨first, hfirst, hwatched⟩ := h.watched hn rfl hst
    rw [hfirst] at hnow
    refine ⟨hst, first, hnow, hwatched, fun hhigh => ?_⟩
    rw [hnow, Nat.add_sub_cancel]
    exact hwatched.high hhigh

theorem start_bit_after_free_time_first : ∃ past b c n m, Story [⟨0⟩] past b ∧ Happens b c ∧
    b.nodes[0]? = some n ∧ c.nodes[0]? = some m ∧ n.engine.state ≠ .initiator .startLow ∧
    m.engine.state = .initiator .startLow ∧ ∃ first, c.now = first.now + n.engine.tx.freeTime.ticks ∧
      Watched 0 .freeTime first (b :: past) := by
  obtain ⟨a, ha⟩ := (@ofAddresses_eq_ok_iff [⟨0⟩]).2 (by decide)
  have run : ((ofAddresses [⟨0⟩]).toOption.any fun a => (a.perform? 1 (.send 0 [4])).any fun p =>
      p.1.nodes[0]?.any fun n => n.engine.state = .initiator .freeTime && (p.1.step? none).any fun c =>
        c.nodes[0]?.any fun m => m.engine.state = .initiator .startLow) = true := by decide +kernel
  rw [ha] at run
  simp only [Except.toOption, Option.any_some] at run
  obtain ⟨⟨b, r⟩, hb, hr⟩ := (Option.any_eq_true _ _).1 run
  obtain ⟨n, hn, hr⟩ := (Option.any_eq_true _ _).1 hr
  rw [Bool.and_eq_true, decide_eq_true_eq] at hr
  obtain ⟨hst, hr⟩ := hr
  obtain ⟨c, hc, hr⟩ := (Option.any_eq_true _ _).1 hr
  obtain ⟨m, hm, hr⟩ := (Option.any_eq_true _ _).1 hr
  have hstory : Story [⟨0⟩] [a] b := .next (.start ha) (.asked (s := .send 0 [4]) trivial hb)
  have hbefore : n.engine.state ≠ .initiator .startLow := by rw [hst]; decide
  have hafter : m.engine.state = .initiator .startLow := by simpa using hr
  obtain ⟨-, first, hfirst, hwatched, -⟩ :=
    start_bit_after_free_time hstory (.deadline hc) hn hm hbefore hafter
  exact ⟨[a], b, c, n, m, hstory, .deadline hc, hn, hm, hbefore, hafter, first, hfirst, hwatched⟩

/-- The wait may begin on a low line, and end on it: noise comes at once and outlasts both the deadline
of a follower and the wait after it. -/
theorem start_bit_on_low_line : ¬ ∀ (as : List LogicalAddress) (past : List Bus) (b c : Bus) (id : Nat) (n m : Node),
    Story as past b → Happens b c → b.nodes[id]? = some n → c.nodes[id]? = some m →
    n.engine.state ≠ .initiator .startLow → m.engine.state = .initiator .startLow →
    HighSince (c.now - n.engine.tx.freeTime.ticks) (b :: past) := by
  intro hall
  obtain ⟨a, ha⟩ := (@ofAddresses_eq_ok_iff [⟨0⟩, ⟨4⟩]).2 (by decide)
  have run : ((ofAddresses [⟨0⟩, ⟨4⟩]).toOption.any fun a => (a.perform? 1 (.send 0 [4])).any fun p =>
      ((p.1.setNoise true).step? none).any fun q => (q.step? none).any fun b => b.level = .low &&
        b.nodes[0]?.any fun n => n.engine.state = .initiator .freeTime && (b.step? none).any fun c =>
          c.nodes[0]?.any fun m => m.engine.state = .initiator .startLow) = true := by decide +kernel
  rw [ha] at run
  simp only [Except.toOption, Option.any_some] at run
  obtain ⟨⟨p, r⟩, hp, hr⟩ := (Option.any_eq_true _ _).1 run
  obtain ⟨q, hq, hr⟩ := (Option.any_eq_true _ _).1 hr
  obtain ⟨b, hb, hr⟩ := (Option.any_eq_true _ _).1 hr
  rw [Bool.and_eq_true, decide_eq_true_eq] at hr
  obtain ⟨hlow, hr⟩ := hr
  obtain ⟨n, hn, hr⟩ := (Option.any_eq_true _ _).1 hr
  rw [Bool.and_eq_true, decide_eq_true_eq] at hr
  obtain ⟨hst, hr⟩ := hr
  obtain ⟨c, hc, hr⟩ := (Option.any_eq_true _ _).1 hr
  obtain ⟨m, hm, hr⟩ := (Option.any_eq_true _ _).1 hr
  have hstory : Story [⟨0⟩, ⟨4⟩] [q, p.setNoise true, p, a] b :=
    .next (.next (.next (.next (.start ha) (.asked (s := .send 0 [4]) trivial hp)) (.noise true)) (.deadline hq))
      (.deadline hb)
  have hbefore : n.engine.state ≠ .initiator .startLow := by rw [hst]; decide
  obtain ⟨hhigh, -⟩ := hall _ _ b c 0 n m hstory (.deadline hc) hn hm hbefore (by simpa using hr)
  rw [hlow] at hhigh
  cases hhigh

end Bus
end HdmiCec
