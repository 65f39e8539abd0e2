import HdmiCec.Proofs.Bus.FreeTime
import HdmiCec.Proofs.Engine.Account

/-! Arbitration. An initiator that has let go of the line before its own address is out watches for others, and a
falling edge makes it give way (`arbitration`). It does not look at the line when its wait is over: another one that
pulled the line before it let go, and still does, brings no edge and is not noticed (`low_line_not_noticed`). -/
namespace HdmiCec

def Initiator.arbitrates (s : Initiator) : Prop := s = startHigh ∨ s = high .headerInit

theorem Initiator.arbitrates.edge {s : Initiator} (h : s.arbitrates) : s.edge? = some .falling := by
  rcases h with rfl | rfl <;> rfl

namespace Node

variable {n m : Node} {e : Option Edge} {now : Nat} {s : Initiator}

/-- An edge that falls makes a node give way, and nothing else that others do changes it. -/
theorem Sound.arbitrates_after (h : n.Sound) (hs : n.engine.state = .initiator s) (ha : s.arbitrates) :
    n.after e now = n ∧ e ≠ some .falling ∨ e = some .falling ∧
      (n.after e now).engine.state = .follower .startLow ∧ (n.after e now).engine.tx.Same n.engine.tx := by
  cases he : e with
  | none => exact .inl ⟨n.after_none now, by simp⟩
  | some ed =>
    by_cases hw : n.timer.waitsFor ed = true
    · have hfall := (h.waitsFor_of_initiator hs).1 hw
      rw [ha.edge] at hfall
      cases hfall
      rw [after_of_waitsFor hw, engine_hear, Engine.onCapture_initiator hs (.inr ha)]
      exact .inr ⟨rfl, rfl, rfl, rfl, rfl⟩
    · rw [after_of_not_waitsFor hw]
      refine .inl ⟨rfl, fun hfall => ?_⟩
      cases hfall
      exact hw ((h.waitsFor_of_initiator hs).2 ha.edge)

/-- A node that has a frame takes no other. So if it acts its wait is over, or it is switched off, or just its address
changes. -/
theorem Sound.acted_of_sending (h : n.Sound) (hp : n.engine.isSending = true) (hm : n.Acted now m) :
    (∃ line, n.timer.deadline? = some now ∧ m = n.expire line now) ∨ m.engine.state = .disabled ∨
      m.engine.state = n.engine.state ∧ m.engine.tx.Same n.engine.tx ∧ m.pulling = n.pulling := by
  cases hm with
  | expires line hd => exact .inl ⟨line, hd, rfl⟩
  | sends hr =>
    have hfree := (Engine.send_eq_ok_iff.1 hr).2.2.1
    rw [hp] at hfree
    cases hfree
  | switches on =>
    have hx := h.switched on now
    generalize n.absorb (n.engine.setEnabled on) now = k at hx
    cases hx with
    | same => exact .inr (.inr ⟨rfl, .refl, rfl⟩)
    | on _ hfree =>
      rw [hp] at hfree
      cases hfree
    | off => exact .inr (.inl rfl)
  | moves a => exact .inr (.inr ⟨rfl, .refl, rfl⟩)

/-- Left to itself it goes on with the next bit when its wait is over. -/
theorem Sound.arbitrates_acted (h : n.Sound) (hs : n.engine.state = .initiator s) (ha : s.arbitrates)
    (hm : n.Acted now m) : m.engine.state = .disabled ∨ m.engine.held = n.engine.held ∧
      (m.engine.state = .initiator s ∧ m.pulling = n.pulling ∨
        now = n.timer.start + s.span n.engine.tx ∧ ∃ f, m.engine.state = .initiator (.low f)) := by
  rcases h.acted_of_sending (h.fit.busy s hs).1 hm with ⟨line, hd, rfl⟩ | hoff | ⟨hstate, hsame, hpulling⟩
  · have hdue : now = n.timer.start + s.span n.engine.tx :=
      (Option.some.inj ((h.deadline?_of_initiator hs).symm.trans hd)).symm
    rw [engine_expire]
    rcases ha with rfl | rfl
    · rw [Engine.onTimeout_startHigh hs]
      exact .inr ⟨rfl, .inr ⟨hdue, _, rfl⟩⟩
    · rw [Engine.onTimeout_high hs (by decide)]
      exact .inr ⟨Engine.held_of_same ⟨rfl, rfl, rfl⟩, .inr ⟨hdue, _, rfl⟩⟩
  · exact .inl hoff
  · exact .inr ⟨Engine.held_of_same hsame, .inl ⟨hstate.trans hs, hpulling⟩⟩

/-- A follower that has a frame to send keeps it, and gets its turn as soon as it follows nobody. -/
theorem Sound.deferred (h : n.Sound) {u : Follower} (hs : n.engine.state = .follower u) (hp : n.engine.isSending = true)
    (hm : n.Comes e now m) : m.engine.state = .disabled ∨ m.engine.held = n.engine.held ∧
      m.engine.tx.resends = n.engine.tx.resends ∧
      (m.engine.state = .initiator .freeTime ∨ ∃ v, m.engine.state = .follower v) := by
  have turn : ∀ {d : Engine}, d.tx.Same n.engine.tx →
      (∃ v, d.state = .follower v) ∨ d.state = .initiator .freeTime → d.held = n.engine.held ∧
        d.tx.resends = n.engine.tx.resends ∧ (d.state = .initiator .freeTime ∨ ∃ v, d.state = .follower v) :=
    fun hsame hd => ⟨Engine.held_of_same hsame, hsame.resends, hd.symm⟩
  rcases hm with rfl | ⟨hacted, -⟩
  · unfold after
    split
    · rw [engine_hear]
      refine .inr (turn (n.engine.onCapture_same _) ?_)
      rcases Engine.deferred_turn (.capture (n.timer.elapsed now)) hs hp with hv | hfree | hoff
      · exact .inl hv
      · exact .inr hfree
      · cases hoff
    · exact .inr (turn .refl (.inl ⟨u, hs⟩))
  · rcases h.acted_of_sending hp hacted with ⟨line, -, rfl⟩ | hoff | ⟨hstate, hsame, -⟩
    · rw [engine_expire]
      refine .inr (turn (Engine.onTimeout_same (by rw [hs]; simp) _) ?_)
      rcases Engine.deferred_turn (.timeout (some line)) hs hp with hv | hfree | hoff
      · exact .inl hv
      · exact .inr hfree
      · cases hoff
    · exact .inl hoff
    · exact .inr (turn hsame (.inl ⟨u, hstate.trans hs⟩))

end Node

namespace Bus

variable {b c : Bus} {as : List LogicalAddress} {past : List Bus} {id t : Nat} {n m : Node} {s : Initiator}

def LowSince (t : Nat) : List Bus → Prop
  | [] => False
  | b :: past => b.level = .low ∧ (b.now ≤ t ∨ LowSince t past)

theorem low_of_not_falling (h : b.level.edge? c.level ≠ some .falling) (hc : c.level = .low) : b.level = .low := by
  cases hb : b.level with
  | low => rfl
  | high => exact absurd (by rw [hb, hc]; rfl) h

/-- A line that is low at the end of the wait was so when it began, and ever since. -/
theorem Watched.low {first : Bus} {past : List Bus} (h : Watched id s first (b :: past)) (hb : b.level = .low) :
    first.level = .low ∧ LowSince first.now (b :: past) := by
  generalize hl : b :: past = states at h
  induction h generalizing b past with
  | begins =>
    cases hl
    exact ⟨hb, hb, .inl (Nat.le_refl _)⟩
  | goesOn _ _ hfall ih =>
    cases hl
    obtain ⟨hfirst, hsince⟩ := ih (low_of_not_falling hfall hb) rfl
    exact ⟨hfirst, hb, .inr hsince⟩

/-- What can become of node `id` that has let go of the line in state `s` and watches for others. -/
inductive Contends (past : List Bus) (b c : Bus) (id : Nat) (s : Initiator) (n m : Node) : Prop
  | watches : m.engine.state = .initiator s → m.engine.held = n.engine.held → b.level.edge? c.level ≠ some .falling →
      Contends past b c id s n m
  /-- Its wait is over and it sends the next bit. If the line is low then, it was so already when the node let go of
  it, and has been ever since. -/
  | speaks {first : Bus} {f : BitKind} : c.now = first.now + s.span n.engine.tx → Watched id s first (b :: past) →
      (b.level = .low → first.level = .low ∧ LowSince first.now (b :: past)) → m.engine.state = .initiator (.low f) →
      m.engine.held = n.engine.held → Contends past b c id s n m
  /-- An edge has fallen, and it gives way. Its frame is kept, with as many attempts left. -/
  | yields : b.level.edge? c.level = some .falling → m.engine.state = .follower .startLow →
      m.engine.isSending = true → m.engine.held = n.engine.held → m.engine.tx.resends = n.engine.tx.resends →
      Contends past b c id s n m
  | switchedOff : m.engine.state = .disabled → Contends past b c id s n m

theorem Story.contends (h : Story as past b) (hc : Happens b c) (hn : b.nodes[id]? = some n)
    (hm : c.nodes[id]? = some m) (ha : s.arbitrates) (hs : n.engine.state = .initiator s) :
    Contends past b c id s n m := by
  have hsounds := h.sane.nodesSound
  have hsound := hsounds n (List.mem_of_getElem? hn)
  obtain ⟨n', hn', hcomes⟩ := hc.node hsounds hm
  obtain rfl : n = n' := Option.some.inj (hn.symm.trans hn')
  rcases hcomes with rfl | ⟨hacted, hfall⟩
  · rcases hsound.arbitrates_after hs ha with ⟨hsame, hfall⟩ | ⟨hfall, hstate, hsame⟩
    · rw [hsame]
      exact .watches hs rfl hfall
    · have hbusy := (Engine.isSending_of_same hsame).trans (hsound.fit.busy s hs).1
      exact .yields hfall hstate hbusy (Engine.held_of_same hsame) hsame.resends
  · rcases hsound.arbitrates_acted hs ha hacted with hoff | ⟨hheld, ⟨hstate, hpulling⟩ | ⟨hdue, f, hstate⟩⟩
    · exact .switchedOff hoff
    · exact .watches hstate hheld (hfall fun hp => hpulling ▸ hp)
    · obtain ⟨first, hfirst, hwatched⟩ := h.watched hn ha.edge hs
      exact .speaks (hfirst ▸ hdue) hwatched hwatched.low hstate hheld

/-- A node that has let go of the line before its own address is out gives way as soon as an edge falls, and its
frame keeps waiting until it follows nobody. It goes on only at the end of its wait, and if the line is low then, it
was so already when the node let go of it. -/
theorem arbitration (h : Story as past b) (hc : Happens b c) (hn : b.nodes[id]? = some n) (hm : c.nodes[id]? = some m) :
    (∀ s : Initiator, s.arbitrates → n.engine.state = .initiator s → Contends past b c id s n m) ∧
      ∀ u, n.engine.state = .follower u → n.engine.isSending = true → m.engine.state = .disabled ∨
        m.engine.held = n.engine.held ∧ m.engine.tx.resends = n.engine.tx.resends ∧
          (m.engine.state = .initiator .freeTime ∨ ∃ v, m.engine.state = .follower v) := by
  refine ⟨fun s ha hs => h.contends hc hn hm ha hs, fun u hs hp => ?_⟩
  have hsounds := h.sane.nodesSound
  obtain ⟨n', hn', hcomes⟩ := hc.node hsounds hm
  obtain rfl : n = n' := Option.some.inj (hn.symm.trans hn')
  exact (hsounds n (List.mem_of_getElem? hn)).deferred hs hp hcomes

theorem arbitration_lost : ∃ past b c n m, Story [⟨0⟩] past b ∧ Happens b c ∧ b.nodes[0]? = some n ∧
    c.nodes[0]? = some m ∧ Initiator.startHigh.arbitrates ∧ n.engine.state = .initiator .startHigh ∧
    b.level.edge? c.level = some .falling ∧ m.engine.state = .follower .startLow ∧ m.engine.isSending = true ∧
    m.engine.held = n.engine.held := by
  obtain ⟨a, ha⟩ := (@ofAddresses_eq_ok_iff [⟨0⟩]).2 (by decide)
  have run : ((ofAddresses [⟨0⟩]).toOption.any fun a => (a.perform? 1 (.send 0 [4])).any fun p =>
      (p.1.step? none).any fun q => (q.step? none).any fun b =>
        b.nodes[0]?.any fun n => n.engine.state = .initiator .startHigh &&
          (b.setNoise true).nodes[0]?.any fun m => m.engine.state = .follower .startLow) = true := by decide +kernel
  rw [ha] at run
  simp only [Except.toOption, Option.any_some] at run
  obtain ⟨⟨p, r⟩, hp, hr⟩ := (Option.any_eq_true _ _).1 run
  obtain ⟨q, hq, hr⟩ := (Option.any_eq_true _ _).1 hr
  obtain ⟨b, hb, hr⟩ := (Option.any_eq_true _ _).1 hr
  obtain ⟨n, hn, hr⟩ := (Option.any_eq_true _ _).1 hr
  rw [Bool.and_eq_true, decide_eq_true_eq] at hr
  obtain ⟨hst, hr⟩ := hr
  obtain ⟨m, hm, hr⟩ := (Option.any_eq_true _ _).1 hr
  have hstory : Story [⟨0⟩] [q, p, a] b :=
    .next (.next (.next (.start ha) (.asked (s := .send 0 [4]) trivial hp)) (.deadline hq)) (.deadline hb)
  have hafter : m.engine.state = .follower .startLow := by simpa using hr
  have hwaits : Initiator.startHigh.arbitrates := .inl rfl
  cases (arbitration hstory (.noise true) hn hm).1 _ hwaits hst with
  | watches hs | speaks _ _ _ hs | switchedOff hs =>
    rw [hafter] at hs
    cases hs
  | yields hfall _ hbusy hheld _ =>
    exact ⟨_, b, _, n, m, hstory, .noise true, hn, hm, hwaits, hst, hfall, hafter, hbusy, hheld⟩

/-- Noise sets in while the start bit is low, so that the node lets go of a line that stays low. When its wait is over
it sends the first bit of its address all the same. -/
theorem low_line_not_noticed : ¬ ∀ (as : List LogicalAddress) (past : List Bus) (b c : Bus) (id : Nat) (n m : Node)
    (s : Initiator), Story as past b → Happens b c → b.nodes[id]? = some n → c.nodes[id]? = some m →
    s.arbitrates → n.engine.state = .initiator s → n.timer.deadline? = some c.now → b.level = .low →
    m.engine.state.drives = false := by
  intro hall
  obtain ⟨a, ha⟩ := (@ofAddresses_eq_ok_iff [⟨0⟩]).2 (by decide)
  have run : ((ofAddresses [⟨0⟩]).toOption.any fun a => (a.perform? 1 (.send 0 [4])).any fun p =>
      (p.1.step? none).any fun q => ((q.setNoise true).step? none).any fun b => b.level = .low &&
        b.nodes[0]?.any fun n => n.engine.state = .initiator .startHigh && (b.step? none).any fun c =>
          n.timer.deadline? = some c.now && c.nodes[0]?.any fun m => m.engine.state.drives) = true := by
    decide +kernel
  rw [ha] at run
  simp only [Except.toOption, Option.any_some] at run
  obtain ⟨⟨p, r⟩, hp, hr⟩ := (Option.any_eq_true _ _).1 run
  obtain ⟨q, hq, hr⟩ := (Option.any_eq_true _ _).1 hr
  obtain ⟨b, hb, hr⟩ := (Option.any_eq_true _ _).1 hr
  rw [Bool.and_eq_true, decide_eq_true_eq] at hr
  obtain ⟨hlow, hr⟩ := hr
  obtain ⟨n, hn, hr⟩ := (Option.any_eq_true _ _).1 hr
  rw [Bool.and_eq_true, decide_eq_true_eq] at hr
  obtain ⟨hst, hr⟩ := hr
  obtain ⟨c, hc, hr⟩ := (Option.any_eq_true _ _).1 hr
  rw [Bool.and_eq_true, decide_eq_true_eq] at hr
  obtain ⟨hdue, hr⟩ := hr
  obtain ⟨m, hm, hdrives⟩ := (Option.any_eq_true _ _).1 hr
  have hstory : Story [⟨0⟩] [q.setNoise true, q, p, a] b :=
    .next (.next (.next (.next (.start ha) (.asked (s := .send 0 [4]) trivial hp)) (.deadline hq)) (.noise true))
      (.deadline hb)
  have hquiet := hall _ _ b c 0 n m _ hstory (.deadline hc) hn hm (.inl rfl) hst hdue hlow
  rw [hquiet] at hdrives
  cases hdrives

end Bus
end HdmiCec
