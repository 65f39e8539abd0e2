import HdmiCec.Proofs.Bus.Mirror

/-! Nothing arrives that was not sent. While no noise disturbs the line, whoever is within a frame
of an initiator that goes on with it is in step with that initiator (`Bus.Faithful`); a follower
that is within a frame nobody goes on with gives it up before the next one carries bits. -/
namespace HdmiCec

namespace Node

variable {n k : Node} {fall now : Nat} {e : Option Edge}

theorem keeps_after (n : Node) (e : Option Edge) (now : Nat) : (n.after e now).engine.Keeps n.engine := by
  unfold after
  split
  · rw [engine_hear]
    exact Engine.keeps_of_same (Engine.onCapture_same _ _)
  · exact Engine.keeps_of_same .refl

theorem Placed.state_after_calm (h : n.Placed fall now) (he : e ≠ some .falling) :
    n.after e now = n ∨ e = some .rising ∧ n.timer.waitsFor .rising = true ∧ n.after e now = n.hear now ∧
      (n.hear now).engine.state.speaks = false ∧ (n.hear now).engine.state.answers = false ∧
      ((n.hear now).engine.state.framed = true → ∃ f, n.engine.state = .follower (.low f)) := by
  rcases n.after_cases now he with hsame | ⟨hr, hw, hsame⟩
  · exact .inl hsame
  · refine .inr ⟨hr, hw, hsame, (not_speaks_hear_rising h.sound hw now).1, ?_, fun hf => ?_⟩
    · have := (h.sound.hear_rising hw now).1
      cases hs : (n.hear now).engine.state with
      | follower s => simpa [hs, State.mayPull, State.answers] using this
      | _ => rfl
    · rcases h.sound.waits_rising hw with hs | hs
      · rw [engine_hear] at hf
        rcases Engine.onCapture_framed hf with hf | ⟨hf, -⟩ <;> rw [hs] at hf <;> cases hf
      · exact hs

end Node

namespace Bus

variable {b c : Bus} {id t : Nat} {n m : Node} {sent sent' : List (Nat × Message)}

def FromOther (sent : List (Nat × Message)) (j : Nat) (m : Message) : Prop := m ≠ [] ∧ ∃ i, i ≠ j ∧ (i, m) ∈ sent

theorem FromOther.mono {j : Nat} {msg : Message} (h : FromOther sent j msg) (hsub : ∀ p ∈ sent, p ∈ sent') :
    FromOther sent' j msg := by
  obtain ⟨hne, i, hi, hm⟩ := h
  exact ⟨hne, i, hi, hsub _ hm⟩

structure Faithful (sent : List (Nat × Message)) (b : Bus) : Prop where
  quiet : b.Quiet
  pending : ∀ (i : Nat) n, b.nodes[i]? = some n → n.engine.isSending = true → (i, n.engine.tx.message) ∈ sent
  follows : ∀ (i j : Nat) n k, b.nodes[i]? = some n → b.nodes[j]? = some k → n.engine.state.carries = true →
    k.engine.state.framed = true → k.engine.Follows n.engine
  answers : ∀ (j : Nat) k, b.nodes[j]? = some k → k.engine.state.answers = true → k.engine.rx.isLast = true →
    FromOther sent j k.engine.rx.message

/-- It is enough to look at the node that did something, unless the line goes low. -/
theorem Faithful.calm (h : b.Faithful sent) (hq : c.Quiet) (ha : Acts b id n m c)
    (he : b.level.edge? c.level ≠ some .falling) (hsub : ∀ p ∈ sent, p ∈ sent')
    (hp : m.engine.isSending = true → (id, m.engine.tx.message) ∈ sent')
    (hi : m.engine.state.carries = true → ∀ (j : Nat) k, j ≠ id → b.nodes[j]? = some k →
      k.engine.state.framed = true → (k.after (b.level.edge? c.level) b.now).engine.Follows m.engine)
    (hj : m.engine.state.framed = true → ∀ (i : Nat) k, i ≠ id → b.nodes[i]? = some k →
      k.engine.state.carries = true → m.engine.Follows k.engine)
    (hr : m.engine.state.answers = true → m.engine.rx.isLast = true →
      FromOther sent' id m.engine.rx.message) : c.Faithful sent' := by
  have place : ∀ {j : Nat} {k}, b.nodes[j]? = some k → k.Placed b.lastFall b.now := fun hk =>
    h.quiet.placed _ (List.mem_of_getElem? hk)
  refine ⟨hq, ?_, ?_, ?_⟩
  · intro i k hk hs
    rcases ha.cases hk with ⟨rfl, rfl⟩ | ⟨-, k', hk', rfl⟩
    · exact hp hs
    · obtain ⟨hs', hm⟩ := k'.keeps_after _ _ hs
      rw [hm]
      exact hsub _ (h.pending i k' hk' hs')
  · intro i j p q hpi hqj hcar hfr
    rcases ha.cases hpi with ⟨rfl, rfl⟩ | ⟨hne, p', hp', rfl⟩
    · rcases ha.cases hqj with ⟨-, rfl⟩ | ⟨hne, q', hq', rfl⟩
      · have := State.carries_speaks hcar
        cases hst : q.engine.state <;> simp_all [State.speaks, State.framed]
      · refine hi hcar j q' hne hq' ?_
        rcases (place hq').state_after_calm he with hsame | ⟨-, -, hsame, -, -, hlow⟩
        · rwa [hsame] at hfr
        · rw [hsame] at hfr
          obtain ⟨f, hf⟩ := hlow hfr
          rw [hf]
          rfl
    · -- An initiator that goes on with its frame watches for no rising edge.
      have hsame : p'.after (b.level.edge? c.level) b.now = p' := by
        rcases (place hp').state_after_calm he with hsame | ⟨-, -, hsame, hsp, -⟩
        · exact hsame
        · rw [hsame] at hcar
          rw [State.carries_speaks hcar] at hsp
          cases hsp
      rw [hsame] at hcar ⊢
      rcases ha.cases hqj with ⟨rfl, rfl⟩ | ⟨hne', q', hq', rfl⟩
      · exact hj hfr i p' hne hp' hcar
      · rcases (place hq').state_after_calm he with hq | ⟨hedge, -, hq, -, -, hlow⟩
        · rw [hq] at hfr ⊢
          exact h.follows i j p' q' hp' hq' hcar hfr
        · rw [hq] at hfr
          obtain ⟨f, hf⟩ := hlow hfr
          have hlow := (h.follows i j p' q' hp' hq' hcar (by rw [hf]; rfl)).low hf
          have hpull := (place hp').sound.pulls _ hlow rfl
          have hc : c.level = .low := ha.level.2 (.inr (.inr ⟨i, p', hne, hp', hpull⟩))
          have hhigh := (Level.edge?_eq_some_iff.1 hedge).2
          rw [hc] at hhigh
          cases hhigh
  · intro j k hk han hl
    rcases ha.cases hk with ⟨rfl, rfl⟩ | ⟨-, k', hk', rfl⟩
    · exact hr han hl
    · rcases (place hk').state_after_calm he with hsame | ⟨-, -, hsame, -, hno, -⟩
      · rw [hsame] at han hl ⊢
        exact (h.answers j k' hk' han hl).mono hsub
      · rw [hsame, hno] at han
        cases han

theorem Faithful.at (h : b.Faithful sent) (hb : b.now ≤ t)
    (ht : ∀ n ∈ b.nodes, ∀ u, n.timer.deadline? = some u → t ≤ u) : Faithful sent { b with now := t } :=
  ⟨h.quiet.at hb ht, h.pending, h.follows, h.answers⟩

/-- Nobody answers within a bit, so that the line is let go of at the end of its low part. -/
theorem Faithful.high_of_low {f : BitKind} (h : b.Faithful sent) (hx : Turn b t id n c)
    (hs : n.engine.state = .initiator (.low f)) : c.level = .high := by
  refine hx.acts.level_high h.quiet.noise ?_ fun i l hil hl => ?_
  · refine hx.expired.placed.sound.not_pulling_of_state ?_
    rw [n.engine_expire, Engine.onTimeout_low hs]
    rfl
  · refine (h.quiet.placed l (List.mem_of_getElem? hl)).sound.not_pulling_of_state
      (Bool.eq_false_iff.2 fun hp => ?_)
    rcases State.mayPull_cases hp with hsp | han
    · exact hil (h.quiet.alone i id l n hl hx.acts.here hsp (by rw [hs]; rfl))
    · have han' : l.engine.state.answers = true := by rcases han with h | h <;> rw [h] <;> rfl
      have hlf := h.follows id i n l hx.acts.here hl (by rw [hs]; rfl) (State.answers_framed han')
      obtain ⟨hst, -⟩ := hlf.of_answers han'
      rw [hs] at hst
      simp at hst

theorem Faithful.lapse (h : b.Faithful sent) (hx : Turn b t id n c) (hq : c.Quiet)
    (hd : (n.expire b.level t).engine.state.drives = false) : c.Faithful sent := by
  have hat := h.at hx.later hx.first
  have hmem := List.mem_of_getElem? hx.acts.here
  have hn : n.Placed b.lastFall t := hx.before.placed n hmem
  have he : (n.expire b.level t).engine = (n.engine.onTimeout (some b.level)).engine := n.engine_expire _ _
  refine hat.calm hq hx.acts (hx.calm hd) (fun _ hp => hp) ?_ ?_ ?_ ?_
  · intro hs
    rw [he] at hs ⊢
    obtain ⟨hs', hm⟩ := n.engine.onTimeout_keeps _ hs
    rw [hm]
    exact h.pending id n hx.acts.here hs'
  · intro hcar j k hj hk hfr
    have hk' : k.Placed b.lastFall t := hx.before.placed k (List.mem_of_getElem? hk)
    rw [he] at hcar hd
    rcases Engine.onTimeout_carries hcar hd with ⟨f, hs⟩ | hs
    · have hf := h.follows id j n k hx.acts.here hk (by rw [hs]; rfl) hfr
      have hhigh := h.high_of_low hx hs
      have hlow : b.level = .low :=
        level_eq_low_iff.2 (.inr ⟨n, hmem, hn.sound.pulls _ hs rfl⟩)
      obtain ⟨hw, hfollow⟩ := hn.follows_rising hk' hx.due hf (.inr ⟨f, hs⟩) b.level
      have hedge : b.level.edge? c.level = some .rising := by rw [hlow, hhigh]; rfl
      show (k.after (b.level.edge? c.level) t).engine.Follows _
      rw [hedge, Node.after_of_waitsFor hw]
      exact hfollow
    · have hf := h.follows id j n k hx.acts.here hk (by rcases hs with hs | hs <;> rw [hs] <;> rfl) hfr
      have hans : k.engine.state = .follower .ackLow ∨ k.engine.state = .follower .ackVerify := by
        rcases hs with hs | hs <;> simp only [Engine.Follows, hs] at hf <;> exact hf.1
      have hsame : k.after (b.level.edge? c.level) t = k := by
        rcases hk'.state_after_calm (hx.calm (by rw [he]; exact hd)) with hsame | ⟨-, hw, -⟩
        · exact hsame
        · rcases hk'.sound.waits_rising hw with h | ⟨f, h⟩ <;> rw [h] at hans <;> simp at hans
      show (k.after (b.level.edge? c.level) t).engine.Follows _
      rw [hsame]
      exact Node.Placed.follows_ack hf hs b.level
  · intro hfr i k hi hk hcar
    rw [he] at hfr
    have hst := Engine.onTimeout_framed hfr
    have hf := h.follows i id k n hk hx.acts.here hcar (by rcases hst with h | ⟨h, -⟩ <;> rw [h] <;> rfl)
    have hk' : k.Placed b.lastFall t := hx.before.placed k (List.mem_of_getElem? hk)
    rcases hk'.follows_expire hn hx.due (hx.first k (List.mem_of_getElem? hk)) hf b.level with
      ⟨-, -, hf⟩ | ⟨hs, -, -, hf⟩ | ⟨hs, -⟩
    · exact hf
    · rcases hst with h | ⟨-, h⟩
      · rw [hs] at h
        cases h
      · exact hf h
    · rcases hst with h | ⟨h, -⟩ <;> rw [hs] at h <;> cases h
  · intro han hl
    rw [he] at han hl ⊢
    rcases Engine.onTimeout_framed (State.answers_framed han) with hs | ⟨hs, hr⟩
    · rw [Engine.onTimeout_follower_ackLow hs] at hl ⊢
      exact h.answers id n hx.acts.here (by rw [hs]; rfl) hl
    · rw [Engine.onTimeout_follower_ackVerify hs hr] at han
      cases han

/-- Whoever is within a frame when its initiator begins a new bit is in step with it, and a frame
that has no initiator any more is given up by then. -/
theorem Faithful.in_step (h : b.Faithful sent) (hx : Turn b t id n c)
    (hd : (n.expire b.level t).engine.state.drives = true) {j : Nat} {k : Node}
    (hk : b.nodes[j]? = some k) (hfr : (k.after (some .falling) t).engine.state.framed = true)
    (hcar : (n.expire b.level t).engine.state.carries = true ∨ k.engine.state.framed = true) :
    k.timer.waitsFor .falling = true ∧ (k.hear t).engine.Follows (n.expire b.level t).engine ∧
      n.engine.state.speaks = true := by
  have hn : n.Placed b.lastFall t := hx.before.placed n (List.mem_of_getElem? hx.acts.here)
  have hk' : k.Placed b.lastFall t := hx.before.placed k (List.mem_of_getElem? hk)
  have he : (n.expire b.level t).engine = (n.engine.onTimeout (some b.level)).engine := n.engine_expire _ _
  -- A follower within a frame does not wait for so long.
  have early : k.engine.state.framed = true → t ≤ b.lastFall + 4250 := by
    intro hf
    obtain ⟨u, hu, hle⟩ := hk'.framed_deadline hf
    exact Nat.le_trans (hx.first k (List.mem_of_getElem? hk) u hu) hle
  have late : k.engine.state = .follower .startHigh → b.lastFall + 3400 ≤ t := by
    intro hs
    have ha := hk'.anchored
    have hb := hk'.begun
    simp only [Node.Anchored, hs] at ha
    omega
  have heard : k.engine.state.framed = true ∨ k.timer.waitsFor .falling = true ∧
      k.engine.state = .follower .startHigh ∧
        (k.hear t).engine = { k.engine with state := .follower (.low .headerInit) } := by
    by_cases hw : k.timer.waitsFor .falling = true
    · rw [Node.after_of_waitsFor hw, Node.engine_hear] at hfr
      rcases Engine.onCapture_framed hfr with hf | ⟨hs, hf⟩
      · exact .inl hf
      · exact .inr ⟨hw, hs, (k.engine_hear t).trans hf⟩
    · rw [Node.after_of_not_waitsFor hw] at hfr
      exact .inl hfr
  have carried : n.engine.state.carries = true → k.timer.waitsFor .falling = true ∧
      (k.hear t).engine.Follows (n.expire b.level t).engine ∧ n.engine.state.speaks = true := by
    intro hc
    rcases heard with hf | ⟨-, hs, -⟩
    · obtain ⟨hw, hf⟩ := hn.follows_falling hk' hx.due (h.follows id j n k hx.acts.here hk hc hf) b.level hd
      exact ⟨hw, hf, State.carries_speaks hc⟩
    · have := late hs
      obtain ⟨u, hu, -, hle⟩ := hn.speaks_deadline (State.carries_speaks hc)
      rw [hx.due, Option.some.injEq] at hu
      have := hle (by rintro h; rw [h] at hc; cases hc) (by rintro h; rw [h] at hc; cases hc)
      omega
  obtain ⟨-, -, hsp⟩ := hx.expired.drives hd
  rcases hsp with hsp | hs
  · by_cases hc : n.engine.state.carries = true
    · exact carried hc
    · have hs : n.engine.state = .initiator .startHigh := by
        rcases State.speaks_cases hsp with hs | hs | hs
        · exact absurd hs hc
        · rw [he, Engine.onTimeout_startLow hs] at hd
          cases hd
        · exact hs
      have ht : t = b.lastFall + 4500 := hn.now_of_deadline hx.due hs (by simp)
      rcases heard with hf | ⟨hw, hk1, hk2⟩
      · have := early hf
        omega
      · refine ⟨hw, ?_, hsp⟩
        have hblank := hk'.sound.fit.blank (by rw [hk1]; rfl)
        rw [hk2, he, Engine.onTimeout_startHigh hs]
        exact ⟨rfl, .of_blank hblank (hn.sound.fit.busy _ hs).2⟩
  · have := hn.freeTime_deadline hs hx.due
    rcases hcar with hc | hf
    · rw [he, Engine.onTimeout_freeTime hs] at hc
      cases hc
    · have := early hf
      omega

theorem Faithful.strike (h : b.Faithful sent) (hx : Turn b t id n c) (hq : c.Quiet)
    (hd : (n.expire b.level t).engine.state.drives = true) : c.Faithful sent := by
  obtain ⟨hedge, others⟩ := hx.falling hd
  have he : (n.expire b.level t).engine = (n.engine.onTimeout (some b.level)).engine := n.engine_expire _ _
  obtain ⟨u, hu, -⟩ := State.drives_iff.1 hd
  have cases' : ∀ {j : Nat} {k}, c.nodes[j]? = some k → j = id ∧ k = n.expire b.level t ∨
      j ≠ id ∧ ∃ k', b.nodes[j]? = some k' ∧ k = k'.after (some .falling) t := by
    intro j k hk
    have := hx.acts.cases hk
    rwa [show ({ b with now := t } : Bus).level = b.level from rfl, hedge] at this
  refine ⟨hq, ?_, ?_, ?_⟩
  · intro i k hk hs
    rcases cases' hk with ⟨rfl, rfl⟩ | ⟨-, k', hk', rfl⟩
    · rw [he] at hs ⊢
      obtain ⟨hs', hm⟩ := n.engine.onTimeout_keeps _ hs
      rw [hm]
      exact h.pending i n hx.acts.here hs'
    · obtain ⟨hs', hm⟩ := k'.keeps_after _ _ hs
      rw [hm]
      exact h.pending i k' hk' hs'
  · intro i j p q hp hq' hcar hfr
    have hi : i = id := hq.alone i id p _ hp hx.acts.self (State.carries_speaks hcar) (by
      rw [hu]
      rw [hu] at hd
      cases u <;> simp_all [State.drives, State.speaks, Initiator.isLow])
    subst hi
    rw [hx.acts.self, Option.some.injEq] at hp
    subst hp
    rcases cases' hq' with ⟨-, rfl⟩ | ⟨hne, k, hk, rfl⟩
    · rw [hu] at hfr
      cases hfr
    · obtain ⟨hw, hf, -⟩ := h.in_step hx hd hk hfr (.inl hcar)
      rwa [Node.after_of_waitsFor hw]
  · intro j k hk han hl
    rcases cases' hk with ⟨-, rfl⟩ | ⟨hne, k', hk', rfl⟩
    · rw [hu] at han
      cases han
    · have hno := (others j k' hne hk').2
      have hframed : k'.engine.state.framed = true := by
        by_cases hw : k'.timer.waitsFor .falling = true
        · rw [Node.after_of_waitsFor hw, Node.engine_hear] at han
          rw [Engine.onCapture_answers han hno]
          rfl
        · rw [Node.after_of_not_waitsFor hw, hno] at han
          cases han
      obtain ⟨hw, hf, hsp⟩ := h.in_step hx hd hk' (State.answers_framed han) (.inr hframed)
      rw [Node.after_of_waitsFor hw] at han hl ⊢
      obtain ⟨hst, hcopy, heom⟩ := hf.of_answers han
      have hfit := hx.expired.placed.sound.fit
      have hcur : BitKind.eom.Within (n.expire b.level t).engine.tx.buffer.pos
          (n.expire b.level t).engine.tx.length := by
        rcases hst with hs | hs | hs <;> exact (hfit.busy _ hs).2
      have hlast := (hcopy.isLast heom hcur hfit.tx.length_le).symm.trans hl
      rw [hcopy.message hlast]
      have hsend : (n.expire b.level t).engine.isSending = true := (hfit.busy u hu).1
      refine ⟨Outgoing.message_ne_nil hsend, id, Ne.symm hne, ?_⟩
      rw [he] at hsend ⊢
      obtain ⟨hs', hm⟩ := n.engine.onTimeout_keeps _ hsend
      rw [hm]
      exact h.pending id n hx.acts.here hs'

theorem Faithful.expire (h : b.Faithful sent) (he : Expires b t id n c) : c.Faithful sent := by
  have hx := h.quiet.turn he
  have hq := h.quiet.expire he
  cases hd : (n.expire b.level t).engine.state.drives with
  | true => exact h.strike hx hq hd
  | false => exact h.lapse hx hq hd

theorem Faithful.still (h : b.Faithful sent) (hq : c.Quiet) (ha : Acts b id n m c) (hp : m.pulling = n.pulling)
    (hsub : ∀ p ∈ sent, p ∈ sent') (hs : m.engine.isSending = true → (id, m.engine.tx.message) ∈ sent')
    (hc : m.engine.state.carries = true → m.engine.state = n.engine.state ∧ m.engine.tx = n.engine.tx)
    (hf : m.engine.state.framed = true → m.engine.state = n.engine.state ∧ m.engine.rx = n.engine.rx) :
    c.Faithful sent' := by
  have he := ha.edge_none hp
  refine h.calm hq ha (by rw [he]; simp) hsub hs ?_ ?_ ?_
  · intro hcar j k _ hk hfr
    obtain ⟨hst, htx⟩ := hc hcar
    rw [he, Node.after_none]
    exact (h.follows id j n k ha.here hk (hst ▸ hcar) hfr).congr rfl rfl hst htx
  · intro hfr i k _ hk hcar
    obtain ⟨hst, hrx⟩ := hf hfr
    exact (h.follows i id k n hk ha.here hcar (hst ▸ hfr)).congr hst hrx rfl rfl
  · intro han hl
    obtain ⟨hst, hrx⟩ := hf (State.answers_framed han)
    rw [hrx] at hl ⊢
    exact (h.answers id n ha.here (hst ▸ han) hl).mono hsub

theorem Faithful.setEnabled {on : Bool} (h : b.Faithful sent)
    (ha : Acts b id n (n.absorb (n.engine.setEnabled on) b.now) c) : c.Faithful sent := by
  have hq := h.quiet.setEnabled ha
  have hn := h.quiet.placed n (List.mem_of_getElem? ha.here)
  have hx := hn.sound.switched on b.now
  generalize n.absorb (n.engine.setEnabled on) b.now = m at hx ha
  cases hx with
  | same => exact h.still hq ha rfl (fun _ hp => hp) (h.pending id n ha.here) (fun _ => ⟨rfl, rfl⟩) fun _ => ⟨rfl, rfl⟩
  | on hs hp =>
    refine h.still hq ha ?_ (fun _ hp => hp) ?_ ?_ ?_
    · exact (hn.sound.not_pulling_of_state (by rw [hs]; rfl)).symm
    · intro hsend
      rw [show n.engine.quit.isSending = n.engine.isSending from rfl, hp] at hsend
      cases hsend
    · intro hcar
      rw [Engine.not_carries_quit] at hcar
      cases hcar
    · intro hfr
      rw [Engine.not_framed_quit] at hfr
      cases hfr
  | off =>
    refine h.calm hq ha (ha.not_falling (by simp)) (fun _ hp => hp) ?_ ?_ ?_ ?_
    · intro hsend
      cases hsend
    · intro hcar
      cases hcar
    · intro hfr
      cases hfr
    · intro han
      cases han

theorem Faithful.send {msg : Message} {r : Reaction} (h : b.Faithful sent) (hr : n.engine.send msg = .ok r)
    (ha : Acts b id n (n.absorb r b.now) c) : c.Faithful (sent ++ [(id, msg)]) := by
  have hq := h.quiet.send hr ha
  have hn := h.quiet.placed n (List.mem_of_getElem? ha.here)
  obtain ⟨-, hm, hp, -⟩ := Engine.send_eq_ok_iff.1 hr
  have hload := n.engine.message_load hm
  have hsub : ∀ p ∈ sent, p ∈ sent ++ [(id, msg)] := fun p hp => List.mem_append_left _ hp
  by_cases hs : n.engine.state = .idle
  · rw [Node.absorb_send_of_idle hr hs] at ha
    refine h.still hq ha ?_ hsub ?_ ?_ ?_
    · exact (hn.sound.not_pulling_of_state (by rw [hs]; rfl)).symm
    · intro _
      show (id, (n.engine.load msg).tx.message) ∈ _
      rw [hload]
      simp
    · intro hcar
      cases hcar
    · intro hfr
      cases hfr
  · rw [Node.absorb_send_of_ne_idle hr hs] at ha
    refine h.still hq ha rfl hsub ?_ ?_ ?_
    · intro _
      rw [hload]
      simp
    · intro hcar
      rw [Engine.load_state] at hcar
      cases hst : n.engine.state with
      | initiator s =>
        rw [(hn.sound.fit.busy s hst).1] at hp
        cases hp
      | _ => rw [hst] at hcar; cases hcar
    · intro _
      exact ⟨n.engine.load_state msg, n.engine.load_rx msg⟩

theorem Faithful.setAddress {a : LogicalAddress} (h : b.Faithful sent) (hn : b.nodes[id]? = some n)
    (ha : Alters b id { n with engine := { n.engine with address := a } } c) : c.Faithful sent :=
  h.still (h.quiet.setAddress hn ha) (ha.acts hn rfl) rfl (fun _ hp => hp) (h.pending id n hn)
    (fun _ => ⟨rfl, rfl⟩) fun _ => ⟨rfl, rfl⟩

theorem preserved_faithful : Preserved Step.Clean Faithful where
  sound := fun h => h.quiet.nodesSound
  expire := Faithful.expire
  pass := fun h hb ht => h.at hb fun n hn u hu => Nat.le_of_lt (ht n hn u hu)
  send := fun _ h hr ha => h.send hr ha
  setEnabled := fun _ h ha => h.setEnabled ha
  setAddress := fun _ _ h hn ha => h.setAddress hn ha
  noise := fun _ ha => ha.elim

theorem Starts.faithful {as : List LogicalAddress} (h : Starts as b) : b.Faithful [] := by
  have hn : ∀ {i : Nat} {n}, b.nodes[i]? = some n → ∃ a, n = fresh a := by
    intro i n hi
    have hmem := List.mem_of_getElem? hi
    rw [h.nodes, List.mem_map] at hmem
    obtain ⟨a, -, rfl⟩ := hmem
    exact ⟨a, rfl⟩
  refine ⟨h.quiet, ?_, ?_, ?_⟩
  · intro i n hi hs
    obtain ⟨a, rfl⟩ := hn hi
    cases hs
  · intro i j n k hi _ hc
    obtain ⟨a, rfl⟩ := hn hi
    cases hc
  · intro j k hj hs
    obtain ⟨a, rfl⟩ := hn hj
    cases hs

/-- What node `j` has received since the bus was `b0`, if its address has not changed. -/
structure Delivers (b0 : Bus) (sent : List (Nat × Message)) (c : Bus) : Prop where
  faithful : c.Faithful sent
  nodes : ∀ (j : Nat) k, c.nodes[j]? = some k → ∃ k0, b0.nodes[j]? = some k0 ∧
    k.engine.address = k0.engine.address ∧ ∃ new, k.completions.toList = k0.completions.toList ++ new ∧
      ∀ t msg, (t, .received msg) ∈ new → FromOther sent j msg ∧
        ∃ head rest, msg = head :: rest ∧ k0.engine.hears (.destination head) = true

variable {b0 : Bus}

theorem Delivers.acts (h : Delivers b0 sent b) (hc : c.Faithful sent') (ha : Acts b id n m c)
    (hsub : ∀ p ∈ sent, p ∈ sent') (haddr : m.engine.address = n.engine.address) {l : List (Nat × Completion)}
    (hm : m.completions.toList = n.completions.toList ++ l)
    (hl : ∀ t msg, (t, .received msg) ∈ l → FromOther sent' id msg ∧
      ∃ head rest, msg = head :: rest ∧ n.engine.hears (.destination head) = true) : Delivers b0 sent' c := by
  refine ⟨hc, fun j k hk => ?_⟩
  rcases ha.cases hk with ⟨rfl, rfl⟩ | ⟨-, k', hk', rfl⟩
  · obtain ⟨k0, hk0, hadd, old, hold, hall⟩ := h.nodes j n ha.here
    refine ⟨k0, hk0, haddr.trans hadd, old ++ l, by rw [hm, hold, List.append_assoc], fun t msg hmem => ?_⟩
    rcases List.mem_append.1 hmem with hmem | hmem
    · obtain ⟨hf, hh⟩ := hall t msg hmem
      exact ⟨hf.mono hsub, hh⟩
    · obtain ⟨hf, head, rest, hmsg, hh⟩ := hl t msg hmem
      refine ⟨hf, head, rest, hmsg, ?_⟩
      rw [Engine.hears, hadd] at hh
      exact hh
  · obtain ⟨k0, hk0, hadd, old, hold, hall⟩ := h.nodes j k' hk'
    have hs := (h.faithful.quiet.placed k' (List.mem_of_getElem? hk')).sound
    refine ⟨k0, hk0, (k'.address_after _ _).trans hadd, old, (hs.completions_after _ _).trans hold, ?_⟩
    intro t msg hmem
    obtain ⟨hf, hh⟩ := hall t msg hmem
    exact ⟨hf.mono hsub, hh⟩

theorem Delivers.call {r : Reaction} (h : Delivers b0 sent b) (hc : c.Faithful sent')
    (ha : Acts b id n (n.absorb r b.now) c) (hsub : ∀ p ∈ sent, p ∈ sent') (hr : r.outcome = none)
    (haddr : r.engine.address = n.engine.address) : Delivers b0 sent' c := by
  refine h.acts hc ha hsub (l := []) ?_ ?_ ?_
  · rw [Node.engine_absorb, haddr]
  · rw [Node.completions_absorb, hr]
    rfl
  · simp

theorem Delivers.expire (h : Delivers b0 sent b) (he : Expires b t id n c) : Delivers b0 sent c := by
  have hat : Delivers b0 sent { b with now := t } :=
    ⟨h.faithful.at (h.faithful.quiet.turn he).later he.first, h.nodes⟩
  refine hat.acts (h.faithful.expire he) he.acts (fun _ hp => hp) (n.address_expire _ _)
    (n.completions_expire _ _) fun u msg hmem => ?_
  obtain ⟨v, hv, hmsg⟩ := List.mem_map.1 hmem
  obtain ⟨-, rfl⟩ := Prod.mk.inj hmsg
  obtain ⟨hs, hl, hh, rfl⟩ := Engine.received_of_verdict (Option.mem_toList.1 hv)
  have hfrom := h.faithful.answers id n he.acts.here (by rw [hs]; rfl) hl
  obtain ⟨rest, hrest⟩ := n.engine.rx.message_eq_cons hfrom.1
  exact ⟨hfrom, _, rest, hrest, hh⟩

def Step.Fixed (s : Step) : Prop := s.Clean ∧ ∀ id a, s ≠ .setAddress id a

theorem preserved_delivers (b0 : Bus) : Preserved Step.Fixed (Delivers b0) where
  sound := fun h => h.faithful.quiet.nodesSound
  expire := Delivers.expire
  pass := fun h hb ht => ⟨h.faithful.at hb fun n hn u hu => Nat.le_of_lt (ht n hn u hu), h.nodes⟩
  send := fun _ h hr ha => h.call (h.faithful.send hr ha) ha (fun _ hp => List.mem_append_left _ hp)
    (Engine.send_keeps hr).1 (Engine.send_keeps hr).2
  setEnabled := fun _ h ha => h.call (h.faithful.setEnabled ha) ha (fun _ hp => hp)
    (Engine.setEnabled_keeps _ _).1 (Engine.setEnabled_keeps _ _).2
  setAddress := fun hs => absurd rfl (hs.2 _ _)
  noise := fun _ hs => hs.1.elim

theorem mem_completionsSince {j : Nat} {p : Nat × Completion} (h : (j, p) ∈ c.completionsSince b) :
    ∃ k, c.nodes[j]? = some k ∧
      ∀ k0, b.nodes[j]? = some k0 → p ∈ k.completions.toList.drop k0.completions.size := by
  obtain ⟨⟨k, i⟩, hk, hp⟩ := List.mem_flatMap.1 h
  obtain ⟨q, hq, heq⟩ := List.mem_map.1 hp
  obtain ⟨rfl, rfl⟩ := Prod.mk.inj heq
  refine ⟨k, ?_, fun k0 hk0 => ?_⟩
  · exact (List.mem_zipIdx_iff_getElem?.1 hk)
  · simpa [hk0] using hq

/-- Whatever a node receives in a step was handed to another node before, byte for byte, and is
meant for this one or for all. -/
theorem received_was_sent {as : List LogicalAddress} {past : List (Step × Reply)} {k j t : Nat} {s : Step}
    {r : Reply} {msg : Message} (h : Reaches Step.Clean as past b) (hs : s.Clean)
    (hp : b.perform? k s = some (c, r)) (hm : (j, t, .received msg) ∈ c.completionsSince b) :
    (∃ i, i ≠ j ∧ (i, msg) ∈ accepted past) ∧
      ∃ n head rest, b.nodes[j]? = some n ∧ msg = head :: rest ∧
        (LogicalAddress.destination head = .broadcast ∨ LogicalAddress.destination head = n.engine.address) := by
  have hb : b.Faithful (accepted past) :=
    preserved_faithful.reaches (fun h => (starts_of_ofAddresses h).faithful) h
  obtain ⟨m, hmj, hmem⟩ := mem_completionsSince hm
  have start : Delivers b (accepted past) b := ⟨hb, fun j k hk => ⟨k, hk, rfl, [], by simp, by simp⟩⟩
  -- Nothing comes in while a frame is handed over or an address is changed.
  have silent : ∀ m0, b.nodes[j]? = some m0 → m.completions.toList ≠ m0.completions.toList := by
    intro m0 hm0 heq
    have := hmem m0 hm0
    rw [heq, ← Array.length_toList, List.drop_length] at this
    cases this
  have run : s.Fixed → accepted [(s, r)] = [] → Delivers b (accepted past) c := by
    intro hf ha
    have := (preserved_delivers b).perform hf start hp
    rwa [ha, List.append_nil] at this
  have ends : Delivers b (accepted past) c := by
    cases s with
    | glitch low => exact hs.elim
    | send id m' =>
      exfalso
      rcases perform?_send hb.quiet.nodesSound hp with ⟨rfl, -⟩ | ⟨-, n, q, hq, ha⟩
      · exact silent m hmj rfl
      · rcases ha.cases hmj with ⟨rfl, rfl⟩ | ⟨-, k', hk', rfl⟩
        · refine silent n ha.here ?_
          rw [Node.completions_absorb, (Engine.send_keeps hq).1]
          simp
        · have hsound := (hb.quiet.placed k' (List.mem_of_getElem? hk')).sound
          exact silent k' hk' (hsound.completions_after _ _)
    | setAddress id a =>
      exfalso
      rcases perform?_setAddress hp with rfl | ⟨n, hn, -, ha⟩
      · exact silent m hmj rfl
      · rcases (ha.acts hn rfl).cases hmj with ⟨rfl, rfl⟩ | ⟨-, k', hk', rfl⟩
        · exact silent n hn rfl
        · have hsound := (hb.quiet.placed k' (List.mem_of_getElem? hk')).sound
          exact silent k' hk' (hsound.completions_after _ _)
    | setEnabled id on => exact run ⟨trivial, by simp⟩ rfl
    | run => exact run ⟨trivial, by simp⟩ rfl
    | runFor ticks => exact run ⟨trivial, by simp⟩ rfl
  obtain ⟨n, hn, -, l, hl, hall⟩ := ends.nodes j m hmj
  have hin := hmem n hn
  rw [hl, ← Array.length_toList, List.drop_left] at hin
  obtain ⟨⟨-, hfrom⟩, head, rest, hmsg, hh⟩ := hall t msg hin
  refine ⟨hfrom, n, head, rest, hn, hmsg, ?_⟩
  simpa [Engine.hears, LogicalAddress.eq_broadcast_iff, or_comm] using hh

theorem received_was_sent_poll : ∃ b c, Reaches Step.Clean [⟨0⟩, ⟨4⟩] [(.send 0 [4], .ok)] b ∧
    b.perform? 100 .run = some (c, .nothing) ∧ (1, 37200, .received [4]) ∈ c.completionsSince b ∧
    (∃ i, i ≠ 1 ∧ (i, [4]) ∈ accepted [(.send 0 [4], .ok)]) ∧
      ∃ n head rest, b.nodes[1]? = some n ∧ [4] = head :: rest ∧
        (LogicalAddress.destination head = .broadcast ∨ LogicalAddress.destination head = n.engine.address) := by
  obtain ⟨a, ha⟩ := (@ofAddresses_eq_ok_iff [⟨0⟩, ⟨4⟩]).2 (by decide)
  have run : ((ofAddresses [⟨0⟩, ⟨4⟩]).toOption.any fun a => (a.perform? 1 (.send 0 [4])).any fun p =>
      p.2 = .ok && (p.1.perform? 100 .run).any fun q =>
        q.2 = .nothing && (q.1.completionsSince p.1).contains (1, 37200, .received [4])) = true := by
    decide +kernel
  rw [ha] at run
  simp only [Except.toOption, Option.any_some] at run
  obtain ⟨⟨b, r⟩, hb, hr⟩ := (Option.any_eq_true _ _).1 run
  rw [Bool.and_eq_true, decide_eq_true_eq] at hr
  obtain ⟨rfl, hr⟩ := hr
  obtain ⟨⟨c, r⟩, hc, hr⟩ := (Option.any_eq_true _ _).1 hr
  rw [Bool.and_eq_true, decide_eq_true_eq] at hr
  obtain ⟨rfl, hm⟩ := hr
  have hmem : (1, 37200, .received [4]) ∈ c.completionsSince b := by simpa using hm
  have hreach : Reaches Step.Clean [⟨0⟩, ⟨4⟩] [(.send 0 [4], .ok)] b := .perform (.start ha) trivial hb
  exact ⟨b, c, hreach, hc, hmem, received_was_sent (s := .run) hreach trivial hc hmem⟩

end Bus
end HdmiCec
