import HdmiCec.Proofs.Bus.Lockstep

/-! Frame follows frame. Between two frames everybody rests (`Bus.Between`); amid a frame one node
speaks and all others are in step with it (`Bus.Amid`). Every event leads from one to the other or
stays, and the ledger is kept all the while. -/
namespace HdmiCec

namespace Engine

variable {e : Engine} {s : Initiator}

/-- An attempt spends more than eleven edges only past its first ACK slot. -/
theorem spent_past (hf : e.Fit) (h : e.state = .initiator s) (hs : s ≠ .ackVerify) (line : Reading)
    (hlt : 11 * (e.tx.resends + 1) < (e.onTimeout line).engine.spent) : 11 * (e.tx.resends + 1) < e.spent := by
  rw [onTimeout_spent hf h hs] at hlt
  have he : e.spent = 11 * e.tx.resends + s.edges e.tx.buffer.pos := by simp only [spent, h]
  suffices hne : (e.onTimeout line).engine.state.drives = true → s.edges e.tx.buffer.pos ≠ 11 by
    split at hlt
    · next hd =>
      have := hne hd
      omega
    · omega
  intro hd
  cases s with
  | low f => rw [onTimeout_low h] at hd; cases hd
  | high f => cases f <;> simp only [Initiator.edges] <;> omega
  | ackLow => rw [onTimeout_ackLow h] at hd; cases hd
  | ackHigh => rw [onTimeout_ackHigh h] at hd; cases hd
  | ackVerify => exact absurd rfl hs
  | _ => simp [Initiator.edges]

/-- In the last part of an ACK slot the attempt has spent all the edges of its blocks. -/
theorem spent_ackVerify (h : e.state = .initiator .ackVerify) :
    e.spent = 11 * e.tx.resends + 10 * (e.tx.buffer.pos / 8) + 1 := by
  simp only [spent, h, Initiator.edges]
  omega

theorem verdict_of_initiator (h : e.state = .initiator s) (hs : s ≠ .ackVerify) : e.verdict = none := by
  cases s with
  | ackVerify => exact absurd rfl hs
  | _ => simp only [verdict, h]

end Engine

namespace Bus

variable {b0 b c : Bus} {i id t : Nat} {n m : Node} {sent : List (Nat × Message)} {ended : List Ending}

def Addressed (b : Bus) : Prop := ∀ k ∈ b.nodes, k.engine.address ≠ .broadcast

/-- What node `j` has seen yet of the frame of node `i`, whose last block began at `fall`. -/
def due (b0 : Bus) (i : Nat) (n : Node) (fall : Nat) (j : Nat) (k : Node) : List (Nat × Completion) :=
  if j ≠ i ∧ n.engine.tx.isLast = true ∧ k.engine.state.rests = true then
    b0.seen j ⟨i, n.engine.tx.message, fall + nominalBit⟩
  else []

theorem due_self (b0 : Bus) (i : Nat) (n : Node) (fall : Nat) (k : Node) : due b0 i n fall i k = [] := by
  simp [due]

structure Between (b0 : Bus) (sent : List (Nat × Message)) (ended : List Ending) (b : Bus) : Prop where
  ledger : Ledger b0 sent ended (fun _ _ => []) b
  rests : ∀ k ∈ b.nodes, k.engine.state.rests = true

structure Amid (b0 : Bus) (sent : List (Nat × Message)) (ended : List Ending) (i : Nat) (n : Node) (b : Bus) :
    Prop where
  here : b.nodes[i]? = some n
  speaks : n.engine.state.speaks = true
  ledger : Ledger b0 sent ended (due b0 i n b.lastFall) b
  before : ∀ e ∈ ended, e.time ≤ b.lastFall
  steps : ∀ (j : Nat) k, j ≠ i → b.nodes[j]? = some k → n.InStep k b.lastFall b.now
  /-- The ACK is judged right. -/
  acked : n.engine.state = .initiator .ackVerify → n.engine.tx.acked = b0.answered i n.engine.tx.message
  /-- Past its header there is only a frame that is acknowledged. -/
  past : 11 * (n.engine.tx.resends + 1) < n.engine.spent → b0.answered i n.engine.tx.message = true

/-- After a deadline of node `i`, which is `m` then, all others are in step with it. Nobody who is on is
done with the block. -/
def Abreast (b c : Bus) (i : Nat) (m : Node) (t : Nat) : Prop :=
  ∀ (j : Nat) k, j ≠ i → b.nodes[j]? = some k →
    m.InStep (k.after (b.level.edge? c.level) t) c.lastFall t ∧
      ((k.after (b.level.edge? c.level) t).engine.state.rests = true →
        (k.after (b.level.edge? c.level) t).engine.state = .disabled)

theorem due_of_off {due' : Nat → Node → List (Nat × Completion)} (h : Ledger b0 sent ended due' b) {fall j : Nat}
    {k k' : Node} (hk : b.nodes[j]? = some k) (hs : k'.station = k.station)
    (hoff : k'.engine.state.rests = true → k'.engine.state = .disabled) : due b0 i n fall j k' = [] := by
  unfold due
  split
  · next hc =>
    obtain ⟨hj, -, hr⟩ := hc
    rw [h.seen_eq hk (Ne.symm hj), if_neg]
    rintro ⟨hen, -⟩
    have hen' : k'.engine.isEnabled = k.engine.isEnabled := congrArg Prod.fst hs
    rw [hen, Engine.isEnabled, hoff hr] at hen'
    cases hen'
  · rfl

theorem Ledger.send {due due' : Nat → Node → List (Nat × Completion)} {msg : Message} {r : Reaction}
    (h : Ledger b0 sent ended due b) (hr : n.engine.send msg = .ok r) (ha : Acts b id n (n.absorb r b.now) c)
    (hdue : due id n = due' id (n.absorb r b.now))
    (hothers : ∀ (j : Nat) k, j ≠ id → b.nodes[j]? = some k → due j k = due' j k) :
    Ledger b0 (sent ++ [(id, msg)]) ended due' c := by
  have ht := (h.place ha.here).sound.takes hr b.now
  have hnone := ha.edge_none ht.pulling
  have hwait : n.engine.waiting id = [] := by rw [Engine.waiting, ht.free]; rfl
  have := h.acts [(id, msg)] [] due' (h.quiet.send hr ha) ha ht.station (by simp)
    (by simp) (by simp [hwait, ht.waiting]) ⟨[], by rw [ht.completions, List.append_nil], by simpa using hdue⟩
    ?_ (fun _ _ => ht.resends) (by simpa using h.times) (by simp) (by simp [hnone, ht.spent, sumOver_nil]) ?_
  · rwa [List.append_nil] at this
  · intro j k hj hk
    rw [hnone, Node.after_none]
    simpa using hothers j k hj hk
  · intro j k _ _
    rw [hnone, Node.after_none]

/-! Between two frames. -/

section between

theorem Between.at (h : Between b0 sent ended b) (hb : b.now ≤ t)
    (ht : ∀ n ∈ b.nodes, ∀ u, n.timer.deadline? = some u → t ≤ u) : Between b0 sent ended { b with now := t } :=
  ⟨h.ledger.at hb ht, h.rests⟩

/-- An engine that is on and between two frames takes whatever edge goes down for a new start bit. -/
theorem follows_start {k : Node} {fall now : Nat} (hk : k.Placed fall now)
    (hr : k.engine.state = .disabled ∨ k.engine.state = .idle ∨ k.engine.state = .initiator .freeTime)
    (hm : m.engine.state = .initiator .startLow) : m.InStep (k.after (some .falling) now) now now := by
  rcases hr with hs | hs | hs
  · rw [Node.after_of_disabled hk.sound hs]
    exact .off hs
  · have he := Engine.onCapture_idle (t := k.timer.elapsed now) hs
    rw [← k.engine_hear now] at he
    rw [Node.after_of_waitsFor ((hk.sound.waitsFor_of_idle hs).2 rfl)]
    refine .follows ?_ (.of_not_answers (by rw [he]; rfl))
    simp only [Engine.Follows, hm, he]
  · have he := Engine.onCapture_initiator (t := k.timer.elapsed now) hs (.inl rfl)
    rw [← k.engine_hear now] at he
    rw [Node.after_of_waitsFor ((hk.sound.waitsFor_of_initiator hs).2 rfl)]
    refine .follows ?_ (.of_not_answers (by rw [he]; rfl))
    simp only [Engine.Follows, hm, he]

/-- The free time of a node is over. All others are done with the frame before and listen. -/
theorem Between.begin (h : Between b0 sent ended b) (he : Expires b t id n c)
    (hs : n.engine.state = .initiator .freeTime) : ∃ m, Amid b0 sent ended id m c := by
  have hx := h.ledger.quiet.turn he
  have hq := h.ledger.quiet.expire he
  have hat := h.at hx.later hx.first
  have hn : n.Placed b.lastFall t := hat.ledger.place hx.acts.here
  have hm := n.engine_expire b.level t
  rw [Engine.onTimeout_freeTime hs] at hm
  have hd : (n.expire b.level t).engine.state.drives = true := by rw [hm]; rfl
  obtain ⟨hedge, ho⟩ := hx.falling hd
  have hlate := hn.freeTime_deadline hs hx.due
  have hfall := hx.lastFall_of_drives hd
  have hstart : (n.expire b.level t).engine.state = .initiator .startLow := by rw [hm]
  have hsteps : ∀ (j : Nat) k, j ≠ id → b.nodes[j]? = some k →
      (n.expire b.level t).InStep (k.after (some .falling) t) t t := by
    intro j k hj hk
    have hk' : k.Placed b.lastFall t := hat.ledger.place hk
    refine follows_start hk' ?_ hstart
    rcases State.rests_cases (h.rests k (List.mem_of_getElem? hk)) with hr | hr | hr | hr
    · exact .inl hr
    · exact .inr (.inl hr)
    · exact .inr (.inr hr)
    · obtain ⟨u, hu, hle⟩ := hk'.framed_deadline (by rw [hr]; rfl)
      have := hx.first k (List.mem_of_getElem? hk) u hu
      omega
  have hsame : (n.expire b.level t).engine.tx.Same n.engine.tx := by rw [hm]; exact ⟨rfl, rfl, rfl⟩
  have hverdict : n.engine.verdict = none := by simp only [Engine.verdict, hs]
  have hspent := Engine.onTimeout_spent hn.sound.fit hs (by simp) (some b.level)
  rw [← n.engine_expire b.level t, if_pos hd] at hspent
  have hzero : n.engine.spent = 11 * n.engine.tx.resends := Engine.spent_of_not_speaks (by rw [hs]; rfl)
  refine ⟨_, hx.acts.self, by rw [hm]; rfl, ?_, ?_, ?_, ?_, ?_⟩
  · refine hat.ledger.keep hq hx.acts (hn.sound.station_expire hx.due _ _) hsame ⟨[], ?_, ?_⟩ ?_ ?_ ?_
    · rw [Node.completions_expire, hverdict]
      rfl
    · rw [due_self]
      rfl
    · intro j k hj hk
      show [] = due b0 id _ _ j (k.after (b.level.edge? c.level) t)
      rw [hedge]
      exact (due_of_off hat.ledger hk ((hat.ledger.place hk).sound.kept_after _ _).station
        ((hsteps j k hj hk).off_of_rests (by rw [hstart]; simp))).symm
    · rw [hspent]
      exact congrArg _ (if_pos hedge).symm
    · intro j k hj hk
      exact hx.others Engine.spent (fun _ _ => Engine.spent_congr) hj hk
  · intro e hmem
    have := h.ledger.recent e hmem
    simp only [nominalBit] at this
    omega
  · intro j k hj hk
    rcases hx.acts.cases hk with ⟨rfl, -⟩ | ⟨-, k', hk', rfl⟩
    · exact absurd rfl hj
    · rw [hfall, hx.acts.now]
      show (n.expire b.level t).InStep (k'.after (b.level.edge? c.level) t) t t
      rw [hedge]
      exact hsteps j k' hj hk'
  · intro hv
    rw [hstart] at hv
    cases hv
  · intro hlt
    have hr := hsame.resends
    omega

theorem Between.lapse (h : Between b0 sent ended b) (he : Expires b t id n c)
    (hs : n.engine.state = .follower .ackFinish) : Between b0 sent ended c := by
  have hx := h.ledger.quiet.turn he
  have hat := h.at hx.later hx.first
  have hn : n.Placed b.lastFall t := hat.ledger.place hx.acts.here
  have hm := n.engine_expire b.level t
  rw [Engine.onTimeout_follower hs (by simp) (by simp)] at hm
  have hd : (n.expire b.level t).engine.state.drives = false := by
    rcases n.engine.quit_state with ⟨hq, -⟩ | ⟨hq, -⟩ <;> rw [hm, hq] <;> rfl
  have hsame : (n.expire b.level t).engine.tx.Same n.engine.tx := by rw [hm]; exact Engine.same_quit _
  have hspent : (n.expire b.level t).engine.spent = n.engine.spent :=
    Engine.spent_congr hsame (by rw [hm]; exact Engine.not_speaks_quit _) (by rw [hs]; rfl)
  have hnone : (if b.level.edge? c.level = some .falling then 1 else 0) = 0 := if_neg (hx.calm hd)
  refine ⟨?_, hx.acts.forall_mem ?_ fun j k _ hk => ?_⟩
  · refine hat.ledger.keep (h.ledger.quiet.expire he) hx.acts (hn.sound.station_expire hx.due _ _) hsame
      ⟨[], ?_, rfl⟩ (fun _ _ _ _ => rfl) (hspent.trans (congrArg (n.engine.spent + ·) hnone.symm)) ?_
    · rw [Node.completions_expire]
      simp [Engine.verdict, hs]
    · exact fun j k hj hk => hx.others Engine.spent (fun _ _ => Engine.spent_congr) hj hk
  · rw [hm]
    exact Engine.rests_quit _
  · have hr := h.rests k (List.mem_of_getElem? hk)
    show (k.after (b.level.edge? c.level) t).engine.state.rests = true
    rw [(hat.ledger.place hk).sound.after_of_rests hr (hx.calm hd)]
    exact hr

theorem Between.send {msg : Message} {r : Reaction} (h : Between b0 sent ended b) (hr : n.engine.send msg = .ok r)
    (ha : Acts b id n (n.absorb r b.now) c) : Between b0 (sent ++ [(id, msg)]) ended c := by
  have ht := (h.ledger.place ha.here).sound.takes hr b.now
  refine ⟨h.ledger.send hr ha rfl fun _ _ _ _ => rfl, ha.forall_mem ?_ fun j k _ hk => ?_⟩
  · rw [ht.rests]
    exact h.rests n (List.mem_of_getElem? ha.here)
  · rw [ha.edge_none ht.pulling]
    exact h.rests k (List.mem_of_getElem? hk)

end between

/-! Amid a frame. -/

section amid

theorem Amid.place (h : Amid b0 sent ended i n b) : n.Placed b.lastFall b.now := h.ledger.place h.here

theorem Amid.at (h : Amid b0 sent ended i n b) (hb : b.now ≤ t)
    (ht : ∀ n ∈ b.nodes, ∀ u, n.timer.deadline? = some u → t ≤ u) : Amid b0 sent ended i n { b with now := t } :=
  ⟨h.here, h.speaks, h.ledger.at hb ht, h.before, fun j k hj hk => (h.steps j k hj hk).at hb, h.acked, h.past⟩

theorem Amid.next (h : Amid b0 sent ended i n b) (hx : Turn b t i n c) (hq : c.Quiet)
    (hsp : (n.expire b.level t).engine.state.speaks = true)
    (hs : n.engine.state ≠ .initiator .ackVerify ∨ n.engine.tx.isLast = false) (hv : n.engine.verdict = none)
    (hsame : (n.expire b.level t).engine.tx.Same n.engine.tx)
    (hspent : (n.expire b.level t).engine.spent =
      n.engine.spent + if (n.expire b.level t).engine.state.drives = true then 1 else 0)
    (hsteps : b.Abreast c i (n.expire b.level t) t)
    (hacked : (n.expire b.level t).engine.state = .initiator .ackVerify →
      (n.expire b.level t).engine.tx.acked = b0.answered i n.engine.tx.message)
    (hpast : 11 * (n.engine.tx.resends + 1) < (n.expire b.level t).engine.spent →
      b0.answered i n.engine.tx.message = true) :
    Amid b0 sent ended i (n.expire b.level t) c := by
  have hat := h.at hx.later hx.first
  have hmsg := Outgoing.message_congr hsame.length hsame.bits
  have hdrives : (if b.level.edge? c.level = some .falling then 1 else 0) =
      if (n.expire b.level t).engine.state.drives = true then 1 else 0 := by
    cases hd : (n.expire b.level t).engine.state.drives with
    | true => exact if_pos (hx.falling hd).1
    | false => exact if_neg (hx.calm hd)
  refine ⟨hx.acts.self, hsp, ?_, ?_, ?_, ?_, ?_⟩
  · refine hat.ledger.keep hq hx.acts (hat.place.sound.station_expire hx.due _ _) hsame ⟨[], ?_, ?_⟩ ?_ ?_ ?_
    · rw [Node.completions_expire, hv]
      rfl
    · rw [due_self, due_self]
      rfl
    · intro j k hj hk
      have hnew : due b0 i (n.expire b.level t) c.lastFall j (k.after (b.level.edge? c.level) t) = [] :=
        due_of_off hat.ledger hk ((hat.ledger.place hk).sound.kept_after _ _).station (hsteps j k hj hk).2
      refine Eq.trans ?_ hnew.symm
      rcases hs with hs | hs
      · exact due_of_off hat.ledger hk rfl ((hat.steps j k hj hk).off_of_rests hs)
      · simp [due, hs]
    · exact hspent.trans (congrArg _ hdrives.symm)
    · exact fun j k hj hk => hx.others Engine.spent (fun _ _ => Engine.spent_congr) hj hk
  · exact fun e he => Nat.le_trans (h.before e he) hx.lastFall_le
  · intro j k hj hk
    rcases hx.acts.cases hk with ⟨rfl, -⟩ | ⟨-, k', hk', rfl⟩
    · exact absurd rfl hj
    · rw [hx.acts.now]
      exact (hsteps j k' hj hk').1
  · rw [hmsg]
    exact hacked
  · rw [hmsg, hsame.resends]
    exact hpast

theorem Amid.next_within {s : Initiator} (h : Amid b0 sent ended i n b) (hx : Turn b t i n c) (hq : c.Quiet)
    (hs : n.engine.state = .initiator s) (hne : s ≠ .ackVerify)
    (hsp : (n.expire b.level t).engine.state.speaks = true)
    (hsteps : b.Abreast c i (n.expire b.level t) t)
    (hacked : (n.expire b.level t).engine.state = .initiator .ackVerify →
      (n.expire b.level t).engine.tx.acked = b0.answered i n.engine.tx.message) :
    Amid b0 sent ended i (n.expire b.level t) c := by
  have hfit := h.place.sound.fit
  have he := n.engine_expire b.level t
  refine h.next hx hq hsp (.inl (by rw [hs]; simpa using hne)) (Engine.verdict_of_initiator hs hne) ?_ ?_ hsteps
    hacked fun hlt => h.past ?_
  · rw [he]
    exact Engine.onTimeout_same (by rw [hs]; simpa using hne) _
  · rw [he]
    exact Engine.onTimeout_spent hfit hs hne _
  · rw [he] at hlt
    exact Engine.spent_past hfit hs hne _ hlt

theorem Amid.strike (h : Amid b0 sent ended i n b) (hx : Turn b t i n c) (hq : c.Quiet)
    (hd : (n.expire b.level t).engine.state.drives = true) : Amid b0 sent ended i (n.expire b.level t) c := by
  have hat := h.at hx.later hx.first
  obtain ⟨hedge, -⟩ := hx.falling hd
  have hfall := hx.lastFall_of_drives hd
  have hnot := State.ne_ackVerify_of_drives hd
  have hsp := State.speaks_of_drives hd
  have hsteps : b.Abreast c i (n.expire b.level t) t := by
    intro j k hj hk
    have hin := (hat.steps j k hj hk).falling hat.place (hat.ledger.place hk) hx.due b.level hd
    rw [hedge, hfall]
    exact ⟨hin, hin.off_of_rests hnot⟩
  have hacked : (n.expire b.level t).engine.state = .initiator .ackVerify →
      (n.expire b.level t).engine.tx.acked = b0.answered i n.engine.tx.message := fun hv => absurd hv hnot
  obtain ⟨s, hst, -⟩ := State.initiator_of_speaks h.speaks
  by_cases hne : s = .ackVerify
  · subst hne
    have he := n.engine_expire b.level t
    have hd' := hd
    rw [he] at hd'
    obtain ⟨ha, hl⟩ := Engine.acked_of_drives hst hd'
    rw [Engine.onTimeout_acked hst ha hl] at he
    have hpos := (h.place.sound.fit.busy _ hst).2
    simp only [Initiator.Cursor, BitKind.Within] at hpos
    refine h.next hx hq hsp (.inr hl) ?_ ?_ ?_ hsteps hacked fun _ => ?_
    · simp [Engine.verdict, hst, ha, hl]
    · rw [he]; exact .refl
    · rw [if_pos hd, Engine.spent_ackVerify hst, he]
      simp only [Engine.spent, Initiator.edges]
      omega
    · rw [← h.acked hst]
      exact ha
  · exact h.next_within hx hq hst hne hsp hsteps hacked

theorem Amid.release (h : Amid b0 sent ended i n b) (hx : Turn b t i n c) (hq : c.Quiet)
    (hs : n.engine.state = .initiator .startLow ∨ ∃ f, n.engine.state = .initiator (.low f)) :
    Amid b0 sent ended i (n.expire b.level t) c := by
  have hat := h.at hx.later hx.first
  have he := n.engine_expire b.level t
  have hm : (n.expire b.level t).engine.state.drives = false ∧ (n.expire b.level t).engine.state.speaks = true ∧
      (n.expire b.level t).engine.state ≠ .initiator .ackVerify ∧
        (n.expire b.level t).engine.state.mayPull = false := by
    rcases hs with hs | ⟨f, hs⟩
    · rw [he, Engine.onTimeout_startLow hs]
      exact ⟨rfl, rfl, by simp, rfl⟩
    · rw [he, Engine.onTimeout_low hs]
      exact ⟨rfl, rfl, by simp, rfl⟩
  obtain ⟨hd, hsp, hnot, hmay⟩ := hm
  have hlow : b.level = .low := by
    refine level_eq_low_iff.2 (.inr ⟨n, List.mem_of_getElem? h.here, ?_⟩)
    rcases hs with hs | ⟨f, hs⟩ <;> exact h.place.sound.pulls _ hs rfl
  have hhigh : c.level = .high :=
    hx.acts.level_high h.ledger.quiet.noise (hx.expired.placed.sound.not_pulling_of_state hmay)
      fun j k hj hk => (h.steps j k hj hk).not_pulling (h.ledger.place hk).sound hs
  have hedge : b.level.edge? c.level = some .rising := by rw [hlow, hhigh]; rfl
  have hsteps : b.Abreast c i (n.expire b.level t) t := by
    intro j k hj hk
    have hin := (hat.steps j k hj hk).rising hat.place (hat.ledger.place hk) hx.due hs b.level
    rw [hedge, hx.lastFall_of_calm hd]
    exact ⟨hin, hin.off_of_rests hnot⟩
  rcases hs with hs | ⟨f, hs⟩
  · exact h.next_within hx hq hs (by simp) hsp hsteps fun hv => absurd hv hnot
  · exact h.next_within hx hq hs (by simp) hsp hsteps fun hv => absurd hv hnot

theorem Amid.level_low_iff (h : Amid b0 sent ended i n b) (hs : n.Listens) :
    b.level = .low ↔ ∃ j k, j ≠ i ∧ b.nodes[j]? = some k ∧ k.pulling = true := by
  have hp : n.pulling = false :=
    h.place.sound.not_pulling_of_state (by rcases hs with hs | hs <;> rw [hs] <;> rfl)
  rw [level_self h.here, h.ledger.quiet.noise, hp]
  simp

theorem Amid.level_broadcast (h : Amid b0 sent ended i n b) (h0 : b0.Addressed) (hs : n.Listens)
    (hb : n.engine.tx.message.destination = .broadcast) : b.level = .high := by
  refine level_ne_low.1 fun hl => ?_
  obtain ⟨j, k, hj, hk, hp⟩ := (h.level_low_iff hs).1 hl
  obtain ⟨-, ha⟩ := (h.steps j k hj hk).addressed h.place.sound (h.ledger.place hk).sound hs hp
  obtain ⟨k0, hk0, -, ha0⟩ := h.ledger.station hk
  exact h0 k0 (List.mem_of_getElem? hk0) (ha0.trans (ha.trans hb))

/-- The line is read as low exactly if somebody acknowledges the block. -/
theorem Amid.reads (h : Amid b0 sent ended i n b) (h0 : b0.Addressed)
    (hs : n.engine.state = .initiator .ackHigh) :
    (Reading.isLow (some b.level) != n.engine.tx.isBroadcast) = b0.answered i n.engine.tx.message := by
  rw [Outgoing.isBroadcast_eq (h.place.sound.fit.busy _ hs).1]
  cases hb : n.engine.tx.message.destination.isBroadcast with
  | true =>
    rw [h.level_broadcast h0 (.inl hs) (LogicalAddress.eq_broadcast_iff.1 hb), answered, hb]
    rfl
  | false =>
    rw [Bool.eq_iff_iff, answered_iff]
    have hne : n.engine.tx.message.destination ≠ .broadcast := by
      intro he
      rw [LogicalAddress.eq_broadcast_iff.2 he] at hb
      cases hb
    have hlow : (Reading.isLow (some b.level) != false) = true ↔ b.level = .low := by
      cases b.level <;> decide
    rw [hlow, h.level_low_iff (.inl hs)]
    constructor
    · rintro ⟨j, k, hj, hk, hp⟩
      obtain ⟨hen, ha⟩ := (h.steps j k hj hk).addressed h.place.sound (h.ledger.place hk).sound (.inl hs) hp
      obtain ⟨k0, hk0, hen0, ha0⟩ := h.ledger.station hk
      exact .inr ⟨j, k0, hj, hk0, hen0.trans hen, ha0.trans ha⟩
    · rintro (he | ⟨j, k0, hj, hk0, hen0, ha0⟩)
      · exact absurd he hne
      · obtain ⟨k, hk, hen, ha⟩ := h.ledger.station_start hk0
        exact ⟨j, k, hj, hk, (h.steps j k hj hk).pulls h.place.sound hs (hen.trans hen0) (ha.trans ha0)⟩

/-- The speaker leaves the ACK slot to the others, and reads the line in the midst of it. -/
theorem Amid.slot (h : Amid b0 sent ended i n b) (h0 : b0.Addressed) (hx : Turn b t i n c) (hq : c.Quiet)
    (hs : n.engine.state = .initiator .ackLow ∨ n.engine.state = .initiator .ackHigh) :
    Amid b0 sent ended i (n.expire b.level t) c := by
  have hat := h.at hx.later hx.first
  have he := n.engine_expire b.level t
  have hd : (n.expire b.level t).engine.state.drives = false := by
    rw [he]
    rcases hs with hs | hs
    · rw [Engine.onTimeout_ackLow hs]; rfl
    · rw [Engine.onTimeout_ackHigh hs]; rfl
  have hsteps : b.Abreast c i (n.expire b.level t) t := by
    intro j k hj hk
    have hin := hat.steps j k hj hk
    rw [hin.unmoved (hat.ledger.place hk).sound (hs.imp_right .inl) (hx.calm hd), hx.lastFall_of_calm hd]
    exact ⟨hin.slot hs b.level, hin.off_of_rests (by rcases hs with hs | hs <;> rw [hs] <;> simp)⟩
  rcases hs with hs | hs
  · refine h.next_within hx hq hs (by simp) (by rw [he, Engine.onTimeout_ackLow hs]; rfl) hsteps fun hv => ?_
    rw [he, Engine.onTimeout_ackLow hs] at hv
    cases hv
  · refine h.next_within hx hq hs (by simp) (by rw [he, Engine.onTimeout_ackHigh hs]; rfl) hsteps fun _ => ?_
    rw [he, Engine.onTimeout_ackHigh hs]
    exact h.reads h0 hs

theorem Amid.close (h : Amid b0 sent ended i n b) (fin : List Ending) (hx : Turn b t i n c) (hq : c.Quiet)
    (hs : n.engine.state = .initiator .ackVerify) (ht : t = b.lastFall + nominalBit)
    (hr : (n.expire b.level t).engine.state.rests = true) (hd : (n.expire b.level t).engine.state.drives = false)
    (hfin : ∀ e ∈ fin, e.node = i ∧ e.time = t) (hone : fin.Pairwise (·.time < ·.time))
    (hframes : n.engine.waiting i = fin.map Ending.frame ++ (n.expire b.level t).engine.waiting i)
    (hlog : n.engine.verdict.toList.map (t, ·) = fin.flatMap (b0.seen i))
    (hdue : ∀ (j : Nat) k, j ≠ i → b.nodes[j]? = some k → k.engine.state.rests = true →
      due b0 i n b.lastFall j k = fin.flatMap (b0.seen j))
    (hfresh : (n.expire b.level t).engine.isSending = true →
      b0.answered i (n.expire b.level t).engine.tx.message = true →
      (n.expire b.level t).engine.tx.resends = 0)
    (hspent : (n.expire b.level t).engine.spent + sumOver b0.cost fin = n.engine.spent) :
    Between b0 sent (ended ++ fin) c := by
  have hat := h.at hx.later hx.first
  have hfall := hx.lastFall_of_calm hd
  have hrest : ∀ (j : Nat) k, j ≠ i → b.nodes[j]? = some k → k.engine.state.rests = true := by
    intro j k hj hk
    have hlate : b.lastFall + 1500 < t := by simp only [nominalBit] at ht; omega
    exact (hat.steps j k hj hk).rests (hat.ledger.place hk) hs hlate
  refine ⟨?_, hx.acts.forall_mem hr fun j k hj hk => ?_⟩
  · have := hat.ledger.acts [] fin (fun _ _ => []) hq hx.acts
      (hat.place.sound.station_expire hx.due _ _) (by simp) (fun e he => (hfin e he).1) (by simpa using hframes)
      ⟨_, n.completions_expire b.level t, by rw [due_self, List.append_nil]; exact hlog⟩
      (fun j k hj hk => by rw [List.append_nil]; exact hdue j k hj hk (hrest j k hj hk)) hfresh ?_ ?_ ?_
      fun j k hj hk => hx.others Engine.spent (fun _ _ => Engine.spent_congr) hj hk
    · rwa [List.append_nil] at this
    · refine List.pairwise_append.2 ⟨h.ledger.times, hone, fun e he e' he' => ?_⟩
      have hle := h.before e he
      have heq := (hfin e' he').2
      simp only [nominalBit] at ht
      omega
    · intro e he
      have heq := (hfin e he).2
      omega
    · have hnone : (if b.level.edge? c.level = some .falling then 1 else 0) = 0 := if_neg (hx.calm hd)
      exact hspent.trans (congrArg (n.engine.spent + ·) hnone.symm)
  · have hr' := hrest j k hj hk
    show (k.after (b.level.edge? c.level) t).engine.state.rests = true
    rw [(hat.ledger.place hk).sound.after_of_rests hr' (hx.calm hd)]
    exact hr'

theorem Amid.conclude (h : Amid b0 sent ended i n b) (hx : Turn b t i n c) (hq : c.Quiet)
    (hs : n.engine.state = .initiator .ackVerify) (ht : t = b.lastFall + nominalBit)
    (he : (n.expire b.level t).engine = { n.engine with tx := n.engine.tx.finish }.quit)
    (hv : n.engine.verdict = some (if b0.answered i n.engine.tx.message then .sendOk else .sendFailed))
    (hl : b0.answered i n.engine.tx.message = true → n.engine.tx.isLast = true)
    (hspent : n.engine.spent = b0.cost ⟨i, n.engine.tx.message, t⟩) :
    ∃ ended', Between b0 sent ended' c := by
  have hp := (h.place.sound.fit.busy _ hs).1
  have hstate : (n.expire b.level t).engine.state = .idle := by rw [he]; rfl
  have hsending : (n.expire b.level t).engine.isSending = false := by rw [he]; rfl
  refine ⟨_, h.close [⟨i, n.engine.tx.message, t⟩] hx hq hs ht (by rw [hstate]; rfl)
    (by rw [hstate]; rfl) (by simp) (by simp) ?_ ?_ ?_ ?_ ?_⟩
  · rw [Engine.waiting, Engine.waiting, if_pos hp, if_neg (by rw [hsending]; decide)]
    rfl
  · rw [hv]
    simp [seen]
  · intro j k hj hk hr
    rw [List.flatMap_singleton, due]
    split
    · rw [ht]
    · next hc =>
      cases hans : b0.answered i n.engine.tx.message with
      | true => exact absurd ⟨hj, hl hans, hr⟩ hc
      | false => exact (seen_of_not_answered (e := ⟨i, _, t⟩) (Ne.symm hj) hans).symm
  · intro hsend
    rw [hsending] at hsend
    cases hsend
  · rw [Engine.spent_of_not_speaks (by rw [hstate]; rfl), hspent, he]
    simp [Engine.quit, Engine.rest, Outgoing.rewind, Outgoing.finish, sumOver_cons, sumOver_nil]

theorem Amid.finish (h : Amid b0 sent ended i n b) (hx : Turn b t i n c) (hq : c.Quiet)
    (hs : n.engine.state = .initiator .ackVerify)
    (hend : n.engine.tx.acked = true → n.engine.tx.isLast = true) : ∃ ended', Between b0 sent ended' c := by
  have he := n.engine_expire b.level t
  have ht : t = b.lastFall + nominalBit :=
    (hx.before.placed n (List.mem_of_getElem? hx.acts.here)).now_of_deadline hx.due hs (by simp)
  obtain ⟨hp, hpos⟩ := h.place.sound.fit.busy _ hs
  have hresends := h.place.sound.fit.tx.resends_le
  have hspent := Engine.spent_ackVerify hs
  have hack := h.acked hs
  simp only [Initiator.Cursor, BitKind.Within] at hpos
  cases ha : n.engine.tx.acked with
  | true =>
    have hl := hend ha
    have hlen : n.engine.tx.buffer.pos = 8 * n.engine.tx.length := by
      simpa [Outgoing.isLast, BitBuffer.atEnd] using hl
    have hzero := h.ledger.fresh i n h.here hp (hack.symm.trans ha)
    refine h.conclude hx hq hs ht (he.trans (Engine.onTimeout_sent hs ha hl)) ?_ (fun _ => hl) ?_
    · simp [Engine.verdict, hs, ← hack, ha, hl]
    · rw [cost, if_pos (hack.symm.trans ha), Outgoing.length_message, hspent, hzero]
      omega
  | false =>
    -- Nobody refuses a block after the header, so that only the header has been sent.
    have hone : n.engine.tx.buffer.pos / 8 = 1 := by
      have hpast := mt h.past
      rw [← hack, ha, hspent] at hpast
      have := hpast (by decide)
      omega
    by_cases hr : n.engine.tx.resends < Outgoing.maxResends
    · rw [Engine.onTimeout_resend hs ha hr] at he
      have hm : (n.expire b.level t).engine.state = .initiator .freeTime := by rw [he]
      refine ⟨ended, ?_⟩
      have := h.close [] hx hq hs ht (by rw [hm]; rfl) (by rw [hm]; rfl) (by simp) (by simp) ?_ ?_ ?_ ?_ ?_
      · rwa [List.append_nil] at this
      · rw [he, Engine.waiting, Engine.waiting]
        rfl
      · simp [Engine.verdict, hs, ha, hr]
      · intro j k hj hk _
        rw [List.flatMap_nil, due]
        split
        · exact seen_of_not_answered (Ne.symm hj) (hack.symm.trans ha)
        · rfl
      · intro _ hans
        rw [he] at hans
        have : n.engine.tx.acked = true := hack.trans hans
        rw [ha] at this
        cases this
      · rw [Engine.spent_of_not_speaks (by rw [hm]; rfl), hspent, he]
        show 11 * (n.engine.tx.resends + 1) + 0 = _
        omega
    · refine h.conclude hx hq hs ht (he.trans (Engine.onTimeout_failed hs ha hr)) ?_ ?_ ?_
      · simp [Engine.verdict, hs, ← hack, ha, hr]
      · intro hans
        rw [← hack, ha] at hans
        cases hans
      · rw [cost, if_neg (by rw [← hack, ha]; decide), hspent]
        omega

theorem Amid.other {k : Node} (h : Amid b0 sent ended i n b) (h0 : b0.Addressed) (he : Expires b t id k c)
    (hid : id ≠ i) : Amid b0 sent ended i n c := by
  have hx := h.ledger.quiet.turn he
  have hat := h.at hx.later hx.first
  have hk : k.Placed b.lastFall t := hat.ledger.place hx.acts.here
  have hm := k.engine_expire b.level t
  have hn : n.Placed b.lastFall t := hat.place
  have hstep : n.InStep k b.lastFall t := hat.steps id k hid hx.acts.here
  obtain ⟨hl, hin, ⟨s, hs⟩, hout⟩ := hstep.expire hn hk h.speaks hx.due
    (hx.first n (List.mem_of_getElem? h.here)) fun hb hl => h.level_broadcast h0 hl hb
  have hd := hx.expired.not_drives hs
  have hsp : (k.expire b.level t).engine.state.speaks = false := by
    refine Bool.eq_false_iff.2 fun hsp => ?_
    have := hx.expired.speaks hsp hd
    rw [hs] at this
    cases this
  have hcalm := hx.calm hd
  have hfall := hx.lastFall_of_calm hd
  have hsame : (k.expire b.level t).engine.tx.Same k.engine.tx := by
    rw [hm]
    exact Engine.onTimeout_same (by rw [hs]; simp) _
  have hspent : (k.expire b.level t).engine.spent = k.engine.spent :=
    Engine.spent_congr hsame hsp (by rw [hs]; rfl)
  have hnone : (if b.level.edge? c.level = some .falling then 1 else 0) = 0 := if_neg hcalm
  have hrest : ∀ (j : Nat) k', j ≠ id → b.nodes[j]? = some k' → k'.after (b.level.edge? c.level) t = k' := by
    intro j k' hj hk'
    by_cases hji : j = i
    · subst hji
      obtain rfl : n = k' := by simpa [h.here] using hk'
      exact hat.place.sound.after_of_listens hl hcalm
    · exact (hat.steps j k' hji hk').unmoved (hat.ledger.place hk').sound (.inr hl) hcalm
  have hlog : due b0 i n b.lastFall id k ++ k.engine.verdict.toList.map (t, ·) =
      due b0 i n b.lastFall id (k.expire b.level t) := by
    rcases hout with ⟨hr, hv⟩ | ⟨hr, hr', ht, hv⟩
    · rw [hv, due, due, hr]
      exact List.append_nil _
    · -- The message is handed over on time for the end of the slot.
      have hend : b.lastFall + nominalBit - ackFinishLast = t := by
        simp only [nominalBit, ackFinishLast, Symbol.window]
        omega
      have hen : k.engine.isEnabled = true := by
        rw [Engine.isEnabled, bne_iff_ne, hs]
        simp
      rw [hv, due, due, hr, hr', h.ledger.seen_eq hx.acts.here (Ne.symm hid), hend, hen]
      by_cases hlast : n.engine.tx.isLast = true <;>
        by_cases hh : k.engine.hears n.engine.tx.message.destination = true <;> simp [hlast, hh, hid]
  refine ⟨?_, h.speaks, ?_, ?_, ?_, h.acked, h.past⟩
  · exact (hx.acts.other (Ne.symm hid) h.here).trans (congrArg some (hrest i n (Ne.symm hid) h.here))
  · rw [hfall]
    refine hat.ledger.keep (h.ledger.quiet.expire he) hx.acts (hk.sound.station_expire hx.due _ _) hsame
      ⟨_, k.completions_expire b.level t, ?_⟩ ?_ (hspent.trans (congrArg (k.engine.spent + ·) hnone.symm)) ?_
    · exact hlog
    · intro j k' hj hk'
      exact congrArg (due b0 i n b.lastFall j) (hrest j k' hj hk').symm
    · intro j k' hj hk'
      exact congrArg (·.engine.spent) (hrest j k' hj hk')
  · rw [hfall]
    exact h.before
  · intro j k' hji hk'
    rw [hfall, hx.acts.now]
    rcases hx.acts.cases hk' with ⟨-, rfl⟩ | ⟨hne, k'', hk'', rfl⟩
    · exact hin
    · show n.InStep (k''.after (b.level.edge? c.level) t) b.lastFall t
      rw [hrest j k'' hne hk'']
      exact hat.steps j k'' hji hk''

theorem Amid.send {k : Node} {msg : Message} {r : Reaction} (h : Amid b0 sent ended i n b)
    (hr : k.engine.send msg = .ok r) (ha : Acts b id k (k.absorb r b.now) c) :
    Amid b0 (sent ++ [(id, msg)]) ended i n c := by
  have ht := (h.ledger.place ha.here).sound.takes hr b.now
  have hnone := ha.edge_none ht.pulling
  have hfall : c.lastFall = b.lastFall := by rw [ha.lastFall, hnone, if_neg (by simp)]
  -- The speaker has a frame already.
  have hid : i ≠ id := by
    rintro rfl
    obtain ⟨s, hs, -⟩ := State.initiator_of_speaks h.speaks
    obtain rfl : n = k := by simpa [h.here] using ha.here
    have hp := (h.place.sound.fit.busy s hs).1
    rw [ht.free] at hp
    cases hp
  refine ⟨?_, h.speaks, ?_, ?_, ?_, h.acked, h.past⟩
  · rw [ha.other hid h.here, hnone, Node.after_none]
  · rw [hfall]
    refine h.ledger.send hr ha ?_ fun _ _ _ _ => rfl
    rw [due, due, ht.rests]
  · rw [hfall]
    exact h.before
  · intro j k' hj hk'
    rw [hfall, ha.now]
    rcases ha.cases hk' with ⟨rfl, rfl⟩ | ⟨-, k'', hk'', rfl⟩
    · exact (h.steps j k hj ha.here).takes ht
    · rw [hnone, Node.after_none]
      exact h.steps j k'' hj hk''

/-- Whatever the speaker does next, it is either still speaking or the frame is over. -/
theorem Amid.expire_self (h : Amid b0 sent ended i n b) (h0 : b0.Addressed) (he : Expires b t i n c) :
    (∃ m, Amid b0 sent ended i m c) ∨ ∃ ended', Between b0 sent ended' c := by
  have hx := h.ledger.quiet.turn he
  have hq := h.ledger.quiet.expire he
  have hm := n.engine_expire b.level t
  obtain ⟨s, hs, hfree⟩ := State.initiator_of_speaks h.speaks
  cases s with
  | freeTime => exact absurd rfl hfree
  | startLow => exact .inl ⟨_, h.release hx hq (.inl hs)⟩
  | low f => exact .inl ⟨_, h.release hx hq (.inr ⟨f, hs⟩)⟩
  | startHigh => exact .inl ⟨_, h.strike hx hq (by rw [hm, Engine.onTimeout_startHigh hs]; rfl)⟩
  | high f =>
    refine .inl ⟨_, h.strike hx hq ?_⟩
    by_cases hf : f = .eom
    · subst hf
      rw [hm, Engine.onTimeout_high_eom hs]
      rfl
    · rw [hm, Engine.onTimeout_high hs hf]
      rfl
  | ackLow => exact .inl ⟨_, h.slot h0 hx hq (.inl hs)⟩
  | ackHigh => exact .inl ⟨_, h.slot h0 hx hq (.inr hs)⟩
  | ackVerify =>
    by_cases hend : n.engine.tx.acked = true → n.engine.tx.isLast = true
    · exact .inr (h.finish hx hq hs hend)
    · obtain ⟨ha, hl⟩ := Classical.not_imp.1 hend
      refine .inl ⟨_, h.strike hx hq ?_⟩
      rw [hm, Engine.onTimeout_acked hs ha (Bool.eq_false_iff.2 hl)]
      rfl

end amid

def Going (b0 : Bus) (sent : List (Nat × Message)) (b : Bus) : Prop :=
  ∃ ended, Between b0 sent ended b ∨ ∃ i n, Amid b0 sent ended i n b

theorem Going.quiet (h : Going b0 sent b) : b.Quiet := by
  obtain ⟨ended, h | ⟨i, n, h⟩⟩ := h
  · exact h.ledger.quiet
  · exact h.ledger.quiet

theorem Going.expire (h : Going b0 sent b) (h0 : b0.Addressed) (he : Expires b t id n c) : Going b0 sent c := by
  obtain ⟨ended, h | ⟨i, k, h⟩⟩ := h
  · have hn := (h.ledger.place he.acts.here).sound
    rcases State.rests_cases (h.rests n (List.mem_of_getElem? he.acts.here)) with hs | hs | hs | hs
    · have := he.due
      rw [hn.deadline?_of_disabled hs] at this
      cases this
    · have := he.due
      rw [hn.deadline?_of_idle hs] at this
      cases this
    · obtain ⟨m, hm⟩ := h.begin he hs
      exact ⟨ended, .inr ⟨id, m, hm⟩⟩
    · exact ⟨ended, .inl (h.lapse he hs)⟩
  · by_cases hid : id = i
    · subst hid
      obtain rfl : k = n := by simpa [h.here] using he.acts.here
      rcases h.expire_self h0 he with ⟨m, hm⟩ | ⟨ended', hm⟩
      · exact ⟨ended, .inr ⟨id, m, hm⟩⟩
      · exact ⟨ended', .inl hm⟩
    · exact ⟨ended, .inr ⟨i, k, h.other h0 he hid⟩⟩

def Step.Plain : Step → Prop
  | .send _ _ | .run | .runFor _ => True
  | _ => False

theorem preserved_going (h0 : b0.Addressed) : Preserved Step.Plain (Going b0) where
  sound := fun h => h.quiet.nodesSound
  expire := fun h he => h.expire h0 he
  pass := by
    rintro sent b t ⟨ended, h | ⟨i, n, h⟩⟩ hb ht
    · exact ⟨ended, .inl (h.at hb fun n hn u hu => Nat.le_of_lt (ht n hn u hu))⟩
    · exact ⟨ended, .inr ⟨i, n, h.at hb fun n hn u hu => Nat.le_of_lt (ht n hn u hu)⟩⟩
  send := by
    rintro sent b id n m r c - ⟨ended, h | ⟨i, k, h⟩⟩ hr ha
    · exact ⟨ended, .inl (h.send hr ha)⟩
    · exact ⟨ended, .inr ⟨i, k, h.send hr ha⟩⟩
  setEnabled := fun ha => ha.elim
  setAddress := fun ha => ha.elim
  noise := fun _ ha => ha.elim

structure Over (b0 : Bus) (sent : List (Nat × Message)) (ended : List Ending) (b : Bus) : Prop where
  ledger : Ledger b0 sent ended (fun _ _ => []) b
  idle : ∀ k ∈ b.nodes, k.engine.state = .disabled ∨ k.engine.state = .idle

theorem Going.over (h : Going b0 sent b) (hs : b.Settled) : ∃ ended, Over b0 sent ended b := by
  obtain ⟨ended, h | ⟨i, n, h⟩⟩ := h
  · refine ⟨ended, h.ledger, fun k hk => ?_⟩
    obtain ⟨j, hj⟩ := List.mem_iff_getElem?.1 hk
    have hn := (h.ledger.place hj).sound
    have hnone := hs k hk
    rcases State.rests_cases (h.rests k hk) with hr | hr | hr | hr
    · exact .inl hr
    · exact .inr hr
    · rw [hn.deadline?_of_initiator hr] at hnone
      cases hnone
    · rw [hn.deadline?_of_follower hr (by simp)] at hnone
      cases hnone
  · obtain ⟨u, hu, -⟩ := h.place.speaks_deadline h.speaks
    rw [hs n (List.mem_of_getElem? h.here)] at hu
    cases hu

end Bus
end HdmiCec
