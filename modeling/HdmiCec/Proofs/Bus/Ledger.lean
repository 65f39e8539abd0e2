import HdmiCec.Proofs.Bus.Settling

/-! The frames that end on a bus whose nodes keep their addresses and stay on or off. For each of
them it is settled beforehand whether it is acknowledged, what every node gets to see of it and how
many falling edges it costs. A `Ledger` says that this is all that has happened. -/
namespace HdmiCec

structure Ending where
  node : Nat
  message : Message
  time : Nat
  deriving DecidableEq, Repr

def Ending.frame (e : Ending) : Nat × Message := (e.node, e.message)

def Node.station (n : Node) : Bool × LogicalAddress := (n.engine.isEnabled, n.engine.address)

namespace Bus

def answered (b : Bus) (i : Nat) (m : Message) : Bool :=
  m.destination.isBroadcast ||
    b.nodes.zipIdx.any fun (k, j) => j != i && k.engine.isEnabled && k.engine.address == m.destination

/-- What node `j` gets to see of a frame. The message is handed over before the last slot is over. -/
def seen (b : Bus) (j : Nat) (e : Ending) : List (Nat × Completion) :=
  if e.node = j then [(e.time, if b.answered j e.message then .sendOk else .sendFailed)]
  else if b.nodes[j]?.any fun k => k.engine.isEnabled && k.engine.hears e.message.destination then
    [(e.time - ackFinishLast, .received e.message)]
  else []

/-- Falling edges of a start bit and ten bits for each block. A frame that nobody acknowledges ends
after its header, and is tried six times. -/
def cost (b : Bus) (e : Ending) : Nat :=
  if b.answered e.node e.message then 1 + 10 * e.message.length else (Outgoing.maxResends + 1) * 11

theorem answered_iff {b : Bus} {i : Nat} {m : Message} : b.answered i m = true ↔ m.destination = .broadcast ∨
    ∃ (j : Nat) (k : Node), j ≠ i ∧ b.nodes[j]? = some k ∧ k.engine.isEnabled = true ∧
      k.engine.address = m.destination := by
  simp only [answered, Bool.or_eq_true, LogicalAddress.eq_broadcast_iff, List.any_eq_true, Bool.and_eq_true,
    bne_iff_ne, beq_iff_eq]
  constructor
  · rintro (h | ⟨⟨k, j⟩, hk, ⟨hj, he⟩, ha⟩)
    · exact .inl h
    · exact .inr ⟨j, k, hj, List.mem_zipIdx_iff_getElem?.1 hk, he, ha⟩
  · rintro (h | ⟨j, k, hj, hk, he, ha⟩)
    · exact .inl h
    · exact .inr ⟨(k, j), List.mem_zipIdx_iff_getElem?.2 hk, ⟨hj, he⟩, ha⟩

theorem seen_of_ne {b : Bus} {j : Nat} {k : Node} {e : Ending} (hj : e.node ≠ j) (hk : b.nodes[j]? = some k) :
    b.seen j e = if k.engine.isEnabled = true ∧ k.engine.hears e.message.destination = true then
      [(e.time - ackFinishLast, .received e.message)] else [] := by
  rw [seen, if_neg hj, hk]
  simp

theorem seen_of_not_answered {b : Bus} {j : Nat} {e : Ending} (hj : e.node ≠ j)
    (h : b.answered e.node e.message = false) : b.seen j e = [] := by
  cases hk : b.nodes[j]? with
  | none => simp [seen, hj, hk]
  | some k =>
    rw [seen_of_ne hj hk, if_neg]
    rintro ⟨he, hh⟩
    have : b.answered e.node e.message = true := by
      rw [answered_iff]
      simp only [Engine.hears, Bool.or_eq_true, beq_iff_eq, LogicalAddress.eq_broadcast_iff] at hh
      rcases hh with hh | hh
      · exact .inr ⟨j, k, Ne.symm hj, hk, he, hh.symm⟩
      · exact .inl hh
    rw [h] at this
    cases this

end Bus

def Initiator.edges (s : Initiator) (pos : Nat) : Nat :=
  match s with
  | freeTime => 0
  | startLow | startHigh => 1
  | low .eom | high .eom => 10 * (pos / 8)
  | low _ | high _ => 10 * (pos / 8) + pos % 8 + 2
  | ackLow | ackHigh | ackVerify => 10 * (pos / 8) + 1

theorem Initiator.edges_next {b : BitBuffer} {f : BitKind} {n : Nat} (h : f.Within b.pos n) (hf : f ≠ .eom)
    (hn : 0 < n) (hm : n ≤ Message.maxLength) :
    (low (f.next b.advance)).edges b.advance.pos = (high f).edges b.pos + 1 := by
  have hp : b.advance.pos = b.pos + 1 := BitBuffer.pos_advance (h.pos_lt_capacity hf hn hm)
  have ho : b.advance.offset = (b.pos + 1) % 8 := by rw [BitBuffer.offset, hp]
  rw [hp]
  cases f with
  | eom => exact absurd rfl hf
  | headerInit | headerDest =>
    simp only [BitKind.Within] at h
    simp only [BitKind.next, ho]
    split <;> simp only [edges] <;> omega
  | data =>
    simp only [BitKind.next, ho]
    split <;> simp only [edges] <;> omega

namespace Engine

variable {e d : Engine} {s : Initiator} {line : Reading}

def spent (e : Engine) : Nat :=
  11 * e.tx.resends + match e.state with
    | .initiator s => s.edges e.tx.buffer.pos
    | _ => 0

def waiting (e : Engine) (j : Nat) : List (Nat × Message) := if e.isSending then [(j, e.tx.message)] else []

theorem spent_of_not_speaks (h : e.state.speaks = false) : e.spent = 11 * e.tx.resends := by
  cases hs : e.state with
  | initiator s => cases s <;> simp_all [spent, State.speaks, Initiator.edges]
  | _ => simp only [spent, hs, Nat.add_zero]

theorem spent_congr (hx : d.tx.Same e.tx) (hd : d.state.speaks = false) (he : e.state.speaks = false) :
    d.spent = e.spent := by
  rw [spent_of_not_speaks hd, spent_of_not_speaks he, hx.resends]

theorem waiting_congr (hx : d.tx.Same e.tx) (j : Nat) : d.waiting j = e.waiting j := by
  rw [waiting, waiting, isSending_of_same hx, Outgoing.message_congr hx.length hx.bits]

/-- An initiator spends an edge whenever it pulls the line low, up to the end of the ACK slot. -/
theorem onTimeout_spent (hf : e.Fit) (h : e.state = .initiator s) (hs : s ≠ .ackVerify) (line : Reading) :
    (e.onTimeout line).engine.spent =
      e.spent + if (e.onTimeout line).engine.state.drives = true then 1 else 0 := by
  obtain ⟨hp, hc⟩ := hf.busy s h
  cases s with
  | freeTime =>
    rw [onTimeout_freeTime h]
    simp [spent, h, Initiator.edges, State.drives, Initiator.isLow, Outgoing.rewind]
  | startLow =>
    rw [onTimeout_startLow h]
    simp [spent, h, Initiator.edges, State.drives, Initiator.isLow]
  | startHigh =>
    rw [onTimeout_startHigh h]
    simp only [Initiator.Cursor] at hc
    simp [spent, h, hc, Initiator.edges, State.drives, Initiator.isLow]
  | low f =>
    rw [onTimeout_low h]
    cases f <;> simp [spent, h, Initiator.edges, State.drives, Initiator.isLow]
  | high f =>
    by_cases hfe : f = .eom
    · subst hfe
      rw [onTimeout_high_eom h]
      simp [spent, h, Initiator.edges, State.drives, Initiator.isLow]
      omega
    · rw [hf.onTimeout_high h hfe]
      have hedges := Initiator.edges_next hc hfe (Outgoing.length_pos hp) hf.tx.length_le
      simp only [spent, h, State.drives, Initiator.isLow, if_true, hedges]
      omega
  | ackLow =>
    rw [onTimeout_ackLow h]
    simp [spent, h, Initiator.edges, State.drives, Initiator.isLow]
  | ackHigh =>
    rw [onTimeout_ackHigh h]
    simp [spent, h, Initiator.edges, State.drives, Initiator.isLow]
  | ackVerify => exact absurd rfl hs

end Engine

structure Node.Kept (k' k : Node) : Prop where
  station : k'.station = k.station
  tx : k'.engine.tx.Same k.engine.tx
  completions : k'.completions.toList = k.completions.toList

theorem Node.Sound.kept_after {k : Node} (h : k.Sound) (e : Option Edge) (now : Nat) : (k.after e now).Kept k := by
  refine ⟨?_, ?_, h.completions_after e now⟩
  · rw [Node.station, Node.station, k.address_after]
    have hen : (k.after e now).engine.isEnabled = k.engine.isEnabled := by
      cases e with
      | none => rfl
      | some e =>
        by_cases hw : k.timer.waitsFor e = true
        · have hs : k.engine.state ≠ .disabled := by
            intro hs
            rw [h.waitsFor_of_disabled hs] at hw
            cases hw
          have hs' := Engine.onCapture_state (k.timer.elapsed now) hs
          rw [← k.engine_hear now] at hs'
          rw [Node.after_of_waitsFor hw]
          rw [Engine.isEnabled, Engine.isEnabled, bne_iff_ne.2 hs, bne_iff_ne.2 hs']
        · rw [Node.after_of_not_waitsFor hw]
    rw [hen]
  · unfold Node.after
    split
    · rw [Node.engine_hear]
      exact Engine.onCapture_same _ _
    · exact .refl

namespace Bus

variable {b0 b c : Bus} {id t : Nat} {n m : Node} {sent : List (Nat × Message)} {ended : List Ending}
  {due due' : Nat → Node → List (Nat × Completion)}

def pending (b : Bus) (j : Nat) : List (Nat × Message) :=
  match b.nodes[j]? with
  | some k => k.engine.waiting j
  | none => []

theorem pending_eq {j : Nat} {k : Node} (h : b.nodes[j]? = some k) : b.pending j = k.engine.waiting j := by
  rw [pending, h]

/-- What has happened since the bus was `b0`: the frames in `ended` have ended, in this order, and
the rest of those in `sent` wait for their turn. Of the frame on the line node `j` has seen `due j`. -/
structure Ledger (b0 : Bus) (sent : List (Nat × Message)) (ended : List Ending)
    (due : Nat → Node → List (Nat × Completion)) (b : Bus) : Prop where
  quiet : b.Quiet
  stations : ∀ j : Nat, b.nodes[j]?.map Node.station = b0.nodes[j]?.map Node.station
  frames : ∀ j : Nat, sent.filter (·.1 == j) = (ended.map Ending.frame).filter (·.1 == j) ++ b.pending j
  log : ∀ (j : Nat) k k0, b.nodes[j]? = some k → b0.nodes[j]? = some k0 →
    k.completions.toList = k0.completions.toList ++ ended.flatMap (b0.seen j) ++ due j k
  /-- A frame that is going to be acknowledged is not refused before. -/
  fresh : ∀ (j : Nat) k, b.nodes[j]? = some k → k.engine.isSending = true →
    b0.answered j k.engine.tx.message = true → k.engine.tx.resends = 0
  times : ended.Pairwise (·.time < ·.time)
  recent : ∀ e ∈ ended, e.time ≤ b.lastFall + nominalBit
  falls : b.fallingEdges.size = b0.fallingEdges.size + sumOver b0.cost ended + b.total (·.engine.spent)

theorem Ledger.at (h : Ledger b0 sent ended due b) (hb : b.now ≤ t)
    (ht : ∀ n ∈ b.nodes, ∀ u, n.timer.deadline? = some u → t ≤ u) :
    Ledger b0 sent ended due { b with now := t } :=
  ⟨h.quiet.at hb ht, h.stations, h.frames, h.log, h.fresh, h.times, h.recent, h.falls⟩

theorem Ledger.place (h : Ledger b0 sent ended due b) {j : Nat} {k : Node} (hk : b.nodes[j]? = some k) :
    k.Placed b.lastFall b.now := h.quiet.placed k (List.mem_of_getElem? hk)

theorem filter_of_forall {l : List (Nat × Message)} {i j : Nat} (h : ∀ p ∈ l, p.1 = i) :
    l.filter (·.1 == j) = if i = j then l else [] := by
  split
  · next hij => exact List.filter_eq_self.2 fun p hp => by simp [h p hp, hij]
  · next hij => exact List.filter_eq_nil_iff.2 fun p hp => by simp [h p hp, hij]

/-- One event at one node. It may end the frame of that node, or hand one to it. -/
theorem Ledger.acts (h : Ledger b0 sent ended due b) (add : List (Nat × Message)) (fin : List Ending)
    (due' : Nat → Node → List (Nat × Completion)) (hq : c.Quiet) (ha : Acts b id n m c)
    (hstation : m.station = n.station) (hadd : ∀ p ∈ add, p.1 = id) (hfin : ∀ e ∈ fin, e.node = id)
    (hframes : n.engine.waiting id ++ add = fin.map Ending.frame ++ m.engine.waiting id)
    (hlog : ∃ l, m.completions.toList = n.completions.toList ++ l ∧
      due id n ++ l = fin.flatMap (b0.seen id) ++ due' id m)
    (hdue : ∀ (j : Nat) k, j ≠ id → b.nodes[j]? = some k →
      due j k = fin.flatMap (b0.seen j) ++ due' j (k.after (b.level.edge? c.level) b.now))
    (hfresh : m.engine.isSending = true → b0.answered id m.engine.tx.message = true → m.engine.tx.resends = 0)
    (htimes : (ended ++ fin).Pairwise (·.time < ·.time)) (hrecent : ∀ e ∈ fin, e.time ≤ c.lastFall + nominalBit)
    (hspent : m.engine.spent + sumOver b0.cost fin =
      n.engine.spent + if b.level.edge? c.level = some .falling then 1 else 0)
    (hothers : ∀ (j : Nat) k, j ≠ id → b.nodes[j]? = some k →
      (k.after (b.level.edge? c.level) b.now).engine.spent = k.engine.spent) :
    Ledger b0 (sent ++ add) (ended ++ fin) due' c := by
  have kept : ∀ {j : Nat} {k}, b.nodes[j]? = some k → (k.after (b.level.edge? c.level) b.now).Kept k :=
    fun hk => (h.place hk).sound.kept_after _ _
  have hfin' : ∀ p ∈ fin.map Ending.frame, p.1 = id := by
    intro p hp
    obtain ⟨e, he, rfl⟩ := List.mem_map.1 hp
    exact hfin e he
  refine ⟨hq, ?_, ?_, ?_, ?_, htimes, ?_, ?_⟩
  · intro j
    rw [← h.stations j, ha.nodes]
    by_cases hj : j = id
    · rw [if_pos hj, hj, ha.here]
      simp [hstation]
    · rw [if_neg hj]
      cases hk : b.nodes[j]? with
      | none => rfl
      | some k => simp [(kept hk).station]
  · intro j
    rw [List.map_append, List.filter_append, List.filter_append, filter_of_forall hadd, filter_of_forall hfin',
      h.frames j]
    by_cases hj : j = id
    · subst hj
      rw [if_pos rfl, if_pos rfl, pending_eq ha.here, pending_eq ha.self, List.append_assoc, hframes,
        List.append_assoc]
    · have hsame : c.pending j = b.pending j := by
        unfold pending
        rw [ha.nodes, if_neg hj]
        cases hk : b.nodes[j]? with
        | none => rfl
        | some k => exact Engine.waiting_congr (kept hk).tx j
      rw [if_neg (Ne.symm hj), if_neg (Ne.symm hj), hsame]
      simp
  · intro j k k0 hk hk0
    rw [List.flatMap_append]
    rcases ha.cases hk with ⟨rfl, rfl⟩ | ⟨hne, k', hk', rfl⟩
    · obtain ⟨l, hl, heq⟩ := hlog
      rw [hl, h.log j n k0 ha.here hk0, List.append_assoc, heq]
      simp only [List.append_assoc]
    · rw [(kept hk').completions, h.log j k' k0 hk' hk0, hdue j k' hne hk']
      simp only [List.append_assoc]
  · intro j k hk hs hans
    rcases ha.cases hk with ⟨rfl, rfl⟩ | ⟨-, k', hk', rfl⟩
    · exact hfresh hs hans
    · have hx := (kept hk').tx
      have hs' : k'.engine.isSending = true := (Engine.isSending_of_same hx).symm.trans hs
      rw [Outgoing.message_congr hx.length hx.bits] at hans
      exact hx.resends.trans (h.fresh j k' hk' hs' hans)
  · have hmono : b.lastFall ≤ c.lastFall := by
      rw [ha.lastFall]
      split
      · exact h.quiet.fell
      · exact Nat.le_refl _
    intro e he
    rcases List.mem_append.1 he with he | he
    · exact Nat.le_trans (h.recent e he) (by omega)
    · exact hrecent e he
  · have htotal := ha.total_eq (f := fun k => k.engine.spent) hothers
    have hsize : c.fallingEdges.size = b.fallingEdges.size +
        if b.level.edge? c.level = some .falling then 1 else 0 := by
      rw [ha.falls]
      split <;> simp
    have := h.falls
    rw [sumOver_append]
    omega

theorem Ledger.keep (h : Ledger b0 sent ended due b) (hq : c.Quiet) (ha : Acts b id n m c)
    (hstation : m.station = n.station) (hx : m.engine.tx.Same n.engine.tx)
    (hlog : ∃ l, m.completions.toList = n.completions.toList ++ l ∧ due id n ++ l = due' id m)
    (hdue : ∀ (j : Nat) k, j ≠ id → b.nodes[j]? = some k →
      due j k = due' j (k.after (b.level.edge? c.level) b.now))
    (hspent : m.engine.spent = n.engine.spent + if b.level.edge? c.level = some .falling then 1 else 0)
    (hothers : ∀ (j : Nat) k, j ≠ id → b.nodes[j]? = some k →
      (k.after (b.level.edge? c.level) b.now).engine.spent = k.engine.spent) :
    Ledger b0 sent ended due' c := by
  have hfresh : m.engine.isSending = true → b0.answered id m.engine.tx.message = true →
      m.engine.tx.resends = 0 := by
    intro hs hans
    have hs' : n.engine.isSending = true := (Engine.isSending_of_same hx).symm.trans hs
    rw [Outgoing.message_congr hx.length hx.bits] at hans
    exact hx.resends.trans (h.fresh id n ha.here hs' hans)
  have := h.acts [] [] due' hq ha hstation (by simp) (by simp)
    (by simp [Engine.waiting_congr hx]) (by simpa using hlog) (by simpa using hdue) hfresh
    (by simpa using h.times) (by simp) (by rw [sumOver_nil]; exact hspent) hothers
  simpa using this

theorem Ledger.station (h : Ledger b0 sent ended due b) {j : Nat} {k : Node} (hk : b.nodes[j]? = some k) :
    ∃ k0, b0.nodes[j]? = some k0 ∧ k0.engine.isEnabled = k.engine.isEnabled ∧
      k0.engine.address = k.engine.address := by
  have hs := h.stations j
  rw [hk, Option.map_some, eq_comm, Option.map_eq_some_iff] at hs
  obtain ⟨k0, hk0, he⟩ := hs
  simp only [Node.station, Prod.mk.injEq] at he
  exact ⟨k0, hk0, he⟩

theorem Ledger.station_start (h : Ledger b0 sent ended due b) {j : Nat} {k0 : Node}
    (hk0 : b0.nodes[j]? = some k0) : ∃ k, b.nodes[j]? = some k ∧ k.engine.isEnabled = k0.engine.isEnabled ∧
      k.engine.address = k0.engine.address := by
  have hs := h.stations j
  rw [hk0, Option.map_some, Option.map_eq_some_iff] at hs
  obtain ⟨k, hk, he⟩ := hs
  simp only [Node.station, Prod.mk.injEq] at he
  exact ⟨k, hk, he⟩

theorem Ledger.seen_eq (h : Ledger b0 sent ended due b) {j : Nat} {k : Node} (hk : b.nodes[j]? = some k)
    {e : Ending} (hj : e.node ≠ j) : b0.seen j e =
      if k.engine.isEnabled = true ∧ k.engine.hears e.message.destination = true then
        [(e.time - ackFinishLast, .received e.message)] else [] := by
  obtain ⟨k0, hk0, hen, ha⟩ := h.station hk
  rw [seen_of_ne hj hk0, hen, Engine.hears, Engine.hears, ha]

end Bus
end HdmiCec
