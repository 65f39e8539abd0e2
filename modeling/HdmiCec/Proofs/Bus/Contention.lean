import HdmiCec.Proofs.Bus.Rounds

/-! Any number of nodes want to speak, at any times. All scripts of such a kind come to an end, and
each frame that was taken ends once, in the order in which its node took it (`every_send_ends`). -/
namespace HdmiCec
namespace Bus

variable {b0 b c : Bus} {sent : List (Nat × Message)} {ended : List Ending} {script : List Step}

theorem Quiet.free (h : b.Quiet) (hidle : ∀ k ∈ b.nodes, k.engine.state = .disabled ∨ k.engine.state = .idle)
    {k : Node} (hk : k ∈ b.nodes) : k.engine.isSending = false ∧ k.engine.spent = 0 := by
  have hfit := (h.placed k hk).sound.fit
  have hfree := hfit.prompt (hidle k hk).symm
  have hquiet : k.engine.state.speaks = false := by rcases hidle k hk with hs | hs <;> rw [hs] <;> rfl
  exact ⟨hfree, by rw [Engine.spent_of_not_speaks hquiet, hfit.tx.fresh hfree]⟩

theorem Quiet.between (h : b.Quiet)
    (hidle : ∀ k ∈ b.nodes, k.engine.state = .disabled ∨ k.engine.state = .idle) : Between b [] [] b := by
  refine ⟨⟨h, fun _ => rfl, ?_, ?_, ?_, by simp, by simp, ?_⟩, ?_⟩
  · intro j
    cases hk : b.nodes[j]? with
    | none => simp [pending, hk]
    | some k => simp [pending_eq hk, Engine.waiting, (h.free hidle (List.mem_of_getElem? hk)).1]
  · intro j k k0 hk hk0
    obtain rfl : k = k0 := by simpa [hk] using hk0
    simp
  · intro j k hk hs
    rw [(h.free hidle (List.mem_of_getElem? hk)).1] at hs
    cases hs
  · simp [total, sumOver_eq_zero fun k hk => (h.free hidle hk).2, sumOver_nil]
  · intro k hk
    rcases hidle k hk with hs | hs <;> rw [hs] <;> rfl

theorem Ledger.length {due : Nat → Node → List (Nat × Completion)} (h : Ledger b0 sent ended due b) :
    b.nodes.length = b0.nodes.length := by
  have hnone : ∀ j : Nat, b.nodes[j]? = none ↔ b0.nodes[j]? = none := by
    intro j
    have := h.stations j
    rw [← Option.map_eq_none_iff (f := Node.station), this, Option.map_eq_none_iff]
  simp only [List.getElem?_eq_none_iff] at hnone
  have h1 := (hnone b.nodes.length).1 (Nat.le_refl _)
  have h2 := (hnone b0.nodes.length).2 (Nat.le_refl _)
  omega

theorem Going.length (h : Going b0 sent b) : b.nodes.length = b0.nodes.length := by
  obtain ⟨ended, h | ⟨i, n, h⟩⟩ := h
  · exact h.ledger.length
  · exact h.ledger.length

def Step.On (n : Nat) : Step → Prop
  | .send id _ | .setEnabled id _ | .setAddress id _ => id < n
  | _ => True

theorem Quiet.perform (h : b.Quiet) {s : Step} (hs : s.Plain) (hn : s.On b.nodes.length) :
    ∃ k0 c r, ∀ k, k0 ≤ k → b.perform? k s = some (c, r) := by
  cases s with
  | send id m =>
    obtain ⟨⟨c, r⟩, hc⟩ : ∃ p, b.perform? 0 (.send id m) = some p :=
      ⟨_, by rw [perform?, List.getElem?_eq_getElem hn]; rfl⟩
    exact ⟨0, c, r, fun _ _ => hc⟩
  | run =>
    obtain ⟨k0, c, hc⟩ := h.advance none
    exact ⟨k0, c, _, fun k hk => by rw [perform?, run?, hc k hk]; rfl⟩
  | runFor ticks =>
    obtain ⟨k0, c, hc⟩ := h.advance (some (b.now + ticks))
    exact ⟨k0, _, _, fun k hk => by rw [perform?, runUntil?, hc k hk]; rfl⟩
  | setEnabled id on => exact hs.elim
  | setAddress id a => exact hs.elim
  | glitch low => exact hs.elim

/-- Step by step through a script, with all answers. No step takes more than `k` deadlines. -/
def play? (k : Nat) (b : Bus) : List Step → Option (Bus × List (Step × Reply))
  | [] => some (b, [])
  | s :: rest => (b.perform? k s).bind fun p => (play? k p.1 rest).map fun q => (q.1, (s, p.2) :: q.2)

theorem play?_mono {past : List (Step × Reply)} {k m : Nat} (h : b.play? k script = some (c, past)) (hk : k ≤ m) :
    b.play? m script = some (c, past) := by
  induction script generalizing b past with
  | nil => exact h
  | cons s rest ih =>
    obtain ⟨⟨d, r⟩, hd, hrest⟩ := Option.bind_eq_some_iff.1 h
    obtain ⟨⟨c', past'⟩, hc, hpast⟩ := Option.map_eq_some_iff.1 hrest
    obtain ⟨rfl, rfl⟩ := Prod.mk.inj hpast
    rw [play?, perform?_mono hd hk, Option.bind_some, ih hc]
    rfl

theorem Going.play (h0 : b0.Addressed) (h : Going b0 sent b)
    (hs : ∀ s ∈ script, s.Plain ∧ s.On b0.nodes.length) :
    ∃ k0 c past, (∀ k, k0 ≤ k → b.play? k script = some (c, past)) ∧ Going b0 (sent ++ accepted past) c := by
  induction script generalizing b sent with
  | nil => exact ⟨0, b, [], fun _ _ => rfl, by simpa [accepted] using h⟩
  | cons s rest ih =>
    obtain ⟨hplain, hon⟩ := hs s (by simp)
    obtain ⟨k1, c, r, hc⟩ := h.quiet.perform hplain (h.length ▸ hon)
    have hgoing := (preserved_going h0).perform hplain h (hc k1 (Nat.le_refl _))
    obtain ⟨k2, d, past, hd, hlast⟩ := ih hgoing fun s hmem => hs s (by simp [hmem])
    refine ⟨max k1 k2, d, (s, r) :: past, fun k hk => ?_, ?_⟩
    · rw [play?, hc k (by omega), Option.bind_some, hd k (by omega)]
      rfl
    · rw [show (s, r) :: past = [(s, r)] ++ past from rfl, accepted_append, ← List.append_assoc]
      exact hlast

theorem Starts.idle {as : List LogicalAddress} (h : Starts as b) : ∀ k ∈ b.nodes, k.engine.state = .idle := by
  intro k hk
  rw [h.nodes, List.mem_map] at hk
  obtain ⟨a, -, rfl⟩ := hk
  rfl

theorem Starts.addressed {as : List LogicalAddress} (h : Starts as b) (ha : ∀ a ∈ as, a.Assignable) :
    b.Addressed := by
  intro k hk
  rw [h.nodes, List.mem_map] at hk
  obtain ⟨a, hmem, rfl⟩ := hk
  exact (ha a hmem).ne_broadcast

theorem Starts.answered_iff {as : List LogicalAddress} (h : Starts as b) {i : Nat} {m : Message} :
    b.answered i m = true ↔ m.destination = .broadcast ∨ ∃ j : Nat, j ≠ i ∧ as[j]? = some m.destination := by
  rw [Bus.answered_iff, h.nodes]
  constructor
  · rintro (hb | ⟨j, k, hj, hk, -, ha⟩)
    · exact .inl hb
    · rw [List.getElem?_map, Option.map_eq_some_iff] at hk
      obtain ⟨a, hk, rfl⟩ := hk
      exact .inr ⟨j, hj, hk.trans (congrArg some ha)⟩
  · rintro (hb | ⟨j, hj, hk⟩)
    · exact .inl hb
    · exact .inr ⟨j, fresh m.destination, hj, by rw [List.getElem?_map, hk]; rfl, rfl, rfl⟩

theorem completionsSince_eq {log : Nat → List (Nat × Completion)} (hlen : b.nodes.length = b0.nodes.length)
    (hlog : ∀ (j : Nat) k k0, b.nodes[j]? = some k → b0.nodes[j]? = some k0 →
      k.completions.toList = k0.completions.toList ++ log j) :
    b.completionsSince b0 = (List.range b0.nodes.length).flatMap fun j => (log j).map (j, ·) := by
  rw [completionsSince, List.flatMap_def, List.flatMap_def]
  refine congrArg List.flatten (List.ext_getElem ?_ ?_)
  · simp [hlen]
  · intro j h1 h2
    simp only [List.length_map, List.length_zipIdx, List.length_range] at h1 h2
    have hk := List.getElem?_eq_getElem h1
    have hk0 := List.getElem?_eq_getElem h2
    simp only [List.getElem_map, List.getElem_zipIdx, List.getElem_range, Nat.zero_add]
    rw [hk0, hlog j _ _ hk hk0]
    exact congrArg (List.map (j, ·)) List.drop_left

theorem Over.completions (h : Over b0 sent ended b) : b.completionsSince b0 =
    (List.range b0.nodes.length).flatMap fun j => (ended.flatMap (b0.seen j)).map (j, ·) := by
  refine completionsSince_eq h.ledger.length fun j k k0 hk hk0 => ?_
  rw [h.ledger.log j k k0 hk hk0, List.append_nil]

theorem Over.frames (h : Over b0 sent ended b) (j : Nat) :
    sent.filter (·.1 == j) = (ended.map Ending.frame).filter (·.1 == j) := by
  have hnone : b.pending j = [] := by
    cases hk : b.nodes[j]? with
    | none => simp [pending, hk]
    | some k =>
      simp [pending_eq hk, Engine.waiting, (h.ledger.quiet.free h.idle (List.mem_of_getElem? hk)).1]
  rw [h.ledger.frames j, hnone, List.append_nil]

theorem Over.falls (h : Over b0 sent ended b) :
    b.fallingEdges.size = b0.fallingEdges.size + sumOver b0.cost ended := by
  rw [h.ledger.falls, total, sumOver_eq_zero fun k hk => (h.ledger.quiet.free h.idle hk).2, Nat.add_zero]

/-- Whoever wants to send what and when: in the end each frame that was taken has ended once. A node's
frames end in the order in which it took them, one frame at a time, and every node has seen of them
what it should, in this order, and nothing else. -/
theorem every_send_ends {as : List LogicalAddress} {script : List Step} (ha : ∀ a ∈ as, a.Assignable)
    (hscript : ∀ s ∈ script, s.Plain ∧ s.On as.length) :
    ∃ b0, ofAddresses as = .ok b0 ∧ ∃ (k0 : Nat) (b c : Bus) (past : List (Step × Reply)) (ended : List Ending),
      (∀ k, k0 ≤ k → b0.play? k script = some (b, past) ∧ b.run? k = some c) ∧ c.Settled ∧
      (∀ j : Nat, (accepted past).filter (·.1 == j) = (ended.map Ending.frame).filter (·.1 == j)) ∧
      ended.Pairwise (·.time < ·.time) ∧
      (∀ e ∈ ended, b0.answered e.node e.message = true ↔ e.message.destination = .broadcast ∨
        ∃ j : Nat, j ≠ e.node ∧ as[j]? = some e.message.destination) ∧
      c.completionsSince b0 =
        (List.range as.length).flatMap fun j => (ended.flatMap (b0.seen j)).map (j, ·) := by
  obtain ⟨b0, hb⟩ := ofAddresses_eq_ok_iff.2 ha
  have hstart := starts_of_ofAddresses hb
  have hlen : b0.nodes.length = as.length := by rw [hstart.nodes, List.length_map]
  have haddr := hstart.addressed ha
  have hfirst : Going b0 [] b0 := ⟨[], .inl (hstart.quiet.between fun k hk => .inr (hstart.idle k hk))⟩
  obtain ⟨k1, b, past, hplay, hgoing⟩ := hfirst.play haddr (by rwa [hlen])
  obtain ⟨k2, c, hrun⟩ := hgoing.quiet.advance none
  obtain ⟨hlast, hstep⟩ := (preserved_going haddr).advance hgoing (hrun k2 (Nat.le_refl _))
  have hsettled := step?_eq_none_iff.1 hstep
  obtain ⟨ended, hover⟩ := hlast.over hsettled
  refine ⟨b0, hb, max k1 k2, b, c, past, ended, fun k hk => ?_, hsettled, ?_, hover.ledger.times, ?_, ?_⟩
  · exact ⟨hplay k (by omega), hrun k (by omega)⟩
  · exact hover.frames
  · exact fun e _ => hstart.answered_iff
  · rw [hover.completions, hlen]

/-- The second frame is taken while the first one is on the line. -/
theorem every_send_ends_two_speakers : ∃ b0, ofAddresses [⟨0⟩, ⟨4⟩] = .ok b0 ∧
    ∃ (k0 : Nat) (b c : Bus) (past : List (Step × Reply)) (ended : List Ending),
      (∀ k, k0 ≤ k → b0.play? k [.send 0 [4, 54], .runFor 11000, .send 1 [79]] = some (b, past) ∧
        b.run? k = some c) ∧ c.Settled ∧ accepted past = [(0, [4, 54]), (1, [79])] ∧
      (∀ j : Nat, (accepted past).filter (·.1 == j) = (ended.map Ending.frame).filter (·.1 == j)) ∧
      ended.Pairwise (·.time < ·.time) ∧
      (∀ e ∈ ended, b0.answered e.node e.message = true ↔ e.message.destination = .broadcast ∨
        ∃ j : Nat, j ≠ e.node ∧ [⟨0⟩, ⟨4⟩][j]? = some e.message.destination) ∧
      c.completionsSince b0 =
        (List.range 2).flatMap fun j => (ended.flatMap (b0.seen j)).map (j, ·) := by
  have hscript : ∀ s ∈ [Step.send 0 [4, 54], .runFor 11000, .send 1 [79]], s.Plain ∧ s.On 2 := by
    intro s hs
    simp only [List.mem_cons, List.not_mem_nil, or_false] at hs
    rcases hs with rfl | rfl | rfl
    · exact ⟨trivial, by simp [Step.On]⟩
    · exact ⟨trivial, trivial⟩
    · exact ⟨trivial, by simp [Step.On]⟩
  obtain ⟨b0, hb, k0, b, c, past, ended, hruns, hsettled, hframes, hends⟩ :=
    @every_send_ends [⟨0⟩, ⟨4⟩] _ (by decide) hscript
  have run : ((ofAddresses [⟨0⟩, ⟨4⟩]).toOption.any fun b0 =>
      (b0.play? 20 [.send 0 [4, 54], .runFor 11000, .send 1 [79]]).any fun p =>
        accepted p.2 = [(0, [4, 54]), (1, [79])]) = true := by decide +kernel
  rw [hb] at run
  simp only [Except.toOption, Option.any_some] at run
  obtain ⟨⟨b', past'⟩, hplay, htaken⟩ := (Option.any_eq_true _ _).1 run
  have hsame := (play?_mono hplay (Nat.le_max_left 20 k0)).symm.trans (hruns _ (Nat.le_max_right 20 k0)).1
  obtain ⟨rfl, rfl⟩ := Prod.mk.inj (Option.some.inj hsame)
  exact ⟨b0, hb, k0, b', c, past', ended, hruns, hsettled, by simpa using htaken, hframes, hends⟩

end Bus
end HdmiCec
