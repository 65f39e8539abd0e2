import HdmiCec.Bench.Reply

/-! The queue of received messages as the list of what it holds (`ByteRing.Holds`). Whatever is done to
a new queue, one thing after another, it answers like that list (`answers_like_list`): first in, first
out, and full as soon as the next message with its length would leave no place free. -/
namespace HdmiCec

def Message.entry (m : Message) : List UInt8 := .ofNat m.length :: m

theorem Message.length_entry (m : Message) : m.entry.length = m.length + 1 := rfl

theorem Message.Legal.toNat_length {m : Message} (h : m.Legal) : (UInt8.ofNat m.length).toNat = m.length := by
  have := h.2
  simp only [maxLength] at this
  simp only [UInt8.toNat_ofNat']
  omega

abbrev Backlog := List Message

namespace Backlog

def used : Backlog → Nat
  | [] => 0
  | m :: l => m.length + 1 + used l

def bytes (l : Backlog) : List UInt8 := l.flatMap Message.entry

variable {l : Backlog} {m : Message}

theorem used_cons (m : Message) (l : Backlog) : used (m :: l) = m.length + 1 + used l := by rw [used]

theorem used_append (l : Backlog) (m : Message) : used (l ++ [m]) = used l + (m.length + 1) := by
  induction l with
  | nil => simp [used]
  | cons x l ih => rw [List.cons_append, used_cons, used_cons, ih, ← Nat.add_assoc]

theorem length_bytes (l : Backlog) : (bytes l).length = used l := by
  induction l with
  | nil => rfl
  | cons m l ih => rw [used_cons, ← ih, bytes, List.flatMap_cons, List.length_append, Message.length_entry]; rfl

theorem length_le_used (l : Backlog) : l.length ≤ used l := by
  induction l with
  | nil => exact Nat.zero_le _
  | cons m l ih => rw [used_cons, List.length_cons]; omega

theorem used_eq_zero_iff : used l = 0 ↔ l = [] := by
  cases l with
  | nil => simp [used]
  | cons m l => simp [used_cons]

/-- There is room for one more message in a ring of `n` places. -/
def Fits (n : Nat) (l : Backlog) (m : Message) : Prop := used l + m.length + 1 ≤ n - 1

instance (n : Nat) (l : Backlog) (m : Message) : Decidable (Fits n l m) := inferInstanceAs (Decidable (_ ≤ _))

end Backlog

namespace ByteRing

variable {n : Nat} {q : ByteRing n} {i : Fin n} {l : Backlog} {m : Message}

theorem skip_zero (i : Fin n) : skip i 0 = i := by
  apply Fin.ext
  simp [skip, Nat.mod_eq_of_lt i.isLt]

theorem skip_self (i : Fin n) : skip i n = i := by
  apply Fin.ext
  simp [skip, Nat.mod_eq_of_lt i.isLt]

theorem skip_inj {a b : Nat} (hab : a ≤ b) (hb : b < a + n) : skip i a = skip i b ↔ a = b := by
  refine ⟨fun h => ?_, fun h => by rw [h]⟩
  have hmod : (i.val + b) % n = (i.val + a) % n := (congrArg Fin.val h).symm
  have hsub := Nat.sub_mod_eq_zero_of_mod_eq hmod
  rw [show i.val + b - (i.val + a) = b - a by omega, Nat.mod_eq_of_lt (by omega)] at hsub
  omega

def cell (q : ByteRing n) (i : Fin n) : UInt8 := q.cells.get i

theorem cell_store (q : ByteRing n) (i j : Fin n) (b : UInt8) :
    (q.store i b).cell j = if i = j then b else q.cell j := by
  show (q.cells.set i.val b)[j.val] = _
  rw [Vector.getElem_set]
  by_cases h : i = j
  · rw [if_pos h, if_pos (congrArg Fin.val h)]
  · rw [if_neg h, if_neg fun hv => h (Fin.ext hv)]
    rfl

def Spells (q : ByteRing n) (i : Fin n) (bs : List UInt8) : Prop :=
  ∀ k (h : k < bs.length), q.cell (skip i k) = bs[k]

theorem spells_nil : q.Spells i [] := fun k h => absurd h (Nat.not_lt_zero k)

theorem spells_append {a b : List UInt8} : q.Spells i (a ++ b) ↔ q.Spells i a ∧ q.Spells (skip i a.length) b := by
  constructor
  · intro h
    refine ⟨fun k hk => ?_, fun k hk => ?_⟩
    · rw [h k (by rw [List.length_append]; omega), List.getElem_append_left hk]
    · rw [skip_skip, h (a.length + k) (by rw [List.length_append]; omega),
        List.getElem_append_right (Nat.le_add_right _ _)]
      simp only [Nat.add_sub_cancel_left]
  · rintro ⟨ha, hb⟩ k hk
    by_cases hlt : k < a.length
    · rw [List.getElem_append_left hlt]
      exact ha k hlt
    · have hrest : k - a.length < b.length := by rw [List.length_append] at hk; omega
      rw [List.getElem_append_right (by omega), ← hb (k - a.length) hrest, skip_skip]
      congr 2
      omega

theorem spells_cons {b : UInt8} {bs : List UInt8} :
    q.Spells i (b :: bs) ↔ q.cell i = b ∧ q.Spells (skip i 1) bs := by
  rw [← List.singleton_append, spells_append]
  refine and_congr_left fun _ => ⟨fun h => ?_, fun h k hk => ?_⟩
  · have := h 0 (by simp)
    rwa [skip_zero] at this
  · obtain rfl : k = 0 := by simpa using hk
    rw [skip_zero]
    exact h

structure Holds (q : ByteRing n) (l : Backlog) : Prop where
  legal : ∀ m ∈ l, m.Legal
  room : l.used < n
  write : q.write = skip q.read l.used
  spells : q.Spells q.read l.bytes

theorem holds_empty (h : minCapacity ≤ n) : (empty n h).Holds [] where
  legal := by simp
  room := Nat.lt_of_lt_of_le (by decide) h
  write := (skip_zero _).symm
  spells := spells_nil

theorem Holds.isEmpty (h : q.Holds l) : q.isEmpty = l.isEmpty := by
  have hw := h.write
  have hroom := h.room
  rw [ByteRing.isEmpty, Bool.eq_iff_iff, beq_iff_eq, List.isEmpty_iff, ← Backlog.used_eq_zero_iff, hw]
  conv => lhs; lhs; rw [← skip_zero q.read]
  rw [skip_inj (Nat.zero_le _) (by omega), eq_comm]

theorem Holds.flush (h : q.Holds l) : q.flush.Holds [] where
  legal := by simp
  room := Nat.lt_of_le_of_lt (Nat.zero_le _) h.room
  write := (skip_zero _).symm
  spells := spells_nil

theorem Holds.pop (h : q.Holds (m :: l)) : ∃ q', q.pop = (q', some m, []) ∧ q'.Holds l := by
  have hm := h.legal m (by simp)
  have hempty : q.isEmpty = false := h.isEmpty
  have hsp := h.spells
  rw [Backlog.bytes, List.flatMap_cons, spells_append, Message.entry, spells_cons] at hsp
  obtain ⟨⟨hlen, hbytes⟩, hrest⟩ := hsp
  have hsize : q.cells[q.read].toNat = m.length := (congrArg _ hlen).trans hm.toNat_length
  have hread : (List.range m.length).map (fun k => q.cell (skip q.read (k + 1))) = m := by
    refine List.ext_getElem (by simp) fun k h1 h2 => ?_
    rw [List.getElem_map, List.getElem_range, Nat.add_comm k 1, ← skip_skip]
    exact hbytes k h2
  refine ⟨{ q with read := skip q.read (m.length + 1) }, ?_, ?_⟩
  · have hpos := hm.length_pos
    have hmax := hm.2
    simp only [ByteRing.pop, hempty, Bool.false_eq_true, if_false, hsize]
    rw [if_neg (by omega)]
    exact congrArg (fun x => (_, some x, [])) hread
  · refine ⟨fun x hx => h.legal x (by simp [hx]), ?_, ?_, ?_⟩
    · have := h.room
      rw [Backlog.used_cons] at this
      omega
    · rw [skip_skip, ← Backlog.used_cons]
      exact h.write
    · exact hrest

theorem Holds.pop_nil (h : q.Holds []) : q.pop = (q, none, []) := by
  rw [ByteRing.pop, h.isEmpty]
  rfl

/-- Between two steps of a push that began at `start`, with `gap` places up to the reader. What the
queue held is untouched. -/
structure Keeps (start : Fin n) (gap : Nat) (q' q : ByteRing n) : Prop where
  read : q'.read = q.read
  write : q'.write = q.write
  cells : ∀ j, gap ≤ j → j < n → q'.cell (skip start j) = q.cell (skip start j)

theorem Keeps.refl {start : Fin n} {gap : Nat} : Keeps start gap q q := ⟨rfl, rfl, fun _ _ _ => rfl⟩

theorem Keeps.store {start : Fin n} {gap k : Nat} {q' : ByteRing n} (h : Keeps start gap q' q) (hk : k < gap)
    (b : UInt8) : Keeps start gap (q'.store (skip start k) b) q := by
  refine ⟨h.read, h.write, fun j hj hn => ?_⟩
  rw [cell_store, if_neg, h.cells j hj hn]
  rw [skip_inj (by omega) (by omega)]
  omega

/-- Some bytes of the message are stored, behind the place for its length. -/
structure Filled (start : Fin n) (gap : Nat) (done : List UInt8) (q' q : ByteRing n) : Prop where
  keeps : Keeps start gap q' q
  spells : q'.Spells (skip start 1) done

theorem Filled.put {start : Fin n} {gap : Nat} {done : List UInt8} {q' : ByteRing n} (h : Filled start gap done q' q)
    (hlt : done.length + 1 < gap) (hn : gap ≤ n) (b : UInt8) :
    Filled start gap (done ++ [b]) (q'.store (skip start (done.length + 1)) b) q where
  keeps := h.keeps.store hlt b
  spells := by
    refine spells_append.2 ⟨fun j hj => ?_, spells_cons.2 ⟨?_, spells_nil⟩⟩
    · rw [cell_store, skip_skip, if_neg, ← skip_skip, h.spells j hj]
      rw [eq_comm, skip_inj (by omega) (by omega)]
      omega
    · rw [cell_store, skip_skip, Nat.add_comm 1 done.length, if_pos rfl]

/-- The length goes in last. -/
theorem Filled.seal {start : Fin n} {gap : Nat} {q' : ByteRing n} (h : Filled start gap m q' q)
    (hlt : m.length + 1 < gap) (hn : gap ≤ n) :
    Keeps start gap (q'.store start (.ofNat m.length)) q ∧ (q'.store start (.ofNat m.length)).Spells start m.entry := by
  constructor
  · have hfirst := h.keeps.store (k := 0) (by omega) (.ofNat m.length)
    rwa [skip_zero] at hfirst
  · refine spells_cons.2 ⟨(cell_store q' start start _).trans (if_pos rfl), fun j hj => ?_⟩
    rw [cell_store, if_neg]
    · exact h.spells j hj
    · have := skip_inj (i := start) (a := 0) (b := 1 + j) (by omega) (by omega)
      rw [skip_skip]
      rw [skip_zero] at this
      rw [this]
      omega

theorem steps_filling {start : Fin n} {gap : Nat} (done rest : List UInt8) {q' : ByteRing n}
    (hm : m = done ++ rest) (hgap : done.length < gap) (hn : gap ≤ n) (h : Filled start gap done q' q) :
    ∃ q1, Push.steps m (rest.length + 2)
        (q', .filling start (skip start gap) (skip start (done.length + 1)) rest) =
        (q1, .finished (if m.length + 1 < gap then .ok () else .error .overflow)) ∧
      if m.length + 1 < gap then
        Keeps start gap { q1 with write := q.write } q ∧ q1.write = skip start (m.length + 1) ∧
          q1.Spells start m.entry
      else Keeps start gap q1 q := by
  -- By induction on the bytes that are left. The message goes in if it ends short of the reader.
  have hstop : skip start (done.length + 1) = skip start gap ↔ done.length + 1 = gap := skip_inj hgap (by omega)
  induction rest generalizing q' done with
  | nil =>
    rw [List.append_nil] at hm
    subst hm
    by_cases hfull : m.length + 1 = gap
    · refine ⟨q', ?_, ?_⟩
      · rw [if_neg (by omega), List.length_nil, Push.steps, Push.step, if_pos (hstop.2 hfull), Push.steps_finished]
      · rw [if_neg (by omega)]
        exact h.keeps
    · obtain ⟨hkeeps, hspells⟩ := h.seal (by omega) hn
      refine ⟨{ q'.store start (.ofNat m.length) with write := skip start (m.length + 1) }, ?_, ?_⟩
      · rw [if_pos (by omega)]
        simp only [Push.steps, Push.step, if_neg (mt hstop.1 hfull), List.length_nil]
      · rw [if_pos (by omega)]
        exact ⟨⟨hkeeps.read, rfl, hkeeps.cells⟩, rfl, hspells⟩
  | cons b rest ih =>
    by_cases hfull : done.length + 1 = gap
    · have hlong : ¬ m.length + 1 < gap := by
        rw [hm, List.length_append, List.length_cons]
        omega
      refine ⟨q', ?_, ?_⟩
      · rw [if_neg hlong, List.length_cons, Nat.add_comm (rest.length + 1) 2, ← Nat.add_assoc,
          Nat.add_comm 2 rest.length, Push.steps, Push.step, if_pos (hstop.2 hfull), Push.steps_finished]
      · rw [if_neg hlong]
        exact h.keeps
    · have hlen : (done ++ [b]).length = done.length + 1 := by simp
      obtain ⟨q1, hq1, hrest⟩ := ih (done ++ [b]) (by rw [hm, List.append_assoc]; rfl) (by omega)
        (h.put (by omega) hn b) (skip_inj (by omega) (by omega))
      refine ⟨q1, ?_, hrest⟩
      rw [hlen] at hq1
      rw [List.length_cons, Nat.add_right_comm, Push.steps, Push.step, if_neg (mt hstop.1 hfull), skip_skip]
      exact hq1

theorem push_of_not_legal (q : ByteRing n) (hm : ¬ m.Legal) : q.push m = (q, .error .invalidLength) := by
  have : Push.steps m (Push.bound m) (q, .begun) = (q, .finished (.error .invalidLength)) := by
    rw [Push.bound, Push.steps, Push.step, if_neg hm, Push.steps_finished]
  rw [push, this]

/-- A legal message is stored from the write offset on, or runs into the reader. -/
theorem push_of_legal {gap : Nat} (hm : m.Legal) (hread : q.read = skip q.write gap) (hpos : 0 < gap)
    (hn : gap ≤ n) : ∃ q', q.push m = (q', if m.length + 1 < gap then .ok () else .error .overflow) ∧
      if m.length + 1 < gap then
        Keeps q.write gap { q' with write := q.write } q ∧ q'.write = skip q.write (m.length + 1) ∧
          q'.Spells q.write m.entry
      else Keeps q.write gap q' q := by
  have hcleared : Keeps q.write gap (q.store (skip q.write 0) 0) q := Keeps.refl.store hpos 0
  rw [skip_zero] at hcleared
  obtain ⟨q', hq', hrest⟩ := steps_filling [] m (List.nil_append m).symm hpos hn ⟨hcleared, spells_nil⟩
  rw [List.length_nil, Nat.zero_add] at hq'
  refine ⟨q', ?_, hrest⟩
  have hall : Push.steps m (Push.bound m) (q, .begun) =
      Push.steps m (m.length + 2) (q.store q.write 0, .filling q.write (skip q.write gap) (skip q.write 1) m) := by
    rw [Push.bound, Push.steps, Push.step, if_pos hm, Push.steps, Push.step, Push.steps, Push.step, hread]
  rw [push, hall, hq']

theorem Holds.gap (h : q.Holds l) : q.read = skip q.write (n - l.used) := by
  have := h.room
  rw [h.write, skip_skip, show l.used + (n - l.used) = n by omega, skip_self]

theorem Holds.fits_iff (h : q.Holds l) : m.length + 1 < n - l.used ↔ l.Fits n m := by
  have := h.room
  simp only [Backlog.Fits]
  omega

/-- What the queue held is still there after a push. -/
theorem Holds.spells_keeps {q' : ByteRing n} (h : q.Holds l)
    (hk : ∀ j, n - l.used ≤ j → j < n → q'.cell (skip q.write j) = q.cell (skip q.write j)) :
    q'.Spells q.read l.bytes := by
  intro k hlt
  have hroom := h.room
  rw [Backlog.length_bytes] at hlt
  have hback : skip q.read k = skip q.write (n - l.used + k) := by rw [h.gap, skip_skip]
  rw [hback, hk _ (by omega) (by omega), ← hback]
  exact h.spells k _

theorem Holds.keeps {q' : ByteRing n} (h : q.Holds l) (hk : Keeps q.write (n - l.used) q' q) : q'.Holds l where
  legal := h.legal
  room := h.room
  write := by
    rw [hk.read, hk.write]
    exact h.write
  spells := by
    rw [hk.read]
    exact h.spells_keeps hk.cells

/-- An entry that is whole becomes a message when the writer moves past it. -/
theorem Holds.publish (h : q.Holds l) (hm : m.Legal) (hroom : m.length + 1 < n - l.used)
    (hentry : q.Spells q.write m.entry) :
    ({ q with write := skip q.write (m.length + 1) } : ByteRing n).Holds (l ++ [m]) where
  legal := by
    intro x hx
    rcases List.mem_append.1 hx with hx | hx
    · exact h.legal x hx
    · rwa [List.mem_singleton.1 hx]
  room := by
    rw [Backlog.used_append]
    omega
  write := by
    show skip q.write (m.length + 1) = skip q.read _
    rw [h.write, skip_skip, Backlog.used_append]
  spells := by
    have hlen : (l.flatMap Message.entry).length = l.used := Backlog.length_bytes l
    show q.Spells q.read _
    rw [Backlog.bytes, List.flatMap_append, spells_append]
    refine ⟨h.spells, ?_⟩
    rw [List.flatMap_singleton, hlen, ← h.write]
    exact hentry

theorem Holds.push_fits (h : q.Holds l) (hm : m.Legal) (hf : l.Fits n m) :
    ∃ q', q.push m = (q', .ok ()) ∧ q'.Holds (l ++ [m]) := by
  have hroom := h.room
  obtain ⟨q', hq', hrest⟩ := push_of_legal hm h.gap (by omega) (Nat.sub_le _ _)
  rw [if_pos (h.fits_iff.2 hf)] at hq' hrest
  obtain ⟨hkeep, hwrite, hentry⟩ := hrest
  have hnew := (h.keeps hkeep).publish hm (h.fits_iff.2 hf) hentry
  rw [← hwrite] at hnew
  exact ⟨q', hq', hnew⟩

theorem Holds.push_full (h : q.Holds l) (hm : m.Legal) (hf : ¬ l.Fits n m) :
    ∃ q', q.push m = (q', .error .overflow) ∧ q'.Holds l := by
  have hroom := h.room
  obtain ⟨q', hq', hkeep⟩ := push_of_legal hm h.gap (by omega) (Nat.sub_le _ _)
  rw [if_neg (mt h.fits_iff.1 hf)] at hq' hkeep
  exact ⟨q', hq', h.keeps hkeep⟩

/-- Without the others every message fits. -/
theorem fits_nil (hn : minCapacity ≤ n) (hm : m.Legal) : Backlog.Fits n [] m := by
  have := hm.2
  simp only [minCapacity] at hn
  simp only [Backlog.Fits, Backlog.used]
  omega

theorem Holds.pushNewest_fits (h : q.Holds l) (hm : m.Legal) (hf : l.Fits n m) :
    ∃ q', q.pushNewest m = (q', .ok (), []) ∧ q'.Holds (l ++ [m]) := by
  obtain ⟨q', hq', hl⟩ := h.push_fits hm hf
  exact ⟨q', by rw [pushNewest, hq'], hl⟩

theorem Holds.pushNewest_full (h : q.Holds l) (hn : minCapacity ≤ n) (hm : m.Legal) (hf : ¬ l.Fits n m) :
    ∃ q', q.pushNewest m = (q', .ok (), [.backlogDropped]) ∧ q'.Holds [m] := by
  obtain ⟨q1, hq1, hl⟩ := h.push_full hm hf
  obtain ⟨q2, hq2, hnew⟩ := hl.flush.push_fits hm (fits_nil hn hm)
  exact ⟨q2, by rw [pushNewest, hq1]; simp only [hq2], hnew⟩

inductive Call where
  | push (m : Message)
  | pushNewest (m : Message)
  | pop
  | flush
  | isEmpty
  deriving DecidableEq, Repr

def pushReply : Except QueueError Unit → Reply
  | .ok _ => .ok
  | .error e => .refused (.queue e)

def answer (q : ByteRing n) : Call → ByteRing n × Reply × List Notice
  | .push m => ((q.push m).1, pushReply (q.push m).2, [])
  | .pushNewest m => ((q.pushNewest m).1, pushReply (q.pushNewest m).2.1, (q.pushNewest m).2.2)
  | .pop => (q.pop.1, .message q.pop.2.1, q.pop.2.2)
  | .flush => (q.flush, .nothing, [])
  | .isEmpty => (q, .flag q.isEmpty, [])

def run (q : ByteRing n) : List Call → ByteRing n
  | [] => q
  | c :: rest => (q.answer c).1.run rest

def answers (q : ByteRing n) : List Call → List (Reply × List Notice)
  | [] => []
  | c :: rest => (q.answer c).2 :: (q.answer c).1.answers rest

end ByteRing

namespace Backlog

def answer (n : Nat) (l : Backlog) : ByteRing.Call → Backlog × Reply × List Notice
  | .push m =>
    if m.Legal then
      if Fits n l m then (l ++ [m], .ok, []) else (l, .refused (.queue .overflow), [])
    else (l, .refused (.queue .invalidLength), [])
  | .pushNewest m =>
    if m.Legal then
      if Fits n l m then (l ++ [m], .ok, []) else ([m], .ok, [.backlogDropped])
    else (l, .refused (.queue .invalidLength), [])
  | .pop => (l.tail, .message l.head?, [])
  | .flush => ([], .nothing, [])
  | .isEmpty => (l, .flag l.isEmpty, [])

def run (n : Nat) (l : Backlog) : List ByteRing.Call → Backlog
  | [] => l
  | c :: rest => run n (answer n l c).1 rest

def answers (n : Nat) (l : Backlog) : List ByteRing.Call → List (Reply × List Notice)
  | [] => []
  | c :: rest => (answer n l c).2 :: answers n (answer n l c).1 rest

end Backlog

namespace ByteRing

variable {n : Nat} {q : ByteRing n} {l : Backlog}

/-- A ring that holds a list answers a call like the list, and holds what becomes of it. -/
theorem Holds.answer (h : q.Holds l) (hn : minCapacity ≤ n) (c : Call) :
    (q.answer c).2 = (Backlog.answer n l c).2 ∧ (q.answer c).1.Holds (Backlog.answer n l c).1 := by
  cases c with
  | push m =>
    simp only [ByteRing.answer, Backlog.answer]
    by_cases hm : m.Legal
    · rw [if_pos hm]
      by_cases hf : l.Fits n m
      · obtain ⟨q', hq', hl⟩ := h.push_fits hm hf
        rw [if_pos hf, hq']
        exact ⟨rfl, hl⟩
      · obtain ⟨q', hq', hl⟩ := h.push_full hm hf
        rw [if_neg hf, hq']
        exact ⟨rfl, hl⟩
    · rw [if_neg hm, push_of_not_legal q hm]
      exact ⟨rfl, h⟩
  | pushNewest m =>
    simp only [ByteRing.answer, Backlog.answer]
    by_cases hm : m.Legal
    · rw [if_pos hm]
      by_cases hf : l.Fits n m
      · obtain ⟨q', hq', hl⟩ := h.pushNewest_fits hm hf
        rw [if_pos hf, hq']
        exact ⟨rfl, hl⟩
      · obtain ⟨q', hq', hl⟩ := h.pushNewest_full hn hm hf
        rw [if_neg hf, hq']
        exact ⟨rfl, hl⟩
    · rw [if_neg hm, pushNewest, push_of_not_legal q hm]
      exact ⟨rfl, h⟩
  | pop =>
    simp only [ByteRing.answer, Backlog.answer]
    cases l with
    | nil =>
      rw [h.pop_nil]
      exact ⟨rfl, h⟩
    | cons m l =>
      obtain ⟨q', hq', hl⟩ := h.pop
      rw [hq']
      exact ⟨rfl, hl⟩
  | flush => exact ⟨rfl, h.flush⟩
  | isEmpty => exact ⟨by rw [ByteRing.answer, Backlog.answer, h.isEmpty], h⟩

theorem Holds.answers (h : q.Holds l) (hn : minCapacity ≤ n) (calls : List Call) :
    q.answers calls = Backlog.answers n l calls ∧ (q.run calls).Holds (Backlog.run n l calls) := by
  induction calls generalizing q l with
  | nil => exact ⟨rfl, h⟩
  | cons c rest ih =>
    obtain ⟨hsame, hholds⟩ := h.answer hn c
    obtain ⟨hrest, hlast⟩ := ih hholds
    exact ⟨by rw [ByteRing.answers, Backlog.answers, hsame, hrest], hlast⟩

/-- A new queue answers every row of calls like a list that is empty at first, and then holds that list. -/
theorem answers_like_list (h : minCapacity ≤ n) (calls : List Call) :
    (empty n h).answers calls = Backlog.answers n [] calls ∧
      ((empty n h).run calls).Holds (Backlog.run n [] calls) :=
  (holds_empty h).answers h calls

/-- In the smallest ring: a full queue, entries that go over its end, and a backlog that is dropped. -/
theorem answers_like_list_smallest : minCapacity ≤ 18 ∧
    (empty 18 (by decide)).answers [.push (.replicate 16 7), .push [1], .pop, .push [1, 2], .push [], .pushNewest [3],
      .pop, .pushNewest (.replicate 15 9), .isEmpty, .pop, .pop, .flush, .isEmpty] =
      [(.ok, []), (.refused (.queue .overflow), []), (.message (some (.replicate 16 7)), []), (.ok, []),
        (.refused (.queue .invalidLength), []), (.ok, []), (.message (some [1, 2]), []),
        (.ok, [.backlogDropped]), (.flag false, []), (.message (some (.replicate 15 9)), []), (.message none, []),
        (.nothing, []), (.flag true, [])] :=
  ⟨by decide, (answers_like_list (by decide) _).1.trans (by decide)⟩

end ByteRing
end HdmiCec
