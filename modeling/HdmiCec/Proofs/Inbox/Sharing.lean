import HdmiCec.Proofs.Inbox.Backlog
import Mathlib.Data.List.Forall2
import Mathlib.Data.List.Induction

/-! The queue of received messages with both its sides at work at once. The producer makes one access to the
ring at a time, and between any two of them others may pop or flush. Whoever comes when, what is seen of the
ring could be seen of a list (`Listed`): a push that is half done and goes by an old read offset stays off
the places that are taken (`Push.Sound`), because readers only ever leave it more room. Hence every pop gives
the oldest message that waits (`pops_in_order`). -/
namespace HdmiCec

namespace ByteRing

structure Order where
  message : Message
  /-- The backlog is dropped if there is no room. -/
  newest : Bool
  deriving DecidableEq, Repr

structure Work (n : Nat) where
  order : Order
  stage : Push n := .begun

structure Shared (n : Nat) where
  ring : ByteRing n
  /-- What the producer has yet to begin. -/
  orders : List Order
  work : Option (Work n) := none

inductive Actor where
  | producer | popper | flusher
  deriving DecidableEq, Repr

inductive Sight where
  | published (m : Message)
  | popped (m : Option Message)
  | flushed
  deriving DecidableEq, Repr

def Push.sight? (m : Message) : Push n → Option Sight
  | sealed _ => some (.published m)
  | _ => none

namespace Shared

variable {n : Nat}

def opened (h : minCapacity ≤ n) (orders : List Order) : Shared n := { ring := empty n h, orders := orders }

/-- The next access of the producer, or the next order. Where there was no room, the newest message comes
again after a flush, this time for good. -/
def produce (s : Shared n) : Shared n × Option Sight :=
  match s.work, s.orders with
  | none, [] => (s, none)
  | none, o :: rest => ({ s with orders := rest, work := some { order := o } }, none)
  | some w, _ => match w.stage, w.order.newest with
    | .finished (.error .overflow), true =>
      ({ s with ring := s.ring.flush, work := some { order := { w.order with newest := false } } }, some .flushed)
    | .finished _, _ => ({ s with work := none }, none)
    | stage, _ =>
      let (ring, next) := Push.step w.order.message (s.ring, stage)
      ({ s with ring := ring, work := some { w with stage := next } }, stage.sight? w.order.message)

def step (s : Shared n) : Actor → Shared n × Option Sight
  | .producer => s.produce
  | .popper => ({ s with ring := s.ring.pop.1 }, some (.popped s.ring.pop.2.1))
  | .flusher => ({ s with ring := s.ring.flush }, some .flushed)

def run (s : Shared n) : List Actor → Shared n
  | [] => s
  | a :: rest => (s.step a).1.run rest

def log (s : Shared n) : List Actor → List Sight
  | [] => []
  | a :: rest => (s.step a).2.toList ++ (s.step a).1.log rest

end Shared

variable {n : Nat} {q : ByteRing n} {l : Backlog} {m : Message} {o : Order} {p : Push n} {orders : List Order}

theorem Push.steps_filling_finished (m : Message) (q : ByteRing n) (start limit next : Fin n) (rest : List UInt8) :
    ∃ q' r, steps m (rest.length + 2) (q, filling start limit next rest) = (q', finished r) := by
  induction rest generalizing q next with
  | nil =>
    by_cases hfull : next = limit
    · exact ⟨q, .error .overflow, by simp only [steps, step, if_pos hfull, List.length_nil]⟩
    · exact ⟨_, .ok (), by simp only [steps, step, if_neg hfull, List.length_nil]; rfl⟩
  | cons b rest ih =>
    by_cases hfull : next = limit
    · exact ⟨q, .error .overflow, by rw [steps, step, if_pos hfull, steps_finished]⟩
    · obtain ⟨q', r, h⟩ := ih (q.store next b) (skip next 1)
      exact ⟨q', r, by rw [List.length_cons, Nat.add_right_comm, steps, step, if_neg hfull, h]⟩

theorem Push.steps_bound (m : Message) (q : ByteRing n) :
    steps m (bound m) (q, begun) = ((q.push m).1, finished (q.push m).2) := by
  have hover : ∃ q' r, steps m (bound m) (q, begun) = (q', finished r) := by
    rw [bound, steps, step]
    split
    · exact steps_filling_finished m _ _ _ _ m
    · exact ⟨q, .error .invalidLength, steps_finished m _ q _⟩
  obtain ⟨q', r, h⟩ := hover
  rw [push, h]

/-- As long as the push is under way the producer takes its steps. -/
theorem Shared.run_push (orders : List Order) (o : Order) {k : Nat} {q' : ByteRing n} {r : Except QueueError Unit}
    (h : Push.steps o.message k (q, p) = (q', .finished r)) :
    ∃ j, ({ ring := q, orders := orders, work := some { order := o, stage := p } } : Shared n).run
      (List.replicate j .producer) = { ring := q', orders := orders, work := some { order := o, stage := .finished r } } := by
  induction k generalizing q p with
  | zero =>
    cases h
    exact ⟨0, rfl⟩
  | succ k ih =>
    cases p with
    | finished r' =>
      rw [Push.steps_finished] at h
      cases h
      exact ⟨0, rfl⟩
    | _ =>
      obtain ⟨j, hj⟩ := ih h
      exact ⟨j + 1, hj⟩

theorem Shared.run_append (s : Shared n) (a b : List Actor) : s.run (a ++ b) = (s.run a).run b := by
  induction a generalizing s with
  | nil => rfl
  | cons x rest ih => exact ih _

theorem Shared.alone_trans {s t u : Shared n} (h : ∃ j, s.run (List.replicate j .producer) = t)
    (h' : ∃ j, t.run (List.replicate j .producer) = u) : ∃ j, s.run (List.replicate j .producer) = u := by
  obtain ⟨i, rfl⟩ := h
  obtain ⟨j, rfl⟩ := h'
  exact ⟨i + j, by rw [← List.replicate_append_replicate, run_append]⟩

/-- A producer that nobody disturbs does to the ring what its order says. -/
theorem Shared.run_alone (q : ByteRing n) (o : Order) (orders : List Order) :
    ∃ j, ({ ring := q, orders := o :: orders } : Shared n).run (List.replicate j .producer) =
      { ring := if o.newest then (q.pushNewest o.message).1 else (q.push o.message).1, orders := orders } := by
  obtain ⟨m, newest⟩ := o
  have begun : ∃ j, ({ ring := q, orders := ⟨m, newest⟩ :: orders } : Shared n).run (List.replicate j .producer) =
      { ring := q, orders := orders, work := some { order := ⟨m, newest⟩ } } := ⟨1, rfl⟩
  have pushed := alone_trans begun (run_push orders ⟨m, newest⟩ (Push.steps_bound m q))
  cases newest with
  | false => exact alone_trans pushed ⟨1, by simp [run, step, produce]⟩
  | true =>
    generalize hq : q.push m = x at pushed
    obtain ⟨q1, r⟩ := x
    match r with
    | .ok _ => exact alone_trans pushed ⟨1, by simp [run, step, produce, pushNewest, hq]⟩
    | .error .invalidLength => exact alone_trans pushed ⟨1, by simp [run, step, produce, pushNewest, hq]⟩
    | .error .overflow =>
      have flushed := alone_trans pushed ⟨1, rfl⟩
      have again := alone_trans flushed (run_push orders ⟨m, false⟩ (Push.steps_bound m q1.flush))
      exact alone_trans again ⟨1, by simp [run, step, produce, pushNewest, hq]⟩

/-- All that may be seen of a list of messages, and what waits in it then. -/
inductive Listed : List Sight → Backlog → Prop
  | opened : Listed [] []
  | publish {log : List Sight} {l : Backlog} (m : Message) :
      Listed log l → Listed (log ++ [.published m]) (l ++ [m])
  | pop {log : List Sight} {m : Message} {l : Backlog} :
      Listed log (m :: l) → Listed (log ++ [.popped (some m)]) l
  | miss {log : List Sight} : Listed log [] → Listed (log ++ [.popped none]) []
  | flush {log : List Sight} {l : Backlog} : Listed log l → Listed (log ++ [.flushed]) []

/-! A push among others. -/

theorem Holds.store (h : q.Holds l) {k : Nat} (hk : k < n - l.used) (b : UInt8) :
    (q.store (skip q.write k) b).Holds l := h.keeps (Keeps.refl.store hk b)

/-- Where a push of `m` stands in a ring with `free` places from the writer on to the reader. The read
offset that it goes by may be an old one; then it has fewer places than are free. -/
def Push.Sound (q : ByteRing n) (free : Nat) (m : Message) : Push n → Prop
  | begun | finished _ => True
  | located start => m.Legal ∧ start = q.write
  | bounded start limit => m.Legal ∧ start = q.write ∧ ∃ gap, limit = skip start gap ∧ 0 < gap ∧ gap ≤ free
  | filling start limit next rest => m.Legal ∧ start = q.write ∧ ∃ gap done, m = done ++ rest ∧
      limit = skip start gap ∧ next = skip start (done.length + 1) ∧ done.length < gap ∧ gap ≤ free ∧
      q.Spells (skip start 1) done
  | sealed stop => m.Legal ∧ stop = skip q.write (m.length + 1) ∧ m.length + 1 < free ∧ q.Spells q.write m.entry

/-- Readers may come and go, they leave more room. -/
theorem Push.Sound.read {free more : Nat} (h : p.Sound q free m) (hmore : free ≤ more) (r : Fin n) :
    p.Sound { q with read := r } more m := by
  cases p with
  | begun | finished => trivial
  | located start => exact h
  | bounded start limit =>
    obtain ⟨hm, hstart, gap, hlimit, hpos, hgap⟩ := h
    exact ⟨hm, hstart, gap, hlimit, hpos, Nat.le_trans hgap hmore⟩
  | filling start limit next rest =>
    obtain ⟨hm, hstart, gap, done, hdone, hlimit, hnext, hlt, hgap, hspells⟩ := h
    exact ⟨hm, hstart, gap, done, hdone, hlimit, hnext, hlt, Nat.le_trans hgap hmore, hspells⟩
  | sealed stop =>
    obtain ⟨hm, hstop, hlt, hspells⟩ := h
    exact ⟨hm, hstop, Nat.lt_of_lt_of_le hlt hmore, hspells⟩

def Push.adds (m : Message) : Push n → Backlog
  | sealed _ => [m]
  | _ => []

/-- One access of a push: the queue holds what it held, and the message once it is published. -/
theorem Push.Sound.step (h : p.Sound q (n - l.used) m) (hq : q.Holds l) :
    (Push.step m (q, p)).1.Holds (l ++ p.adds m) ∧
      (Push.step m (q, p)).2.Sound (Push.step m (q, p)).1 (n - (l ++ p.adds m).used) m := by
  have hroom := hq.room
  cases p with
  | finished r =>
    simp only [Push.adds, List.append_nil]
    exact ⟨hq, trivial⟩
  | sealed stop =>
    obtain ⟨hm, rfl, hlt, hentry⟩ := h
    exact ⟨hq.publish hm hlt hentry, trivial⟩
  | begun =>
    simp only [Push.adds, List.append_nil, Push.step]
    split
    · next hm => exact ⟨hq, hm, rfl⟩
    · exact ⟨hq, trivial⟩
  | located start =>
    obtain ⟨hm, rfl⟩ := h
    simp only [Push.adds, List.append_nil, Push.step]
    exact ⟨hq, hm, rfl, n - l.used, hq.gap, by omega, Nat.le_refl _⟩
  | bounded start limit =>
    obtain ⟨hm, rfl, gap, hlimit, hpos, hgap⟩ := h
    simp only [Push.adds, List.append_nil, Push.step]
    have hstore := hq.store (k := 0) (by omega) 0
    rw [skip_zero] at hstore
    exact ⟨hstore, hm, rfl, gap, [], rfl, hlimit, rfl, hpos, hgap, spells_nil⟩
  | filling start limit next rest =>
    obtain ⟨hm, rfl, gap, done, hdone, rfl, rfl, hlt, hgap, hspells⟩ := h
    have hfull : skip q.write (done.length + 1) = skip q.write gap ↔ done.length + 1 = gap := skip_inj hlt (by omega)
    have hfilled : Filled q.write gap done q q := ⟨.refl, hspells⟩
    cases rest with
    | nil =>
      simp only [Push.adds, List.append_nil, Push.step]
      rw [List.append_nil] at hdone
      subst hdone
      by_cases hend : m.length + 1 = gap
      · rw [if_pos (hfull.2 hend)]
        exact ⟨hq, trivial⟩
      · rw [if_neg (mt hfull.1 hend)]
        have hstore := hq.store (k := 0) (by omega) (.ofNat m.length)
        rw [skip_zero] at hstore
        exact ⟨hstore, hm, rfl, by omega, (hfilled.seal (by omega) (by omega)).2⟩
    | cons b rest =>
      simp only [Push.adds, List.append_nil, Push.step]
      by_cases hend : done.length + 1 = gap
      · rw [if_pos (hfull.2 hend)]
        exact ⟨hq, trivial⟩
      · rw [if_neg (mt hfull.1 hend)]
        have hput := hfilled.put (by omega) (by omega) b
        refine ⟨hq.store (by omega) b, hm, rfl, gap, done ++ [b], by rw [hdone, List.append_assoc]; rfl, rfl, ?_, ?_,
          hgap, hput.spells⟩
        · rw [skip_skip, List.length_append]
          rfl
        · rw [List.length_append]
          exact Nat.lt_of_le_of_ne hlt hend

/-- A message is seen just where it is added. -/
theorem Push.listed (p : Push n) (m : Message) {log : List Sight} (h : Listed log l) :
    Listed (log ++ (p.sight? m).toList) (l ++ p.adds m) := by
  cases p with
  | sealed stop => exact h.publish m
  | _ => simpa [Push.sight?, Push.adds] using h

theorem pop_keeps (q : ByteRing n) : q.pop.1 = { q with read := q.pop.1.read } := by
  unfold pop
  split
  · rfl
  · simp only
    split <;> rfl

structure Shared.Holds (s : Shared n) (l : Backlog) : Prop where
  ring : s.ring.Holds l
  work : ∀ w, s.work = some w → w.stage.Sound s.ring (n - l.used) w.order.message

namespace Shared

variable {s : Shared n}

theorem holds_opened (h : minCapacity ≤ n) (orders : List Order) : (opened h orders).Holds [] where
  ring := holds_empty h
  work := fun w hw => by cases hw

/-- Whoever comes next, what is seen could be seen of a list. -/
theorem Holds.step (h : s.Holds l) (a : Actor) : ∃ l', (s.step a).1.Holds l' ∧
    ∀ log, Listed log l → Listed (log ++ (s.step a).2.toList) l' := by
  have reader : ∀ r l', ({ s.ring with read := r } : ByteRing n).Holds l' → l'.used ≤ l.used →
      ({ s with ring := { s.ring with read := r } } : Shared n).Holds l' := fun r l' hl' hle =>
    ⟨hl', fun w hw => (h.work w hw).read (by omega) r⟩
  have flushed : ({ s with ring := s.ring.flush } : Shared n).Holds [] :=
    reader s.ring.write [] h.ring.flush (Nat.zero_le _)
  have seen : ∀ log, Listed log l → Listed (log ++ [.flushed]) [] := fun log hlog => hlog.flush
  cases a with
  | flusher => exact ⟨[], flushed, seen⟩
  | popper =>
    cases l with
    | nil =>
      have hpop := h.ring.pop_nil
      refine ⟨[], ?_, ?_⟩
      · rw [Shared.step, hpop]
        exact h
      · intro log hlog
        rw [Shared.step, hpop]
        exact hlog.miss
    | cons m l =>
      obtain ⟨q', hpop, hl⟩ := h.ring.pop
      have hkeeps : q' = { s.ring with read := q'.read } := by simpa only [hpop] using s.ring.pop_keeps
      refine ⟨l, ?_, ?_⟩
      · rw [Shared.step, hpop]
        rw [hkeeps] at hl ⊢
        exact reader _ l hl (by rw [Backlog.used_cons]; omega)
      · intro log hlog
        rw [Shared.step, hpop]
        exact hlog.pop
  | producer =>
    obtain ⟨ring, orders, work⟩ := s
    cases work with
    | none =>
      cases orders with
      | nil => exact ⟨l, h, fun log hlog => by simpa [Shared.step, produce] using hlog⟩
      | cons o rest =>
        refine ⟨l, ⟨h.ring, ?_⟩, fun log hlog => by simpa [Shared.step, produce] using hlog⟩
        rintro _ ⟨⟩
        trivial
    | some w =>
      obtain ⟨⟨m, newest⟩, stage⟩ := w
      have hstep := (h.work _ rfl).step h.ring
      have hseen : ∀ log, Listed log l → _ := fun log hlog => stage.listed m hlog
      cases stage with
      | finished r =>
        have rests : ({ ring := ring, orders := orders } : Shared n).Holds l := ⟨h.ring, fun w hw => by cases hw⟩
        match r, newest with
        | .error .overflow, true =>
          refine ⟨[], ⟨flushed.ring, ?_⟩, seen⟩
          rintro _ ⟨⟩
          trivial
        | .error .overflow, false => exact ⟨l, rests, fun log hlog => by simpa [Shared.step, produce] using hlog⟩
        | .error .invalidLength, _ => exact ⟨l, rests, fun log hlog => by simpa [Shared.step, produce] using hlog⟩
        | .ok _, _ => exact ⟨l, rests, fun log hlog => by simpa [Shared.step, produce] using hlog⟩
      | _ =>
        refine ⟨_, ⟨hstep.1, ?_⟩, hseen⟩
        rintro _ ⟨⟩
        exact hstep.2

theorem Holds.run (h : s.Holds l) {log : List Sight} (hlog : Listed log l) (actors : List Actor) :
    ∃ l', (s.run actors).Holds l' ∧ Listed (log ++ s.log actors) l' := by
  -- By induction on who comes, with the backlog after each access.
  induction actors generalizing s l log with
  | nil => exact ⟨l, h, by simpa [Shared.log] using hlog⟩
  | cons a rest ih =>
    obtain ⟨l1, hl1, hseen⟩ := h.step a
    obtain ⟨l2, hl2, hrest⟩ := ih hl1 (hseen log hlog)
    exact ⟨l2, hl2, by rw [Shared.log, ← List.append_assoc]; exact hrest⟩

end Shared

/-! Which message came out where. -/

/-- The places of a log where the messages that wait were published, if before place `k` these were `w`. -/
def Sight.note (w : List Nat) (k : Nat) : Sight → List Nat
  | published _ => w ++ [k]
  | popped (some _) => w.tail
  | popped none => w
  | flushed => []

def unread (log : List Sight) : List Nat := log.zipIdx.foldl (fun w x => x.1.note w x.2) []

/-- Where the message was published that is popped at place `i`. -/
def source (log : List Sight) (i : Nat) : Nat := (unread (log.take i)).headD 0

def Fetched (log : List Sight) (i k : Nat) : Prop :=
  ∃ j m, j < i ∧ log[j]? = some (.popped (some m)) ∧ source log j = k

def Flushed (log : List Sight) (i k : Nat) : Prop := ∃ j, k < j ∧ j < i ∧ log[j]? = some .flushed

variable {log : List Sight} {x y : Sight} {i j k : Nat}

theorem unread_append (log : List Sight) (x : Sight) : unread (log ++ [x]) = x.note (unread log) log.length := by
  simp [unread, List.zipIdx_append]

theorem unread_lt (hk : k ∈ unread log) : k < log.length := by
  induction log using List.reverseRecOn generalizing k with
  | nil => cases hk
  | append_singleton log x ih =>
    rw [unread_append] at hk
    rw [List.length_append, List.length_singleton, Nat.lt_succ_iff]
    cases x with
    | published m =>
      rcases List.mem_append.1 hk with hk | hk
      · exact Nat.le_of_lt (ih hk)
      · exact Nat.le_of_eq (List.mem_singleton.1 hk)
    | popped r =>
      cases r with
      | none => exact Nat.le_of_lt (ih hk)
      | some m => exact Nat.le_of_lt (ih (List.mem_of_mem_tail hk))
    | flushed => cases hk

theorem source_lt (h : log[i]? = some y) : source log i < log.length := by
  have hi := (List.getElem?_eq_some_iff.1 h).1
  rw [source]
  cases hw : unread (log.take i) with
  | nil => exact Nat.lt_of_le_of_lt (Nat.zero_le i) hi
  | cons k w =>
    have hk : k < (log.take i).length := unread_lt (hw ▸ List.mem_cons_self)
    rw [List.length_take] at hk
    exact Nat.lt_of_lt_of_le hk (Nat.min_le_right _ _)

theorem getElem?_concat (h : (log ++ [x])[i]? = some y) : log[i]? = some y ∨ i = log.length ∧ x = y := by
  rw [List.getElem?_append] at h
  split at h
  · exact .inl h
  · next hle =>
    obtain ⟨hi, hx⟩ := List.getElem?_eq_some_iff.1 h
    obtain hi : i - log.length = 0 := by simpa using hi
    refine .inr ⟨by omega, ?_⟩
    simpa [hi] using h

theorem getElem?_append_of_some {rest : List Sight} (h : log[i]? = some y) : (log ++ rest)[i]? = some y := by
  obtain ⟨hi, hy⟩ := List.getElem?_eq_some_iff.1 h
  rw [List.getElem?_append_left hi]
  exact h

theorem source_append {rest : List Sight} (hi : i ≤ log.length) : source (log ++ rest) i = source log i := by
  rw [source, source, List.take_append_of_le_length hi]

/-- What waits was published in this order, after all that was popped; any other message is gone for a reason. -/
structure Accounted (log : List Sight) (l : Backlog) : Prop where
  waits : List.Forall₂ (fun k m => log[k]? = some (.published m)) (unread log) l
  sorted : (unread log).Pairwise (· < ·)
  later : ∀ i m, log[i]? = some (.popped (some m)) → ∀ k ∈ unread log, source log i < k
  gone : ∀ k m, log[k]? = some (.published m) →
    k ∈ unread log ∨ Fetched log log.length k ∨ Flushed log log.length k

theorem Fetched.append (h : Fetched log i k) (x : Sight) (hij : i ≤ j) : Fetched (log ++ [x]) j k := by
  obtain ⟨a, m, ha, hpop, hsource⟩ := h
  have hlt := (List.getElem?_eq_some_iff.1 hpop).1
  exact ⟨a, m, by omega, getElem?_append_of_some hpop, (source_append (by omega)).trans hsource⟩

theorem Flushed.append (h : Flushed log i k) (x : Sight) (hij : i ≤ j) : Flushed (log ++ [x]) j k := by
  obtain ⟨a, hk, ha, hflush⟩ := h
  exact ⟨a, hk, by omega, getElem?_append_of_some hflush⟩

theorem source_old (h : log[i]? = some y) (x : Sight) : source (log ++ [x]) i = source log i :=
  source_append (Nat.le_of_lt (List.getElem?_eq_some_iff.1 h).1)

theorem source_last (log : List Sight) (x : Sight) : source (log ++ [x]) log.length = (unread log).headD 0 := by
  rw [source_append (Nat.le_refl _), source, List.take_length]

/-- A message that is gone stays gone. -/
theorem gone_append (h : Fetched log log.length k ∨ Flushed log log.length k) (x : Sight) :
    Fetched (log ++ [x]) (log ++ [x]).length k ∨ Flushed (log ++ [x]) (log ++ [x]).length k := by
  have hlen : log.length ≤ (log ++ [x]).length := by simp
  exact h.imp (·.append x hlen) (·.append x hlen)

/-- If nothing is published, only what waited has to be accounted for. -/
theorem Accounted.gone_after (h : Accounted log l) (hx : ∀ m, x ≠ .published m) (hwaits : ∀ k ∈ unread log,
      k ∈ unread (log ++ [x]) ∨ Fetched (log ++ [x]) (log ++ [x]).length k ∨ Flushed (log ++ [x]) (log ++ [x]).length k)
    (k : Nat) (m : Message) (hk : (log ++ [x])[k]? = some (.published m)) :
    k ∈ unread (log ++ [x]) ∨ Fetched (log ++ [x]) (log ++ [x]).length k ∨ Flushed (log ++ [x]) (log ++ [x]).length k := by
  rcases getElem?_concat hk with hk | ⟨-, hp⟩
  · exact (h.gone k m hk).elim (hwaits k) fun hgone => .inr (gone_append hgone x)
  · exact absurd hp (hx m)

theorem Accounted.cleared (h : Accounted log l) (hx : ∀ m, x ≠ .published m) (hunread : unread (log ++ [x]) = [])
    (hwaits : ∀ k ∈ unread log, Flushed (log ++ [x]) (log ++ [x]).length k) : Accounted (log ++ [x]) [] where
  waits := by rw [hunread]; exact .nil
  sorted := by rw [hunread]; exact .nil
  later := fun i m hi k hk => by rw [hunread] at hk; cases hk
  gone := h.gone_after hx fun k hk => .inr (.inr (hwaits k hk))

theorem Accounted.publish (h : Accounted log l) (m : Message) : Accounted (log ++ [.published m]) (l ++ [m]) := by
  have hunread : unread (log ++ [.published m]) = unread log ++ [log.length] := unread_append log _
  refine ⟨?_, ?_, fun i r hi k hk => ?_, fun k r hk => ?_⟩
  · rw [hunread]
    refine List.rel_append (h.waits.imp fun k x hk => getElem?_append_of_some hk) (.cons ?_ .nil)
    simp
  · rw [hunread, List.pairwise_append]
    refine ⟨h.sorted, List.pairwise_singleton _ _, fun a ha b hb => ?_⟩
    rw [List.mem_singleton.1 hb]
    exact unread_lt ha
  · rcases getElem?_concat hi with hi | ⟨-, hx⟩
    · rw [source_old hi]
      rw [hunread, List.mem_append, List.mem_singleton] at hk
      rcases hk with hk | rfl
      · exact h.later i r hi k hk
      · exact source_lt hi
    · cases hx
  · rw [hunread, List.mem_append, List.mem_singleton]
    rcases getElem?_concat hk with hk | ⟨rfl, -⟩
    · exact (h.gone k r hk).imp .inl (gone_append · _)
    · exact .inl (.inr rfl)

theorem Accounted.pop (h : Accounted log (m :: l)) : Accounted (log ++ [.popped (some m)]) l := by
  obtain ⟨k0, w, -, hrest, hw⟩ := List.forall₂_cons_right_iff.1 h.waits
  have hunread : unread (log ++ [.popped (some m)]) = w := by rw [unread_append, hw]; rfl
  have hsorted := List.pairwise_cons.1 (hw ▸ h.sorted)
  have hlast : source (log ++ [.popped (some m)]) log.length = k0 := by rw [source_last, hw]; rfl
  refine ⟨?_, ?_, fun i r hi k hk => ?_, h.gone_after (fun _ => Sight.noConfusion) fun k hk => ?_⟩
  · rw [hunread]
    exact hrest.imp fun k x hk => getElem?_append_of_some hk
  · rw [hunread]
    exact hsorted.2
  · rw [hunread] at hk
    rcases getElem?_concat hi with hi | ⟨rfl, -⟩
    · rw [source_old hi]
      exact h.later i r hi k (hw ▸ List.mem_cons_of_mem _ hk)
    · rw [hlast]
      exact hsorted.1 k hk
  · rw [hunread]
    rcases List.mem_cons.1 (hw ▸ hk) with rfl | hk
    · exact .inr (.inl ⟨log.length, m, by simp, by simp, hlast⟩)
    · exact .inl hk

theorem Listed.accounted (h : Listed log l) : Accounted log l := by
  induction h with
  | opened => exact ⟨.nil, .nil, by simp, by simp⟩
  | publish m h ih => exact ih.publish m
  | pop h ih => exact ih.pop
  | @miss log h ih =>
    have hempty : unread log = [] := List.forall₂_nil_right_iff.1 ih.waits
    refine ih.cleared (fun _ => Sight.noConfusion) (by rw [unread_append, hempty]; rfl) fun k hk => ?_
    rw [hempty] at hk
    cases hk
  | @flush log l h ih =>
    refine ih.cleared (fun _ => Sight.noConfusion) (unread_append log _) fun k hk => ?_
    exact ⟨log.length, unread_lt hk, by simp, by simp⟩

theorem Listed.popped_at (h : Listed log l) {r : Option Message} (hi : log[i]? = some (.popped r)) :
    ∃ l', Listed (log.take i) l' ∧ r = l'.head? := by
  have older : ∀ {log : List Sight} {x : Sight}, log[i]? = some (.popped r) →
      (∃ l', Listed (log.take i) l' ∧ r = l'.head?) → ∃ l', Listed ((log ++ [x]).take i) l' ∧ r = l'.head? := by
    rintro log x hi ⟨l', hl', hr⟩
    rw [List.take_append_of_le_length (Nat.le_of_lt (List.getElem?_eq_some_iff.1 hi).1)]
    exact ⟨l', hl', hr⟩
  induction h with
  | opened => cases hi
  | publish m h ih =>
    rcases getElem?_concat hi with hi | ⟨-, hx⟩
    · exact older hi (ih hi)
    · cases hx
  | @pop log m l h ih =>
    rcases getElem?_concat hi with hi | ⟨rfl, hx⟩
    · exact older hi (ih hi)
    · cases hx
      exact ⟨m :: l, by rwa [List.take_left'  rfl], rfl⟩
  | @miss log h ih =>
    rcases getElem?_concat hi with hi | ⟨rfl, hx⟩
    · exact older hi (ih hi)
    · cases hx
      exact ⟨[], by rwa [List.take_left' rfl], rfl⟩
  | flush h ih =>
    rcases getElem?_concat hi with hi | ⟨-, hx⟩
    · exact older hi (ih hi)
    · cases hx

/-- What the reader of the queue can rely on, if the message that is popped at place `i` was published at place
`source i`. -/
structure InOrder (log : List Sight) (source : Nat → Nat) : Prop where
  /-- Every message that comes out had been published, and is as it was published. -/
  origin : ∀ i m, log[i]? = some (.popped (some m)) → source i < i ∧ log[source i]? = some (.published m)
  /-- None comes out twice or before an earlier one. -/
  order : ∀ i j m m', i < j → log[i]? = some (.popped (some m)) → log[j]? = some (.popped (some m')) →
    source i < source j
  /-- A pop leaves out a message only if that was popped before, or flushed since it was published. -/
  kept : ∀ i k m r, k < i → log[k]? = some (.published m) → log[i]? = some (.popped r) → r = none ∨ k < source i →
    (∃ j m', j < i ∧ log[j]? = some (.popped (some m')) ∧ source j = k) ∨ ∃ j, k < j ∧ j < i ∧ log[j]? = some .flushed

theorem source_take (hij : i ≤ j) : source (log.take j) i = source log i := by
  rw [source, source, List.take_take, Nat.min_eq_left hij]

theorem Listed.source_of_popped (h : Listed log l) (hi : log[i]? = some (.popped (some m))) :
    ∃ w l', unread (log.take i) = source log i :: w ∧ Listed (log.take i) (m :: l') := by
  obtain ⟨l', hl', hhead⟩ := h.popped_at hi
  obtain ⟨rest, rfl⟩ := List.head?_eq_some_iff.1 hhead.symm
  obtain ⟨k, w, -, -, hw⟩ := List.forall₂_cons_right_iff.1 hl'.accounted.waits
  exact ⟨w, rest, by rw [source, hw]; rfl, hl'⟩

theorem Listed.inOrder (h : Listed log l) : InOrder log (source log) where
  origin := by
    intro i m hi
    obtain ⟨w, rest, hw, hbefore⟩ := h.source_of_popped hi
    have hwaits := hbefore.accounted.waits
    rw [hw] at hwaits
    have hpub := (List.forall₂_cons.1 hwaits).1
    have hlt := unread_lt (hw ▸ List.mem_cons_self : source log i ∈ unread (log.take i))
    rw [List.length_take] at hlt
    have hlti : source log i < i := Nat.lt_of_lt_of_le hlt (Nat.min_le_left _ _)
    exact ⟨hlti, by rwa [List.getElem?_take_of_lt hlti] at hpub⟩
  order := by
    intro i j m m' hij hi hj
    obtain ⟨w, rest, hw, hbefore⟩ := h.source_of_popped hj
    have hold : (log.take j)[i]? = some (.popped (some m)) := by rwa [List.getElem?_take_of_lt hij]
    have hlater := hbefore.accounted.later i m hold (source log j) (hw ▸ List.mem_cons_self)
    rwa [source_take (Nat.le_of_lt hij)] at hlater
  kept := by
    intro i k m r hki hk hi hpast
    obtain ⟨l', hbefore, hr⟩ := h.popped_at hi
    have hlen : (log.take i).length = i :=
      List.length_take_of_le (Nat.le_of_lt (List.getElem?_eq_some_iff.1 hi).1)
    have hold : (log.take i)[k]? = some (.published m) := by rwa [List.getElem?_take_of_lt hki]
    have hwaits := hbefore.accounted.waits
    rcases hbefore.accounted.gone k m hold with hwait | ⟨j, m', hj, hpop, hsource⟩ | ⟨j, hkj, hj, hflush⟩
    · -- A message that waits comes no earlier than the one that is popped.
      exfalso
      cases l' with
      | nil =>
        rw [List.forall₂_nil_right_iff.1 hwaits] at hwait
        cases hwait
      | cons x rest =>
        obtain ⟨a, w, -, -, hw⟩ := List.forall₂_cons_right_iff.1 hwaits
        have hsource : source log i = a := by rw [source, hw]; rfl
        have hsorted := List.pairwise_cons.1 (hw ▸ hbefore.accounted.sorted)
        have hlt : k < a := by
          rcases hpast with rfl | hlt
          · cases hr
          · exact hsource ▸ hlt
        rcases List.mem_cons.1 (hw ▸ hwait) with rfl | hmem
        · exact Nat.lt_irrefl _ hlt
        · exact Nat.lt_asymm hlt (hsorted.1 k hmem)
    · rw [hlen] at hj
      rw [List.getElem?_take_of_lt hj] at hpop
      rw [source_take (Nat.le_of_lt hj)] at hsource
      exact .inl ⟨j, m', hj, hpop, hsource⟩
    · rw [hlen] at hj
      rw [List.getElem?_take_of_lt hj] at hflush
      exact .inr ⟨j, hkj, hj, hflush⟩

/-! Only what was ordered is published. -/

def Sight.published? : Sight → Option Message
  | published m => some m
  | _ => none

def Work.left (w : Work n) : List Message :=
  match w.stage, w.order.newest with
  | .finished (.error .overflow), true => [w.order.message]
  | .finished _, _ => []
  | _, _ => [w.order.message]

def Shared.left (s : Shared n) : List Message := (s.work.elim [] Work.left) ++ s.orders.map Order.message

theorem Work.left_sublist (w : Work n) : w.left.Sublist [w.order.message] := by
  unfold Work.left
  split
  · exact .refl _
  · exact List.nil_sublist _
  · exact .refl _

/-- A push publishes its message once. -/
theorem Push.left_step (o : Order) (q : ByteRing n) (p : Push n) :
    ((p.sight? o.message).toList.filterMap Sight.published? ++
      Work.left { order := o, stage := (Push.step o.message (q, p)).2 }).Sublist (Work.left { order := o, stage := p }) := by
  have rest : ∀ p, (Work.left { order := o, stage := (Push.step o.message (q, p)).2 }).Sublist [o.message] :=
    fun p => Work.left_sublist { order := o, stage := (Push.step o.message (q, p)).2 }
  cases p with
  | begun => exact rest begun
  | located start => exact rest (located start)
  | bounded start limit => exact rest (bounded start limit)
  | filling start limit next bytes => exact rest (filling start limit next bytes)
  | sealed stop => exact .refl _
  | finished r => exact .refl _

/-- Whoever comes next, what is published was left to be. -/
theorem Shared.left_step (s : Shared n) (a : Actor) :
    ((s.step a).2.toList.filterMap Sight.published? ++ (s.step a).1.left).Sublist s.left := by
  cases a with
  | popper => exact .refl _
  | flusher => exact .refl _
  | producer =>
    obtain ⟨ring, orders, work⟩ := s
    cases work with
    | none =>
      cases orders with
      | nil => exact .refl _
      | cons o rest => exact .refl _
    | some w =>
      obtain ⟨o, stage⟩ := w
      have push : ∀ p : Push n, ((p.sight? o.message).toList.filterMap Sight.published? ++
          (Work.left { order := o, stage := (Push.step o.message (ring, p)).2 } ++ orders.map Order.message)).Sublist
          (Work.left { order := o, stage := p } ++ orders.map Order.message) := by
        intro p
        rw [← List.append_assoc]
        exact (Push.left_step o ring p).append (.refl _)
      cases stage with
      | begun => exact push .begun
      | located start => exact push (.located start)
      | bounded start limit => exact push (.bounded start limit)
      | filling start limit next rest => exact push (.filling start limit next rest)
      | sealed stop => exact push (.sealed stop)
      | finished r =>
        obtain ⟨m, newest⟩ := o
        match r, newest with
        | .error .overflow, true => exact .refl _
        | .error .overflow, false => exact .refl _
        | .error .invalidLength, _ => exact .refl _
        | .ok _, _ => exact .refl _

theorem Shared.published_sublist (s : Shared n) (actors : List Actor) :
    ((s.log actors).filterMap Sight.published?).Sublist s.left := by
  induction actors generalizing s with
  | nil => exact List.nil_sublist _
  | cons a rest ih =>
    rw [Shared.log, List.filterMap_append]
    exact ((List.Sublist.refl _).append (ih _)).trans (s.left_step a)

/-- Messages come out of the ring whole and in the order in which they went in, whenever anybody comes. -/
theorem pops_in_order (h : minCapacity ≤ n) (orders : List Order) (actors : List Actor) :
    (((Shared.opened h orders).log actors).filterMap Sight.published?).Sublist (orders.map Order.message) ∧
      ∃ source, InOrder ((Shared.opened h orders).log actors) source := by
  obtain ⟨l, -, hlog⟩ := (Shared.holds_opened h orders).run .opened actors
  exact ⟨(Shared.opened h orders).published_sublist actors, _, Listed.inOrder hlog⟩

/-- A pop amid a push that has found no room by the old read offset. -/
theorem pops_in_order_amid_push : minCapacity ≤ 18 ∧
    (Shared.opened (n := 18) (by decide) [⟨[4, 54], false⟩, ⟨.replicate 16 7, true⟩]).log
        (.replicate 12 .producer ++ .popper :: .replicate 42 .producer ++ [.popper, .popper]) =
      [.published [4, 54], .popped (some [4, 54]), .flushed, .published (.replicate 16 7),
        .popped (some (.replicate 16 7)), .popped none] ∧
    ∃ source, InOrder [.published [4, 54], .popped (some [4, 54]), .flushed, .published (.replicate 16 7),
        .popped (some (.replicate 16 7)), .popped none] source := by
  have hlog : (Shared.opened (n := 18) (by decide) [⟨[4, 54], false⟩, ⟨.replicate 16 7, true⟩]).log
      (.replicate 12 .producer ++ .popper :: .replicate 42 .producer ++ [.popper, .popper]) =
    [.published [4, 54], .popped (some [4, 54]), .flushed, .published (.replicate 16 7),
      .popped (some (.replicate 16 7)), .popped none] := by decide
  refine ⟨by decide, hlog, ?_⟩
  rw [← hlog]
  exact (pops_in_order (by decide) _ _).2

end ByteRing
end HdmiCec
