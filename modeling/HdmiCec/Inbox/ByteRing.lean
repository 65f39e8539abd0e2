import HdmiCec.Notice

/-! The queue of received messages: a ring of bytes in which each message follows its own length.
One place stays free, so that equal offsets mean an empty queue. One side pushes, and does so in
single accesses to the ring (`Push.step`), between which the other side may pop or flush; a message
is there for the other side once the last access has moved the write offset. -/
namespace HdmiCec

structure ByteRing (n : Nat) where
  cells : Vector UInt8 n
  write : Fin n
  read : Fin n
  deriving DecidableEq, Repr

namespace ByteRing

variable {n : Nat}

/-- Room for the longest message, its length and the free place. -/
def minCapacity : Nat := Message.maxLength + 2

def defaultCapacity : Nat := 20

def empty (n : Nat) (h : minCapacity ≤ n) : ByteRing n where
  cells := .replicate n 0
  write := ⟨0, Nat.lt_of_lt_of_le (by decide) h⟩
  read := ⟨0, Nat.lt_of_lt_of_le (by decide) h⟩

def skip (i : Fin n) (k : Nat) : Fin n := ⟨(i.val + k) % n, Nat.mod_lt _ i.pos⟩

def isEmpty (q : ByteRing n) : Bool := q.read == q.write

def store (q : ByteRing n) (i : Fin n) (b : UInt8) : ByteRing n := { q with cells := q.cells.set i b }

inductive Push (n : Nat) where
  | begun
  | located (start : Fin n)
  | bounded (start limit : Fin n)
  | filling (start limit next : Fin n) (rest : List UInt8)
  | sealed (stop : Fin n)
  | finished (result : Except QueueError Unit)

/-- One access to the ring. The length is cleared first and written last, and a message that runs
into the read offset is given up. -/
def Push.step (m : Message) : ByteRing n × Push n → ByteRing n × Push n
  | (q, begun) => if m.Legal then (q, located q.write) else (q, finished (.error .invalidLength))
  | (q, located start) => (q, bounded start q.read)
  | (q, bounded start limit) => (q.store start 0, filling start limit (skip start 1) m)
  | (q, filling start limit next (b :: rest)) =>
    if next = limit then (q, finished (.error .overflow))
    else (q.store next b, filling start limit (skip next 1) rest)
  | (q, filling start limit next []) =>
    if next = limit then (q, finished (.error .overflow))
    else (q.store start (.ofNat m.length), sealed next)
  | (q, sealed stop) => ({ q with write := stop }, finished (.ok ()))
  | (q, finished r) => (q, finished r)

def Push.steps (m : Message) : Nat → ByteRing n × Push n → ByteRing n × Push n
  | 0, s => s
  | k + 1, s => steps m k (step m s)

def Push.bound (m : Message) : Nat := m.length + 5

def push (q : ByteRing n) (m : Message) : ByteRing n × Except QueueError Unit :=
  match Push.steps m (Push.bound m) (q, .begun) with
  | (q, .finished r) => (q, r)
  | (q, _) => (q, .error .overflow)

def flush (q : ByteRing n) : ByteRing n := { q with read := q.write }

/-- Pushes a message, at the price of all the others if there is no room for it. -/
def pushNewest (q : ByteRing n) (m : Message) : ByteRing n × Except QueueError Unit × List Notice :=
  match q.push m with
  | (q, .error .overflow) =>
    let (q, r) := q.flush.push m
    (q, r, [.backlogDropped])
  | (q, r) => (q, r, [])

def pop (q : ByteRing n) : ByteRing n × Option Message × List Notice :=
  if q.isEmpty then (q, none, [])
  else
    let size := q.cells[q.read].toNat
    if size = 0 ∨ Message.maxLength < size then (q, none, [.badEntrySize size])
    else
      let m := (List.range size).map fun k => q.cells[skip q.read (k + 1)]
      ({ q with read := skip q.read (size + 1) }, some m, [])

theorem Push.step_finished (m : Message) (q : ByteRing n) (r : Except QueueError Unit) :
    step m (q, finished r) = (q, finished r) := rfl

theorem Push.steps_finished (m : Message) (k : Nat) (q : ByteRing n) (r : Except QueueError Unit) :
    steps m k (q, finished r) = (q, finished r) := by
  induction k with
  | zero => rfl
  | succ k ih => simpa [steps, step_finished] using ih

theorem skip_skip (i : Fin n) (j k : Nat) : skip (skip i j) k = skip i (j + k) := by
  simp [skip, Nat.add_assoc]

end ByteRing
end HdmiCec
