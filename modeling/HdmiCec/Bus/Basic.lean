import HdmiCec.Bench.Reply
import HdmiCec.Engine.Call
import HdmiCec.Wire.EdgeTimer

/-! Several engines on one line. The line is low while any of them, or noise from outside, pulls
it. A change of level is an edge to every other engine whose timer waits for it. -/
namespace HdmiCec

structure Node where
  engine : Engine := {}
  timer : EdgeTimer := {}
  pulling : Bool := false
  completions : Array (Nat × Completion) := #[]
  deriving DecidableEq, Repr

structure Bus where
  now : Nat := 0
  nodes : List Node
  /-- Something from outside pulls the line low. -/
  noise : Bool := false
  fallingEdges : Array Nat := #[]
  notices : Array Notice := #[]
  deriving DecidableEq, Repr

namespace Node

def act (n : Node) (now : Nat) : LineAction → Node
  | .set level => { n with pulling := level == .low }
  | .arm w => { n with timer := .arm w now }
  | .stop => { n with timer := n.timer.stop }

def absorb (n : Node) (r : Reaction) (now : Nat) : Node :=
  let n := r.actions.foldl (act · now) { n with engine := r.engine }
  match r.outcome with
  | some c => { n with completions := n.completions.push (now, c) }
  | none => n

end Node

namespace Bus

def level (b : Bus) : Level := .ofPulls (b.noise || b.nodes.any (·.pulling))

def react (b : Bus) (id : Nat) (f : Node → Node × Reaction) : Bus :=
  match b.nodes[id]? with
  | some n =>
    let (n, r) := f n
    { b with nodes := b.nodes.set id (n.absorb r b.now), notices := b.notices ++ r.notices }
  | none => b

def expire (b : Bus) (id : Nat) : Bus :=
  b.react id fun n => ({ n with timer := n.timer.stop }, n.engine.onTimeout (some b.level))

def hear (b : Bus) (id : Nat) : Bus :=
  b.react id fun n => ({ n with timer := n.timer.stop }, n.engine.onCapture (n.timer.elapsed b.now))

def waiting (b : Bus) (e : Edge) (causer : Nat) : List Nat :=
  (List.range b.nodes.length).filter fun id => id != causer && b.nodes[id]?.any (·.timer.waitsFor e)

def noteEdge (b : Bus) (e : Edge) : Bus :=
  if e = .falling then { b with fallingEdges := b.fallingEdges.push b.now } else b

/-- Tells the other nodes if the level is no longer `before`. Who is told is settled first; what a
node then does to the line is told to the others before the next one hears. Told nodes do not
change the level of a line that is driven by engines alone, so little depth is enough. -/
def spread : Nat → Bus → Nat → Level → Bus
  | 0, b, _, _ => b
  | depth + 1, b, causer, before =>
    match before.edge? b.level with
    | none => b
    | some e =>
      let b := b.noteEdge e
      (b.waiting e causer).foldl (fun b id => spread depth (b.hear id) id b.level) b

def cause (b : Bus) (causer : Nat) (f : Bus → Bus) : Bus :=
  spread (b.nodes.length + 1) (f b) causer b.level

def earliest : List Node → Option (Nat × Nat)
  | [] => none
  | n :: rest => match n.timer.deadline?, earliest rest with
    | some t, some (u, id) => if t ≤ u then some (t, 0) else some (u, id + 1)
    | some t, none => some (t, 0)
    | none, later => later.map fun (u, id) => (u, id + 1)

def step? (limit : Option Nat) (b : Bus) : Option Bus :=
  match earliest b.nodes with
  | none => none
  | some (t, id) =>
    if limit.any (· < t) then none
    else some (({ b with now := t } : Bus).cause id (·.expire id))

def advance? (limit : Option Nat) : Nat → Bus → Option Bus
  | 0, _ => none
  | k + 1, b => match b.step? limit with
    | none => some b
    | some b => advance? limit k b

def eventLimit : Nat := 1000000

def run? (k : Nat) (b : Bus) : Option Bus := b.advance? none k

def runUntil? (k : Nat) (b : Bus) (t : Nat) : Option Bus :=
  (b.advance? (some t) k).map fun b => { b with now := max b.now t }

end Bus
end HdmiCec
