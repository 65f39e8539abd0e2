import HdmiCec.Bus.Basic

/-! What a script can do to a bus. -/
namespace HdmiCec

namespace Bus

inductive Step where
  | send (id : Nat) (m : Message)
  | setEnabled (id : Nat) (on : Bool)
  | setAddress (id : Nat) (a : LogicalAddress)
  | glitch (low : Nat)
  | run
  | runFor (ticks : Nat)
  deriving DecidableEq, Repr

def attach (b : Bus) (a : LogicalAddress) : Except AddressError Bus := do
  let r ← ({} : Engine).setAddress a
  let s := r.engine.setEnabled true
  return { b with
    nodes := b.nodes ++ [({} : Node).absorb s b.now], notices := b.notices ++ r.notices ++ s.notices }

def ofAddresses (as : List LogicalAddress) : Except AddressError Bus := as.foldlM attach { nodes := [] }

def setNoise (b : Bus) (on : Bool) : Bus := b.cause b.nodes.length ({ · with noise := on })

def glitch? (k : Nat) (b : Bus) (low : Nat) : Option Bus :=
  (runUntil? k (b.setNoise true) (b.now + low)).map (·.setNoise false)

def setEnabled (b : Bus) (id : Nat) (on : Bool) : Bus :=
  b.cause id (·.react id fun n => (n, n.engine.setEnabled on))

def send (b : Bus) (id : Nat) (n : Node) (m : Message) : Except SendError Bus := do
  let r ← n.engine.send m
  return b.cause id (·.react id fun n => (n, r))

def setAddress (b : Bus) (id : Nat) (n : Node) (a : LogicalAddress) : Except AddressError Bus := do
  let r ← n.engine.setAddress a
  return b.react id fun n => (n, r)

def perform? (k : Nat) (b : Bus) : Step → Option (Bus × Reply)
  | .send id m => b.nodes[id]?.map fun n => match b.send id n m with
    | .ok b => (b, .ok)
    | .error e => (b, .refused (.send e))
  | .setEnabled id on => b.nodes[id]?.map fun _ => (b.setEnabled id on, .nothing)
  | .setAddress id a => b.nodes[id]?.map fun n => match b.setAddress id n a with
    | .ok b => (b, .ok)
    | .error e => (b, .refused (.address e))
  | .glitch low => (b.glitch? k low).map (·, .nothing)
  | .run => (b.run? k).map (·, .nothing)
  | .runFor ticks => (b.runUntil? k (b.now + ticks)).map (·, .nothing)

/-- Completions since an earlier state, by node and then in order: node, time and completion. -/
def completionsSince (b before : Bus) : List (Nat × Nat × Completion) :=
  b.nodes.zipIdx.flatMap fun (n, id) =>
    let seen := match before.nodes[id]? with
      | some old => old.completions.size
      | none => 0
    (n.completions.toList.drop seen).map fun c => (id, c)

def fallingEdgesSince (b before : Bus) : List Nat :=
  b.fallingEdges.toList.drop before.fallingEdges.size

end Bus
end HdmiCec
