import HdmiCec.Bench.Desk
import HdmiCec.Bench.Rig

/-! An engine and the desk that sees to what comes of its frames. -/
namespace HdmiCec

structure Station (n : Nat) where
  rig : Rig := {}
  desk : Desk n
  deriving DecidableEq, Repr

namespace Station

variable {n : Nat}

inductive Step where
  | rig (s : Rig.Step)
  | desk (s : Desk.Step)
  deriving DecidableEq, Repr

structure Report where
  reply : Reply
  actions : List LineAction := []
  calls : List HostCall := []
  notices : List Notice := []
  deriving DecidableEq, Repr

def perform (s : Station n) : Step → Station n × Report
  | .rig step =>
    let (rig, x) := s.rig.perform step
    match x.reply with
    | .completion (some c) =>
      let (desk, y) := s.desk.handle c
      ({ rig := rig, desk := desk },
        { reply := x.reply, actions := x.actions, calls := y.calls, notices := x.notices ++ y.notices })
    | reply => ({ s with rig := rig }, { reply := reply, actions := x.actions, notices := x.notices })
  | .desk step =>
    let (desk, y) := s.desk.perform step
    ({ s with desk := desk }, { reply := y.reply, calls := y.calls, notices := y.notices })

end Station
end HdmiCec
