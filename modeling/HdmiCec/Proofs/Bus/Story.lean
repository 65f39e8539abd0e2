import HdmiCec.Proofs.Bus.RoundTrip
import Mathlib.Logic.Relation

/-! Every state that a bus goes through, one happening after another, also in the midst of what a
script does in one step: a script that leads from one state to another goes through single happenings
only (`Story.perform`). What a happening does to a node is said once (`Happens.node`). -/
namespace HdmiCec

namespace Node

inductive Acted (n : Node) (now : Nat) : Node → Prop
  | expires (line : Level) : n.timer.deadline? = some now → Acted n now (n.expire line now)
  | sends {m : Message} {r : Reaction} : n.engine.send m = .ok r → Acted n now (n.absorb r now)
  | switches (on : Bool) : Acted n now (n.absorb (n.engine.setEnabled on) now)
  | moves (a : LogicalAddress) : Acted n now { n with engine := { n.engine with address := a } }

/-- A node is told of an edge, if it waits for it. Or it acts, and does not make the line fall without
pulling it. -/
def Comes (n : Node) (e : Option Edge) (now : Nat) (m : Node) : Prop :=
  m = n.after e now ∨ n.Acted now m ∧ ((m.pulling = true → n.pulling = true) → e ≠ some .falling)

end Node

namespace Bus

variable {b c : Bus} {as : List LogicalAddress} {past : List Bus} {s : Step} {r : Reply} {k t : Nat}

def Step.Instant : Step → Prop
  | .send _ _ | .setEnabled _ _ | .setAddress _ _ => True
  | .glitch _ | .run | .runFor _ => False

inductive Happens (b : Bus) : Bus → Prop
  | deadline {c : Bus} : b.step? none = some c → Happens b c
  | passes {t : Nat} : b.now ≤ t → (∀ n ∈ b.nodes, ∀ u, n.timer.deadline? = some u → t < u) →
      Happens b { b with now := t }
  | asked {k : Nat} {s : Step} {r : Reply} {c : Bus} : s.Instant → b.perform? k s = some (c, r) → Happens b c
  | noise (on : Bool) : Happens b (b.setNoise on)

/-- A state of a bus with these addresses, and all that it was in before, the last one first. -/
inductive Story (as : List LogicalAddress) : List Bus → Bus → Prop
  | start {b : Bus} : ofAddresses as = .ok b → Story as [] b
  | next {past : List Bus} {b c : Bus} : Story as past b → Happens b c → Story as (b :: past) c

theorem Happens.sane (h : b.Sane) (hc : Happens b c) : c.Sane := by
  cases hc with
  | deadline hs => exact @Preserved.step b c _ _ [] preserved_sane none h hs
  | passes hb ht => exact h.at hb fun n hn u hu => Nat.le_of_lt (ht n hn u hu)
  | asked _ hp => exact @Preserved.perform b c _ _ [] preserved_sane _ _ _ trivial h hp
  | noise on => exact (h.setNoise on).1

theorem Story.sane (h : Story as past b) : b.Sane := by
  induction h with
  | start hb => exact (Reaches.start hb).sane
  | next _ hc ih => exact hc.sane ih

theorem step?_none_of_step? {limit : Option Nat} (h : b.step? limit = some c) : b.step? none = some c := by
  unfold step? at h ⊢
  split at h
  · cases h
  · split at h
    · cases h
    · exact h

theorem advance_happens {limit : Option Nat} (h : b.advance? limit k = some c) :
    Relation.ReflTransGen Happens b c := by
  induction k generalizing b with
  | zero => cases h
  | succ k ih =>
    unfold advance? at h
    cases hs : b.step? limit with
    | none =>
      rw [hs] at h
      cases h
      exact .refl
    | some d =>
      rw [hs] at h
      exact .head (.deadline (step?_none_of_step? hs)) (ih h)

theorem runUntil_happens (hb : b.Sane) (ht : b.now ≤ t) (h : b.runUntil? k t = some c) :
    Relation.ReflTransGen Happens b c := by
  obtain ⟨d, hd, rfl⟩ := Option.map_eq_some_iff.1 h
  refine .tail (advance_happens hd) (.passes (Nat.le_max_left _ _) fun n hn u hu => ?_)
  have hle := @Preserved.now_advance b d _ _ [] preserved_sane _ _ hb ht hd
  have hlt : t < u := by simpa using step?_eq_none (@Preserved.advance b d _ _ [] preserved_sane _ _ hb hd).2 n hn u hu
  omega

theorem perform_happens (hb : b.Sane) (h : b.perform? k s = some (c, r)) : Relation.ReflTransGen Happens b c := by
  cases s with
  | send id m => exact .single (.asked (s := .send id m) trivial h)
  | setEnabled id on => exact .single (.asked (s := .setEnabled id on) trivial h)
  | setAddress id a => exact .single (.asked (s := .setAddress id a) trivial h)
  | glitch low =>
    obtain ⟨d, hd, hr⟩ := Option.map_eq_some_iff.1 h
    obtain ⟨d', hd', rfl⟩ := Option.map_eq_some_iff.1 hd
    obtain ⟨rfl, rfl⟩ := Prod.mk.inj hr
    obtain ⟨hsane, -, hnow⟩ := hb.setNoise true
    exact .head (.noise true) (.tail (runUntil_happens hsane (by omega) hd') (.noise false))
  | run =>
    obtain ⟨d, hd, hr⟩ := Option.map_eq_some_iff.1 h
    obtain ⟨rfl, rfl⟩ := Prod.mk.inj hr
    exact advance_happens hd
  | runFor ticks =>
    obtain ⟨d, hd, hr⟩ := Option.map_eq_some_iff.1 h
    obtain ⟨rfl, rfl⟩ := Prod.mk.inj hr
    exact runUntil_happens hb (Nat.le_add_right _ _) hd

theorem Story.perform (h : Story as past b) (hp : b.perform? k s = some (c, r)) :
    ∃ past', Story as past' c ∧ b :: past <:+ c :: past' := by
  have hchain := perform_happens h.sane hp
  clear hp
  induction hchain with
  | refl => exact ⟨past, h, List.suffix_refl _⟩
  | @tail d e _ hd ih =>
    obtain ⟨past', hpast, hsuffix⟩ := ih
    exact ⟨d :: past', hpast.next hd, hsuffix.trans (List.suffix_cons _ _)⟩

theorem Acts.node {i j : Nat} {n m k : Node} (ha : Acts b i n m c) (hm : n.Acted b.now m)
    (hk : c.nodes[j]? = some k) : ∃ k', b.nodes[j]? = some k' ∧ k'.Comes (b.level.edge? c.level) c.now k := by
  rw [ha.now]
  rcases ha.cases hk with ⟨rfl, rfl⟩ | ⟨-, k', hk', rfl⟩
  · exact ⟨n, ha.here, .inr ⟨hm, ha.not_falling⟩⟩
  · exact ⟨k', hk', .inl rfl⟩

/-- A happening finds every node as it was, tells it of an edge, or makes it act. -/
theorem Happens.node (hs : b.NodesSound) (h : Happens b c) {id : Nat} {m : Node} (hm : c.nodes[id]? = some m) :
    ∃ n, b.nodes[id]? = some n ∧ n.Comes (b.level.edge? c.level) c.now m := by
  have still : ∀ {d : Bus}, d.nodes = b.nodes → d.level = b.level → d.nodes[id]? = some m →
      ∃ n, b.nodes[id]? = some n ∧ n.Comes (b.level.edge? d.level) d.now m := by
    intro d hnodes hlevel hd
    refine ⟨m, hnodes ▸ hd, .inl ?_⟩
    rw [hlevel, Level.edge?_self, Node.after_none]
  cases h with
  | deadline hc =>
    obtain ⟨t, i, n, he, -⟩ := step?_eq_some hs hc
    exact he.acts.node (.expires b.level he.due) hm
  | passes => exact still rfl rfl hm
  | @asked k s r _ hi hp =>
    cases s with
    | send i msg =>
      rcases perform?_send hs hp with ⟨rfl, -⟩ | ⟨-, n, q, hq, ha⟩
      · exact still rfl rfl hm
      · exact ha.node (.sends hq) hm
    | setEnabled i on =>
      obtain ⟨n, hn, hr⟩ := Option.map_eq_some_iff.1 hp
      obtain ⟨rfl, rfl⟩ := Prod.mk.inj hr
      have hsound := (hs n (List.mem_of_getElem? hn)).setEnabled on b.now
      exact (acts_cause (f := fun n => (n, n.engine.setEnabled on)) hs hn hsound).node (.switches on) hm
    | setAddress i a =>
      rcases perform?_setAddress hp with rfl | ⟨n, hn, -, ha⟩
      · exact still rfl rfl hm
      · exact (ha.acts hn rfl).node (.moves a) hm
    | glitch low => exact hi.elim
    | run => exact hi.elim
    | runFor ticks => exact hi.elim
  | noise on =>
    obtain ⟨hnodes, hnow, -⟩ := b.setNoise_spec on hs
    obtain ⟨n, hn, rfl⟩ := Option.map_eq_some_iff.1 ((hnodes id).symm.trans hm)
    exact ⟨n, hn, .inl (by rw [hnow])⟩

end Bus
end HdmiCec
