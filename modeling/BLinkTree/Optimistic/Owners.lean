import BLinkTree.Latched.Owners
import BLinkTree.Optimistic.Linearizable

/-! # Levels and owners in the optimistic tree

Readers without a latch keep what they know about levels: a node never changes its level
or its kind, so a child that was read at any moment is below and a right sibling on the
level of the node. The two differ, and `locate_leaf` pushes the node it leaves.
-/

namespace BLinkTree.Optimistic

open Linearization Interleaving VersionLock

variable {exact : Prop} {c : Capacity} {s s' : VersionedTree} {g g' : Plan} {i n : Nat}

/-- What was read as a right sibling of `n`. -/
def Beside (t : Tree) (g : Plan) (n : Nat) (right : Option Nat) : Prop :=
  ∀ r, right = some r → r < t.count ∧ g.level r = g.level n

/-- What was read as a child of `n`. -/
def Below (exact : Prop) (t : Tree) (g : Plan) (n : Nat) (child : Option Nat) : Prop :=
  ∃ m, child = some m ∧ m < t.count ∧ Over exact (g.level n) (g.level m)

theorem Beside.shifts {t t' : Tree} {right : Option Nat} (h : Beside t g n right)
    (hn : n < t.count) (hs : Shifts i t g t' g') : Beside t' g' n right := by
  intro r hr
  rcases h r hr with ⟨hrc, hlv⟩
  rw [hs.level_eq r hrc, hs.level_eq n hn]
  exact ⟨lt_of_lt_of_le hrc hs.count_le, hlv⟩

theorem Below.shifts {t t' : Tree} {child : Option Nat} (h : Below exact t g n child)
    (hn : n < t.count) (hs : Shifts i t g t' g') : Below exact t' g' n child := by
  rcases h with ⟨m, hm, hmc, hover⟩
  refine ⟨m, hm, lt_of_lt_of_le hmc hs.count_le, ?_⟩
  rw [hs.level_eq m hmc, hs.level_eq n hn]
  exact hover

/-- What a thread knows about levels. -/
def Follows (exact : Prop) (t : Tree) (g : Plan) : Pc → Prop
  | .locate o path n => Stands exact t g n path o
  | .inner o path n _ => Stands exact t g n path o
  | .child o path n _ r => StandsAt exact t g false n path o ∧ Beside t g n r
  | .childRead o path n _ r m => StandsAt exact t g false n path o ∧ Beside t g n r ∧
      Below exact t g n m
  | .leaf o path n => StandsAt exact t g true n path o
  | .check o path n _ => StandsAt exact t g true n path o
  | .move o path n _ => StandsAt exact t g true n path o
  | .sibling o path n _ => StandsAt exact t g true n path o
  | .right o path n _ => StandsAt exact t g true n path o
  | .rightRead o path n _ r => StandsAt exact t g true n path o ∧ Beside t g n r
  | .again o path n => StandsAt exact t g true n path o
  | .leave o path n _ => StandsAt exact t g true n path o
  | .search o path n _ => StandsAt exact t g true n path o
  | .slot o path n _ _ => StandsAt exact t g true n path o
  | .slotKey o path n _ _ _ => StandsAt exact t g true n path o
  | .found o path n _ _ => StandsAt exact t g true n path o
  | .acquire o path n => StandsAt exact t g true n path o
  | .mutate o path n => StandsAt exact t g true n path o
  | .parent _ path n _ x => Ascended exact t g n x path
  | .parentHigh _ path n _ x => Ascended exact t g n x path
  | .parentRight _ path n _ x => Ascended exact t g n x path
  | .parentInsert _ path n _ x => Ascended exact t g n x path
  | .release _ pc => Latched.Follows exact t g pc
  | _ => True

/-- The pair `up` that a thread carries. -/
def Pc.carried : Pc → Option (Nat × Nat)
  | parent _ _ _ k x => some (x, k)
  | parentHigh _ _ _ k x => some (x, k)
  | parentRight _ _ _ k x => some (x, k)
  | parentInsert _ _ _ k x => some (x, k)
  | release _ pc => pc.carried
  | newRoot _ k x => some (x, k)
  | _ => none

/-- Whether the thread has followed a null pointer. -/
def Pc.IsCrashed : Pc → Prop
  | crashed _ => True
  | release _ (.crashed _) => True
  | _ => False

/-- The assertion of thread `i`. A thread that followed a null pointer has none. -/
def Owns (exact : Prop) (i : Nat) (t : Tree) (g : Plan) (pc : Pc) : Prop :=
  pc.IsCrashed ∨ Bears t g i (pc.carried.map Prod.fst) ∧ Follows exact t g pc

theorem Follows.shifts {t t' : Tree} {pc : Pc} (h : Follows exact t g pc)
    (hs : Shifts i t g t' g') : Follows exact t' g' pc := by
  cases pc with
  | locate o path n => exact Stands.shifts h hs
  | inner o path n v => exact Stands.shifts h hs
  | child o path n v r => exact ⟨h.1.shifts hs, h.2.shifts h.1.lt_count hs⟩
  | childRead o path n v r m =>
      exact ⟨h.1.shifts hs, h.2.1.shifts h.1.lt_count hs, h.2.2.shifts h.1.lt_count hs⟩
  | rightRead o path n v r => exact ⟨h.1.shifts hs, h.2.shifts h.1.lt_count hs⟩
  | parent o path n k x => exact Ascended.shifts h hs
  | parentHigh o path n k x => exact Ascended.shifts h hs
  | parentRight o path n k x => exact Ascended.shifts h hs
  | parentInsert o path n k x => exact Ascended.shifts h hs
  | release n pc => exact Latched.Follows.shifts h hs
  | idle => trivial
  | start o => trivial
  | newRoot o k x => trivial
  | done o r => trivial
  | crashed o => trivial
  | _ => exact StandsAt.shifts h hs

theorem Owns.shifts {t t' : Tree} {j : Nat} {pc : Pc} (h : Owns exact j t g pc)
    (hs : Shifts i t g t' g') (hj : j ≠ i) : Owns exact j t' g' pc := by
  rcases h with h | ⟨hb, hf⟩
  · exact Or.inl h
  · exact Or.inr ⟨hb.shifts hs hj, hf.shifts hs⟩

/-! ## One step -/

/-- What a step of thread `i` leaves. -/
def Kept (exact : Prop) (c : Capacity) (i : Nat) (t : Tree) (g : Plan) (t' : Tree) (pc : Pc) :
    Prop :=
  ∃ g', Layout exact c t' g' ∧ Shifts i t g t' g' ∧ Owns exact i t' g' pc

theorem kept_of_read {t t' : Tree} {pc : Pc} (h : Layout exact c t g) (ht : t' = t)
    (hb : Bears t g i (pc.carried.map Prod.fst)) (hf : Follows exact t g pc) :
    Kept exact c i t g t' pc := by
  subst ht
  exact ⟨g, h, Shifts.of_count i g rfl, Or.inr ⟨hb, hf⟩⟩

theorem kept_of_crash {t t' : Tree} {pc : Pc} (h : Layout exact c t g) (ht : t' = t)
    (hc : pc.IsCrashed) : Kept exact c i t g t' pc := by
  subst ht
  exact ⟨g, h, Shifts.of_count i g rfl, Or.inl hc⟩

/-- A section of the latched tree under the acquired node. -/
theorem kept_of_section {t t' : Tree} {pc : Latched.Pc} (h : Latched.Kept exact c i t g t' pc)
    (n : Nat) : Kept exact c i t g t' (.release n pc) := by
  rcases h with ⟨g', h1, h2, h3⟩
  refine ⟨g', h1, h2, ?_⟩
  cases pc with
  | crashed o => exact Or.inl trivial
  | _ => exact Or.inr h3

theorem kept_resume {t : Tree} {pc : Latched.Pc} (h : Layout exact c t g)
    (ha : Owns exact i t g (.release n pc)) : Kept exact c i t g t (resume pc) := by
  refine ⟨g, h, Shifts.of_count i g rfl, ?_⟩
  rcases ha with ha | ⟨hb, hf⟩
  · cases pc with
    | crashed o => exact Or.inl trivial
    | _ => exact ha.elim
  · cases pc with
    | inner o path m => exact Or.inr ⟨hb, hf.toStands⟩
    | crashed o => exact Or.inl trivial
    | _ => exact Or.inr ⟨hb, hf⟩

/-- A child is no right sibling, so the node is pushed. -/
theorem push_of_below {t : Tree} {o : Op} {path : List Nat} {right child : Option Nat}
    (hr : Beside t g n right) (hm : Below exact t g n child) :
    push o path n right child = Latched.push o path n := by
  refine if_neg fun heq => ?_
  rcases hm with ⟨m, hm, _, hover⟩
  have hlv := (hr m (heq ▸ hm)).2
  have hlt := hover.lt
  omega

theorem follows_enterLeaf {t : Tree} {o : Op} {path : List Nat} (v : Nat)
    (h : StandsAt exact t g true n path o) (hb : Bears t g i none) :
    Bears t g i ((enterLeaf o path n v).carried.map Prod.fst) ∧
      Follows exact t g (enterLeaf o path n v) := by
  cases o <;> exact ⟨hb, h⟩

theorem follows_leaveLeaf {t : Tree} {o : Op} {path : List Nat} (v : Nat)
    (h : StandsAt exact t g true n path o) (hb : Bears t g i none) :
    Bears t g i ((leaveLeaf o path n v).carried.map Prod.fst) ∧
      Follows exact t g (leaveLeaf o path n v) := by
  cases o <;> exact ⟨hb, h⟩

/-- The steps of the descent. -/
theorem kept_descent (h : Layout exact c s.tree g) {pc pc' : Pc} (o : Op) (path : List Nat)
    (n : Nat) {e : Option (Event Op Value)} (hb : Bears s.tree g i none)
    (hf : Follows exact s.tree g pc)
    (hpc : pc = .locate o path n ∨ (∃ v, pc = .inner o path n v) ∨
      (∃ v r, pc = .child o path n v r) ∨ ∃ v r m, pc = .childRead o path n v r m)
    (hs : next c s pc .go = some (s', pc', e)) : Kept exact c i s.tree g s'.tree pc' := by
  rcases hpc with rfl | ⟨v, rfl⟩ | ⟨v, r, rfl⟩ | ⟨v, r, m, rfl⟩
  · rcases Option.map_eq_some_iff.mp hs with ⟨v, _, he⟩
    simp only [Prod.mk.injEq] at he
    rcases he with ⟨rfl, rfl, _⟩
    exact kept_of_read h rfl hb hf
  · have hat := Stands.at_node hf h
    simp only [next] at hs
    split at hs
    next hl =>
      rw [hl] at hat
      simp only [Option.some.injEq, Prod.mk.injEq] at hs
      rcases hs with ⟨rfl, rfl, _⟩
      exact kept_of_read h rfl hb hat
    next hl =>
      rw [Bool.not_eq_true] at hl
      rw [hl] at hat
      simp only [Option.some.injEq, Prod.mk.injEq] at hs
      rcases hs with ⟨rfl, rfl, _⟩
      exact kept_of_read h rfl hb ⟨hat, h.right n hat.lt_count⟩
  · rcases hf with ⟨hn, hr⟩
    simp only [next, Option.some.injEq, Prod.mk.injEq] at hs
    rcases hs with ⟨rfl, rfl, _⟩
    exact kept_of_read h rfl hb ⟨hn, hr, h.child_spec hn.lt_count (hn.isLeaf h) o.key⟩
  · rcases hf with ⟨hn, hr, hm⟩
    simp only [next] at hs
    split at hs
    · rw [push_of_below hr hm] at hs
      rcases hm with ⟨m, rfl, hmc, hover⟩
      simp only [follow, Option.some.injEq, Prod.mk.injEq] at hs
      rcases hs with ⟨rfl, rfl, _⟩
      exact kept_of_read h rfl hb (hn.toStands.push hmc hover)
    · simp only [Option.some.injEq, Prod.mk.injEq] at hs
      rcases hs with ⟨rfl, rfl, _⟩
      exact kept_of_read h rfl hb hn.toStands

/-- The steps of the loop over the leaves. -/
theorem kept_leafLoop (h : Layout exact c s.tree g) {pc pc' : Pc} (o : Op) (path : List Nat)
    (n : Nat) {e : Option (Event Op Value)} (hb : Bears s.tree g i none)
    (hf : Follows exact s.tree g pc)
    (hpc : pc = .leaf o path n ∨ (∃ v, pc = .check o path n v) ∨ (∃ v, pc = .move o path n v) ∨
      (∃ v, pc = .sibling o path n v) ∨ (∃ v, pc = .right o path n v) ∨
      (∃ v r, pc = .rightRead o path n v r) ∨ pc = .again o path n)
    (hs : next c s pc .go = some (s', pc', e)) : Kept exact c i s.tree g s'.tree pc' := by
  rcases hpc with rfl | ⟨v, rfl⟩ | ⟨v, rfl⟩ | ⟨v, rfl⟩ | ⟨v, rfl⟩ | ⟨v, r, rfl⟩ | rfl
  · rcases Option.map_eq_some_iff.mp hs with ⟨v, _, he⟩
    simp only [Prod.mk.injEq] at he
    rcases he with ⟨rfl, rfl, _⟩
    rcases follows_enterLeaf v hf hb with ⟨hb', hf'⟩
    exact kept_of_read h rfl hb' hf'
  · simp only [next] at hs
    split at hs <;> simp only [Option.some.injEq, Prod.mk.injEq] at hs <;>
      rcases hs with ⟨rfl, rfl, _⟩ <;> exact kept_of_read h rfl hb hf
  · simp only [next] at hs
    split at hs <;> simp only [Option.some.injEq, Prod.mk.injEq] at hs <;>
      rcases hs with ⟨rfl, rfl, _⟩
    · exact kept_of_read h rfl hb hf
    · rcases follows_leaveLeaf v hf hb with ⟨hb', hf'⟩
      exact kept_of_read h rfl hb' hf'
  · simp only [next] at hs
    split at hs <;> simp only [Option.some.injEq, Prod.mk.injEq] at hs <;>
      rcases hs with ⟨rfl, rfl, _⟩
    · rcases follows_leaveLeaf v hf hb with ⟨hb', hf'⟩
      exact kept_of_read h rfl hb' hf'
    · exact kept_of_read h rfl hb hf
  · have hn : StandsAt exact s.tree g true n path o := hf
    simp only [next, Option.some.injEq, Prod.mk.injEq] at hs
    rcases hs with ⟨rfl, rfl, _⟩
    exact kept_of_read h rfl hb ⟨hn, h.right n hn.lt_count⟩
  · rcases hf with ⟨hn, hr⟩
    simp only [next] at hs
    split at hs <;> simp only [Option.some.injEq, Prod.mk.injEq] at hs <;>
      rcases hs with ⟨rfl, rfl, _⟩
    · cases r with
      | none => exact kept_of_crash h rfl trivial
      | some r =>
          rcases hr r rfl with ⟨hrc, hlv⟩
          exact kept_of_read h rfl hb (hn.right hrc hlv)
    · exact kept_of_read h rfl hb hn
  · rcases Option.map_eq_some_iff.mp hs with ⟨v, _, he⟩
    simp only [Prod.mk.injEq] at he
    rcases he with ⟨rfl, rfl, _⟩
    exact kept_of_read h rfl hb hf

/-- The steps behind the loop. -/
theorem kept_leafUse (h : Layout exact c s.tree g) {pc pc' : Pc} (o : Op) (path : List Nat)
    (n : Nat) {e : Option (Event Op Value)} (hb : Bears s.tree g i none)
    (hf : Follows exact s.tree g pc)
    (hpc : (∃ v, pc = .leave o path n v) ∨ (∃ v, pc = .search o path n v) ∨
      (∃ v j, pc = .slot o path n v j) ∨ (∃ v j k, pc = .slotKey o path n v j k) ∨
      (∃ v r, pc = .found o path n v r) ∨ pc = .acquire o path n ∨ pc = .mutate o path n)
    (hs : next c s pc .go = some (s', pc', e)) : Kept exact c i s.tree g s'.tree pc' := by
  rcases hpc with ⟨v, rfl⟩ | ⟨v, rfl⟩ | ⟨v, j, rfl⟩ | ⟨v, j, k, rfl⟩ | ⟨v, r, rfl⟩ | rfl | rfl
  · simp only [next] at hs
    split at hs <;> simp only [Option.some.injEq, Prod.mk.injEq] at hs <;>
      rcases hs with ⟨rfl, rfl, _⟩ <;> exact kept_of_read h rfl hb hf
  · simp only [next, Option.some.injEq, Prod.mk.injEq] at hs
    rcases hs with ⟨rfl, rfl, _⟩
    exact kept_of_read h rfl hb hf
  · simp only [next, Option.some.injEq, Prod.mk.injEq] at hs
    rcases hs with ⟨rfl, rfl, _⟩
    exact kept_of_read h rfl hb hf
  · simp only [next, Option.some.injEq, Prod.mk.injEq] at hs
    rcases hs with ⟨rfl, rfl, _⟩
    exact kept_of_read h rfl hb hf
  · simp only [next] at hs
    split at hs <;> simp only [Option.some.injEq, Prod.mk.injEq] at hs <;>
      rcases hs with ⟨rfl, rfl, _⟩
    · exact kept_of_read h rfl hb trivial
    · exact kept_of_read h rfl hb hf
  · rcases Option.map_eq_some_iff.mp hs with ⟨s1, hlock, he⟩
    simp only [Prod.mk.injEq] at he
    rcases he with ⟨rfl, rfl, _⟩
    rw [(VersionedTree.lock_eq hlock).2]
    exact kept_of_read h rfl hb hf
  · simp only [next, Option.some.injEq, Prod.mk.injEq] at hs
    rcases hs with ⟨rfl, rfl, _⟩
    exact kept_of_section (Latched.kept_leafSection h hb hf) n

/-- The steps of the propagation on one node. -/
theorem kept_parent (h : Layout exact c s.tree g) {pc pc' : Pc} (o : Op) (path : List Nat)
    (n k x : Nat) {e : Option (Event Op Value)} (hb : Bears s.tree g i (some x))
    (hn : Ascended exact s.tree g n x path)
    (hpc : pc = .parent o path n k x ∨ pc = .parentHigh o path n k x ∨
      pc = .parentRight o path n k x ∨ pc = .parentInsert o path n k x)
    (hs : next c s pc .go = some (s', pc', e)) : Kept exact c i s.tree g s'.tree pc' := by
  rcases hpc with rfl | rfl | rfl | rfl
  · rcases Option.map_eq_some_iff.mp hs with ⟨s1, hlock, he⟩
    simp only [Prod.mk.injEq] at he
    rcases he with ⟨rfl, rfl, _⟩
    rw [(VersionedTree.lock_eq hlock).2]
    exact kept_of_read h rfl hb hn
  · simp only [next] at hs
    split at hs <;> simp only [Option.some.injEq, Prod.mk.injEq] at hs <;>
      rcases hs with ⟨rfl, rfl, _⟩ <;> exact kept_of_read h rfl hb hn
  · simp only [next, Option.some.injEq, Prod.mk.injEq] at hs
    rcases hs with ⟨rfl, rfl, _⟩
    refine kept_of_section (Latched.kept_moveRight h hn.lt_count fun r hr hlv => ?_) n
    exact ⟨hb, hn.right hr hlv⟩
  · rcases h.insertIntoInner hb hn.lt_count hn.above k with ⟨t1, up, he, hands⟩
    simp only [next, he, Option.some.injEq, Prod.mk.injEq] at hs
    rcases hs with ⟨rfl, rfl, _⟩
    exact kept_of_section (Latched.kept_propagate hands hn.climbs) n

/-- One step. -/
theorem kept_next (h : Layout exact c s.tree g) {pc pc' : Pc} {a : Latched.Act}
    {e : Option (Event Op Value)} (ha : Owns exact i s.tree g pc)
    (hroot : exact → ∀ o k x, pc = .newRoot o k x → g.level x = g.level s.tree.root)
    (hs : next c s pc a = some (s', pc', e)) : Kept exact c i s.tree g s'.tree pc' := by
  cases a with
  | call o =>
      cases pc with
      | idle =>
          simp only [next, Option.some.injEq, Prod.mk.injEq] at hs
          rcases hs with ⟨rfl, rfl, _⟩
          rcases ha with ha | ⟨hb, _⟩
          · exact ha.elim
          · exact kept_of_read h rfl hb trivial
      | _ => simp [next] at hs
  | go =>
  by_cases hrel : ∃ m after, pc = .release m after
  · rcases hrel with ⟨m, after, rfl⟩
    simp only [next, Option.some.injEq, Prod.mk.injEq] at hs
    rcases hs with ⟨rfl, rfl, _⟩
    exact kept_resume h ha
  have hba : Bears s.tree g i (pc.carried.map Prod.fst) ∧ Follows exact s.tree g pc := by
    rcases ha with ha | ha
    · cases pc with
      | crashed o => simp [next] at hs
      | release m after => exact absurd ⟨m, after, rfl⟩ hrel
      | _ => exact ha.elim
    · exact ha
  rcases hba with ⟨hb, hf⟩
  cases pc with
  | idle => simp [next] at hs
  | crashed o => simp [next] at hs
  | release m after => exact absurd ⟨m, after, rfl⟩ hrel
  | start o =>
      simp only [next, Option.some.injEq, Prod.mk.injEq] at hs
      rcases hs with ⟨rfl, rfl, _⟩
      exact kept_of_read h rfl hb ⟨h.root_lt, Trail.nil ..⟩
  | locate o path n => exact kept_descent h o path n hb hf (by simp) hs
  | inner o path n v => exact kept_descent h o path n hb hf (by simp) hs
  | child o path n v r => exact kept_descent h o path n hb hf (by simp) hs
  | childRead o path n v r m => exact kept_descent h o path n hb hf (by simp) hs
  | leaf o path n => exact kept_leafLoop h o path n hb hf (by simp) hs
  | check o path n v => exact kept_leafLoop h o path n hb hf (by simp) hs
  | move o path n v => exact kept_leafLoop h o path n hb hf (by simp) hs
  | sibling o path n v => exact kept_leafLoop h o path n hb hf (by simp) hs
  | right o path n v => exact kept_leafLoop h o path n hb hf (by simp) hs
  | rightRead o path n v r => exact kept_leafLoop h o path n hb hf (by simp) hs
  | again o path n => exact kept_leafLoop h o path n hb hf (by simp) hs
  | leave o path n v => exact kept_leafUse h o path n hb hf (by simp) hs
  | search o path n v => exact kept_leafUse h o path n hb hf (by simp) hs
  | slot o path n v j => exact kept_leafUse h o path n hb hf (by simp) hs
  | slotKey o path n v j k => exact kept_leafUse h o path n hb hf (by simp) hs
  | found o path n v r => exact kept_leafUse h o path n hb hf (by simp) hs
  | acquire o path n => exact kept_leafUse h o path n hb hf (by simp) hs
  | mutate o path n => exact kept_leafUse h o path n hb hf (by simp) hs
  | parent o path n k x => exact kept_parent h o path n k x hb hf (by simp) hs
  | parentHigh o path n k x => exact kept_parent h o path n k x hb hf (by simp) hs
  | parentRight o path n k x => exact kept_parent h o path n k x hb hf (by simp) hs
  | parentInsert o path n k x => exact kept_parent h o path n k x hb hf (by simp) hs
  | newRoot o k x =>
      simp only [next, Option.some.injEq, Prod.mk.injEq] at hs
      rcases hs with ⟨rfl, rfl, _⟩
      rcases h.createNewRoot hb (fun he => hroot he o k x rfl) k with ⟨g', h1, h2, h3, _⟩
      exact ⟨g', h1, h2, Or.inr ⟨h3, trivial⟩⟩
  | done o r =>
      simp only [next, Option.some.injEq, Prod.mk.injEq] at hs
      rcases hs with ⟨rfl, rfl, _⟩
      exact kept_of_read h rfl hb trivial

/-! ## Runs -/

/-- The insert creates a new root while the root is on the level of the node it split. -/
def Level (t : Tree) : Pc → Prop
  | .newRoot o k x => Latched.Level t (.newRoot o k x)
  | _ => True

instance (t : Tree) (pc : Pc) : Decidable (Level t pc) := by
  unfold Level
  split <;> infer_instance

/-- Every run keeps the layout, with exact levels if every new root is on its level. -/
theorem laid_out {ok : World → Nat → Latched.Act → Prop} {memory : Nat → Memory} {w : World}
    (hok : exact → ∀ w i a, ok w i a → Level w.shared.tree (w.thread i))
    (hw : Reachable (next c) ok (init memory) w) :
    ∃ g, Layout exact c w.shared.tree g ∧ ∀ i, Owns exact i w.shared.tree g (w.thread i) := by
  refine hw.asserts (I := fun s => Layout exact c s.tree) (A := fun i s => Owns exact i s.tree)
    (layout_empty exact c memory) ?_ ?_
  · intro i
    refine Or.inr ⟨⟨fun _ hx => absurd hx (by simp [Pc.carried, init]), fun n _ => ?_⟩, trivial⟩
    simp [Plan.initial, Pc.carried, init]
  · intro w i a t' pc' e g hstep hp h hall
    have hroot : exact → ∀ o k x, w.thread i = .newRoot o k x →
        g.level x = g.level w.shared.tree.root := by
      intro he o k x hpc
      have hown := hall i
      have hlevel := hok he w i a hstep
      rw [hpc] at hown hlevel
      rcases hown with hown | ⟨hb, _⟩
      · exact hown.elim
      · exact h.level_of_levelOf he (hb.lt_count x rfl) hlevel
    rcases kept_next h (hall i) hroot hp with ⟨g', h1, h2, h3⟩
    exact ⟨g', h1, h3, fun j hj => (hall j).shifts h2 hj⟩

end BLinkTree.Optimistic
