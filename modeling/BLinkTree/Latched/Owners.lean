import BLinkTree.Latched.Linearizable
import BLinkTree.Levels

/-! # Levels and owners in the latched tree

What a thread knows about levels and about the node it carries, whatever the other
threads do and whatever the keys are. The path of an insert climbs level by level, and
the node that an insert carries belongs to it alone.
-/

namespace BLinkTree

/-- The nodes of a path are on increasing levels above `l`. -/
def Climbs (exact : Prop) (t : Tree) (g : Plan) : Nat → List Nat → Prop
  | _, [] => True
  | l, p :: ps => p < t.count ∧ Over exact (g.level p) l ∧ Climbs exact t g (g.level p) ps

/-- `find` does not record its path. -/
def Trail (exact : Prop) (t : Tree) (g : Plan) (l : Nat) (path : List Nat) : Op → Prop
  | .find _ => True
  | _ => Climbs exact t g l path

variable {exact : Prop} {c : Capacity} {t t' : Tree} {g g' : Plan} {i n : Nat}

theorem Climbs.shifts {l : Nat} {path : List Nat} (h : Climbs exact t g l path)
    (hs : Shifts i t g t' g') : Climbs exact t' g' l path := by
  induction path generalizing l with
  | nil => trivial
  | cons p ps ih =>
      rcases h with ⟨h1, h2, h3⟩
      have hlv := hs.level_eq p h1
      refine ⟨lt_of_lt_of_le h1 hs.count_le, ?_, ?_⟩
      · rw [hlv]
        exact h2
      · rw [hlv]
        exact ih h3

theorem Trail.shifts {l : Nat} {path : List Nat} {o : Op} (h : Trail exact t g l path o)
    (hs : Shifts i t g t' g') : Trail exact t' g' l path o := by
  cases o with
  | find k => trivial
  | insert k v => exact Climbs.shifts h hs
  | update k v => exact Climbs.shifts h hs

theorem Trail.nil (exact : Prop) (t : Tree) (g : Plan) (l : Nat) (o : Op) :
    Trail exact t g l [] o := by
  cases o <;> trivial

/-- A node exists and is the last one behind a recorded path. -/
structure Stands (exact : Prop) (t : Tree) (g : Plan) (n : Nat) (path : List Nat) (o : Op) :
    Prop where
  lt_count : n < t.count
  trail : Trail exact t g (g.level n) path o

/-- The same with the level that the thread relies on: leaves and inner nodes do not change
their kind. -/
structure StandsAt (exact : Prop) (t : Tree) (g : Plan) (leaf : Bool) (n : Nat) (path : List Nat)
    (o : Op) : Prop extends Stands exact t g n path o where
  leaf_iff : leaf = true ↔ g.level n = 0

/-- An insert with separator `x` has come to a node `n` above it. -/
structure Ascended (exact : Prop) (t : Tree) (g : Plan) (n x : Nat) (path : List Nat) :
    Prop where
  lt_count : n < t.count
  x_lt : x < t.count
  above : Over exact (g.level n) (g.level x)
  climbs : Climbs exact t g (g.level n) path

theorem Stands.shifts {path : List Nat} {o : Op} (h : Stands exact t g n path o)
    (hs : Shifts i t g t' g') : Stands exact t' g' n path o := by
  refine ⟨lt_of_lt_of_le h.lt_count hs.count_le, ?_⟩
  rw [hs.level_eq n h.lt_count]
  exact h.trail.shifts hs

theorem StandsAt.shifts {leaf : Bool} {path : List Nat} {o : Op}
    (h : StandsAt exact t g leaf n path o) (hs : Shifts i t g t' g') :
    StandsAt exact t' g' leaf n path o := by
  refine ⟨h.toStands.shifts hs, ?_⟩
  rw [hs.level_eq n h.lt_count]
  exact h.leaf_iff

theorem Ascended.shifts {x : Nat} {path : List Nat} (h : Ascended exact t g n x path)
    (hs : Shifts i t g t' g') : Ascended exact t' g' n x path := by
  refine ⟨lt_of_lt_of_le h.lt_count hs.count_le, lt_of_lt_of_le h.x_lt hs.count_le, ?_, ?_⟩
  · rw [hs.level_eq n h.lt_count, hs.level_eq x h.x_lt]
    exact h.above
  · rw [hs.level_eq n h.lt_count]
    exact h.climbs.shifts hs

theorem Stands.at_node {path : List Nat} {o : Op} (h : Stands exact t g n path o)
    (hlayout : Layout exact c t g) : StandsAt exact t g (t.node n).isLeaf n path o :=
  ⟨h, hlayout.leaf_iff n h.lt_count⟩

theorem StandsAt.isLeaf {leaf : Bool} {path : List Nat} {o : Op}
    (h : StandsAt exact t g leaf n path o) (hlayout : Layout exact c t g) :
    (t.node n).isLeaf = leaf := by
  have hiff := hlayout.leaf_iff n h.lt_count
  rw [← h.leaf_iff] at hiff
  exact Bool.eq_iff_iff.mpr hiff

/-- A right move stays on the level. -/
theorem StandsAt.right {leaf : Bool} {path : List Nat} {o : Op} {r : Nat}
    (h : StandsAt exact t g leaf n path o) (hr : r < t.count) (hlv : g.level r = g.level n) :
    StandsAt exact t g leaf r path o := by
  refine ⟨⟨hr, ?_⟩, ?_⟩
  · rw [hlv]
    exact h.trail
  · rw [hlv]
    exact h.leaf_iff

theorem Ascended.right {x r : Nat} {path : List Nat} (h : Ascended exact t g n x path)
    (hr : r < t.count) (hlv : g.level r = g.level n) : Ascended exact t g r x path := by
  refine ⟨hr, h.x_lt, ?_, ?_⟩
  · rw [hlv]
    exact h.above
  · rw [hlv]
    exact h.climbs

/-- The path behind a child. -/
theorem Stands.push {path : List Nat} {o : Op} {m : Nat} (h : Stands exact t g n path o)
    (hm : m < t.count) (hover : Over exact (g.level n) (g.level m)) :
    Stands exact t g m (Latched.push o path n) o := by
  refine ⟨hm, ?_⟩
  have htrail := h.trail
  cases o with
  | find k => trivial
  | insert k v => exact ⟨h.lt_count, hover, htrail⟩
  | update k v => exact ⟨h.lt_count, hover, htrail⟩

namespace Latched

open Linearization Interleaving

/-- What a thread knows about levels. -/
def Follows (exact : Prop) (t : Tree) (g : Plan) : Pc → Prop
  | .inner o path n => StandsAt exact t g false n path o
  | .leaf o path n => StandsAt exact t g true n path o
  | .parent _ path n _ x => Ascended exact t g n x path
  | _ => True

/-- The assertion of thread `i`. A thread that followed a null pointer has none. -/
def Owns (exact : Prop) (i : Nat) (t : Tree) (g : Plan) : Pc → Prop
  | .crashed _ => True
  | pc => Bears t g i (pc.carried.map Prod.fst) ∧ Follows exact t g pc

theorem Follows.shifts {pc : Pc} (h : Follows exact t g pc) (hs : Shifts i t g t' g') :
    Follows exact t' g' pc := by
  cases pc with
  | inner o path n => exact StandsAt.shifts h hs
  | leaf o path n => exact StandsAt.shifts h hs
  | parent o path n s x => exact Ascended.shifts h hs
  | _ => trivial

theorem owns_of_bears {pc : Pc} (hb : Bears t g i (pc.carried.map Prod.fst))
    (hf : Follows exact t g pc) : Owns exact i t g pc := by
  cases pc with
  | crashed o => trivial
  | _ => exact ⟨hb, hf⟩

theorem Owns.shifts {j : Nat} {pc : Pc} (h : Owns exact j t g pc) (hs : Shifts i t g t' g')
    (hj : j ≠ i) : Owns exact j t' g' pc := by
  cases pc with
  | crashed o => trivial
  | _ => exact ⟨h.1.shifts hs hj, Follows.shifts h.2 hs⟩

/-- What a section of thread `i` leaves. -/
def Kept (exact : Prop) (c : Capacity) (i : Nat) (t : Tree) (g : Plan) (t' : Tree) (pc : Pc) :
    Prop :=
  ∃ g', Layout exact c t' g' ∧ Shifts i t g t' g' ∧ Owns exact i t' g' pc

theorem kept_of_read {pc : Pc} (h : Layout exact c t g) (hb : Bears t g i (pc.carried.map Prod.fst))
    (hf : Follows exact t g pc) : Kept exact c i t g t pc :=
  ⟨g, h, Shifts.of_count i g rfl, owns_of_bears hb hf⟩

theorem kept_of_crash (h : Layout exact c t g) (o : Op) : Kept exact c i t g t (.crashed o) :=
  ⟨g, h, Shifts.of_count i g rfl, trivial⟩

theorem kept_enter (h : Layout exact c t g) {o : Op} {path : List Nat} (hb : Bears t g i none)
    (hn : Stands exact t g n path o) : Kept exact c i t g t (enter t o path (some n)) := by
  have hat := hn.at_node h
  rcases enter_cases t o path n with ⟨hl, he⟩ | ⟨hl, he⟩
  · rw [hl] at hat
    rw [he]
    exact kept_of_read h hb hat
  · rw [hl] at hat
    rw [he]
    exact kept_of_read h hb hat

/-- A right move to whatever `right_sibling` is. -/
theorem kept_moveRight (h : Layout exact c t g) {o : Op} {pc : Nat → Pc} (hn : n < t.count)
    (hpc : ∀ r < t.count, g.level r = g.level n →
      Bears t g i ((pc r).carried.map Prod.fst) ∧ Follows exact t g (pc r)) :
    Kept exact c i t g t (moveRight t n o pc) := by
  unfold moveRight
  cases hr : (t.node n).rightSibling with
  | none => exact kept_of_crash h o
  | some r =>
      rcases h.right n hn r hr with ⟨hrc, hlv⟩
      rcases hpc r hrc hlv with ⟨hb, hf⟩
      exact kept_of_read h hb hf

/-- The propagation carries the new node to the last node of the path. -/
theorem kept_propagate {o : Op} {path : List Nat} {l : Nat} {up : Option (Nat × Nat)}
    (h : Hands exact c i t g t' l (up.map Prod.fst)) (hp : Climbs exact t g l path) :
    Kept exact c i t g t' (propagate o path up) := by
  rcases h with ⟨g', h', hs, hb, hlv⟩
  refine ⟨g', h', hs, owns_of_bears ?_ ?_⟩
  · rcases up with _ | ⟨x, s⟩
    · exact hb
    · cases path <;> exact hb
  · rcases up with _ | ⟨x, s⟩
    · trivial
    · cases path with
      | nil => trivial
      | cons p ps =>
          rcases Climbs.shifts hp hs with ⟨h1, h2, h3⟩
          have hx : g'.level x = l := hlv x rfl
          refine ⟨h1, hb.lt_count x rfl, ?_, h3⟩
          rw [hx]
          exact h2

/-- The leaf section, whatever the leaf holds. -/
theorem kept_leafSection (h : Layout exact c t g) {o : Op} {path : List Nat}
    (hb : Bears t g i none) (hn : StandsAt exact t g true n path o) :
    Kept exact c i t g (leafSection c t o path n).1 (leafSection c t o path n).2.1 := by
  have hl := hn.isLeaf h
  have htrail := hn.trail
  cases o with
  | insert k v =>
      rw [hn.leaf_iff.mp rfl] at htrail
      exact kept_propagate (h.insertIntoLeaf hb hn.lt_count hl k v) htrail
  | update k v =>
      have hw : IsWrite t (t.setNode n ((t.node n).updateValue c k v)) n := by
        refine isWrite_setNode ?_ ?_ ?_ <;> unfold Node.updateValue <;> split <;> rfl
      rcases h.hands_writeLeaf hb hw hl rfl with ⟨g', h1, h2, h3, _⟩
      exact ⟨g', h1, h2, h3, trivial⟩
  | find k => exact kept_of_read h hb trivial

/-- One section. -/
theorem kept_next (h : Layout exact c t g) {pc pc' : Pc} {a : Act} {e : Option (Event Op Value)}
    (ha : Owns exact i t g pc)
    (hroot : exact → ∀ o s x, pc = .newRoot o s x → g.level x = g.level t.root)
    (hs : next c t pc a = some (t', pc', e)) : Kept exact c i t g t' pc' := by
  cases a with
  | call o =>
      cases pc with
      | idle =>
          simp only [next, Option.some.injEq, Prod.mk.injEq] at hs
          rcases hs with ⟨rfl, rfl, _⟩
          exact kept_of_read h ha.1 trivial
      | _ => simp [next] at hs
  | go =>
  cases pc with
  | idle => simp [next] at hs
  | crashed o => simp [next] at hs
  | start o =>
      simp only [next, Option.some.injEq, Prod.mk.injEq] at hs
      rcases hs with ⟨rfl, rfl, _⟩
      exact kept_enter h ha.1 ⟨h.root_lt, Trail.nil ..⟩
  | inner o path n =>
      rcases ha with ⟨hb, hn⟩
      simp only [next] at hs
      split at hs
      · simp only [Option.some.injEq, Prod.mk.injEq] at hs
        rcases hs with ⟨rfl, rfl, _⟩
        exact kept_moveRight h hn.lt_count fun r hr hlv => ⟨hb, hn.right hr hlv⟩
      · rcases h.child_spec hn.lt_count (hn.isLeaf h) o.key with ⟨m, hm, hmc, hover⟩
        simp only [hm, Option.some.injEq, Prod.mk.injEq] at hs
        rcases hs with ⟨rfl, rfl, _⟩
        exact kept_enter h hb (hn.toStands.push hmc hover)
  | leaf o path n =>
      rcases ha with ⟨hb, hn⟩
      simp only [next] at hs
      split at hs
      · simp only [Option.some.injEq, Prod.mk.injEq] at hs
        rcases hs with ⟨rfl, rfl, _⟩
        exact kept_moveRight h hn.lt_count fun r hr hlv => ⟨hb, hn.right hr hlv⟩
      · simp only [Option.some.injEq, Prod.mk.injEq] at hs
        rcases hs with ⟨rfl, rfl, _⟩
        exact kept_leafSection h hb hn
  | parent o path n s x =>
      rcases ha with ⟨hb, hn⟩
      simp only [next] at hs
      split at hs
      · simp only [Option.some.injEq, Prod.mk.injEq] at hs
        rcases hs with ⟨rfl, rfl, _⟩
        exact kept_moveRight h hn.lt_count fun r hr hlv => ⟨hb, hn.right hr hlv⟩
      · rcases h.insertIntoInner hb hn.lt_count hn.above s with ⟨t1, up, he, hands⟩
        simp only [he, Option.some.injEq, Prod.mk.injEq] at hs
        rcases hs with ⟨rfl, rfl, _⟩
        exact kept_propagate hands hn.climbs
  | newRoot o s x =>
      rcases ha with ⟨hb, _⟩
      simp only [next, Option.some.injEq, Prod.mk.injEq] at hs
      rcases hs with ⟨rfl, rfl, _⟩
      rcases h.createNewRoot hb (fun he => hroot he o s x rfl) s with ⟨g', h1, h2, h3, _⟩
      exact ⟨g', h1, h2, h3, trivial⟩
  | done o r =>
      simp only [next, Option.some.injEq, Prod.mk.injEq] at hs
      rcases hs with ⟨rfl, rfl, _⟩
      exact kept_of_read h ha.1 trivial

/-! ## Runs -/

/-- The insert creates a new root while the root is on the level of the node it split. -/
def Level (t : Tree) : Pc → Prop
  | .newRoot _ _ x => t.levelOf t.height t.root = t.levelOf t.height x
  | _ => True

instance (t : Tree) : (pc : Pc) → Decidable (Level t pc)
  | .newRoot _ _ x => inferInstanceAs (Decidable (t.levelOf t.height t.root = t.levelOf t.height x))
  | .idle => inferInstanceAs (Decidable True)
  | .start _ => inferInstanceAs (Decidable True)
  | .inner _ _ _ => inferInstanceAs (Decidable True)
  | .leaf _ _ _ => inferInstanceAs (Decidable True)
  | .parent _ _ _ _ _ => inferInstanceAs (Decidable True)
  | .done _ _ => inferInstanceAs (Decidable True)
  | .crashed _ => inferInstanceAs (Decidable True)

/-- Every run keeps the layout, with exact levels if every new root is on its level. -/
theorem laid_out {ok : World → Nat → Act → Prop} {memory : Nat → Memory} {w : World}
    (hok : exact → ∀ w i a, ok w i a → Level w.shared (w.thread i))
    (hw : Reachable (next c) ok (init memory) w) :
    ∃ g, Layout exact c w.shared g ∧ ∀ i, Owns exact i w.shared g (w.thread i) := by
  refine hw.asserts (I := Layout exact c) (A := Owns exact) (layout_empty exact c memory) ?_ ?_
  · intro i
    refine ⟨⟨fun _ hx => absurd hx (by simp [Pc.carried, init]), fun n _ => ?_⟩, trivial⟩
    simp [Plan.initial, Pc.carried, init]
  · intro w i a t' pc' e g hstep hp h hall
    have hroot : exact → ∀ o s x, w.thread i = .newRoot o s x →
        g.level x = g.level w.shared.root := by
      intro he o s x hpc
      have hown := hall i
      have hlevel := hok he w i a hstep
      rw [hpc] at hown hlevel
      exact h.level_of_levelOf he (hown.1.lt_count x rfl) hlevel
    rcases kept_next h (hall i) hroot hp with ⟨g', h1, h2, h3⟩
    exact ⟨g', h1, h3, fun j hj => (hall j).shifts h2 hj⟩

/-- Between two sections every node is the root, the child of one node at one place, or
carried by one insert; when all calls have returned, the destructor of the root deletes
every node once. -/
theorem nodes_owned_once (c : Capacity) (memory : Nat → Memory) (w : World)
    (hw : Reachable (next c) (fun _ _ a => a.Valid) (init memory) w) :
    (∀ n < w.shared.count, Owned w.shared (fun i => (w.thread i).carried.map Prod.fst) n) ∧
      ((∀ i, w.thread i = .idle) → ∃ fuel, ∀ fuel' ≥ fuel,
        (w.shared.destroy fuel' w.shared.root).Perm (List.range w.shared.count)) := by
  have hlaid : ∃ g, Layout False c w.shared g ∧ ∀ i, Owns False i w.shared g (w.thread i) :=
    laid_out (fun he => he.elim) hw
  rcases hlaid with ⟨g, h, hall⟩
  rcases safe c hw with ⟨_, _, hholds, _⟩
  have hb : ∀ i, Bears w.shared g i ((w.thread i).carried.map Prod.fst) := by
    intro i
    have hown := hall i
    have hhold := hholds i
    cases hpc : w.thread i with
    | crashed o =>
        rw [hpc] at hhold
        exact hhold.elim
    | _ =>
        rw [hpc] at hown
        exact hown.1
  refine ⟨fun n hn => h.owned hb hn, fun hidle => ⟨g.level w.shared.root + 1, fun fuel hf => ?_⟩⟩
  refine h.destroy_perm (settled_of_bears fun i => ?_) hf
  have hi := hb i
  rw [hidle i] at hi
  exact hi

/-- The first leaf is full. Threads 0 and 1 start their inserts on it; thread 0 splits it,
thread 1 moves right and splits the new leaf. Both have an empty path. -/
def twoSplits : List (Nat × Act) :=
  [(0, .call (.insert 10 1)), (0, .go), (0, .go), (0, .go),
    (0, .call (.insert 20 2)), (0, .go), (0, .go), (0, .go),
    (0, .call (.insert 30 3)), (1, .call (.insert 40 4)), (0, .go), (1, .go),
    (0, .go), (1, .go), (1, .go)]

/-- Both create a new root and return. -/
def twoRoots : List (Nat × Act) := twoSplits ++ [(0, .go), (1, .go), (0, .go), (1, .go)]

theorem nodes_owned_once_two_roots :
    (∃ w, run (next .smallest) (fun _ _ a => a.Valid) (init fun _ => .zero) twoSplits = some w ∧
      (w.thread 0).carried = some (1, 20) ∧ (w.thread 1).carried = some (2, 30) ∧
      ∀ n < w.shared.count, Owned w.shared (fun i => (w.thread i).carried.map Prod.fst) n) ∧
    ∃ w, run (next .smallest) (fun _ _ a => a.Valid) (init fun _ => .zero) twoRoots = some w ∧
      w.shared.count = 5 ∧ ∃ fuel, ∀ fuel' ≥ fuel,
        (w.shared.destroy fuel' w.shared.root).Perm (List.range w.shared.count) := by
  constructor
  · have hrun : (run (next .smallest) (fun _ _ a => a.Valid) (init fun _ => .zero) twoSplits).map
        (fun w => ((w.thread 0).carried, (w.thread 1).carried)) =
        some (some (1, 20), some (2, 30)) := by decide
    rcases Option.map_eq_some_iff.mp hrun with ⟨w, hw, hstate⟩
    rw [Prod.mk.injEq] at hstate
    exact ⟨w, hw, hstate.1, hstate.2,
      (nodes_owned_once .smallest _ w (Reachable.start.of_run hw)).1⟩
  · have hrun : (run (next .smallest) (fun _ _ a => a.Valid) (init fun _ => .zero) twoRoots).map
        (fun w => (w.shared.count, w.thread 0, w.thread 1)) = some (5, .idle, .idle) := by decide
    rcases Option.map_eq_some_iff.mp hrun with ⟨w, hw, hstate⟩
    simp only [Prod.mk.injEq] at hstate
    have hidle : ∀ i, w.thread i = .idle :=
      thread_of_run_pair (fun _ => rfl) (by decide) hw hstate.2.1 hstate.2.2
    exact ⟨w, hw, hstate.1,
      (nodes_owned_once .smallest _ w (Reachable.start.of_run hw)).2 hidle⟩

end Latched

end BLinkTree
