import BLinkTree.Layout
import BLinkTree.Shape

/-! # Balanced trees and their destruction

`ConsistencyChecker::is_level_valid`, the depth of a node below the root and its level
above the leaves, and `Node::~Node`. A layout with exact levels and nothing in transit
is a balanced tree; in every layout with nothing in transit the destructor deletes every
node once.
-/

namespace BLinkTree

/-- The loop of `is_level_valid` over the separators, from `index` on; `none` when it follows
a null separator. -/
def Tree.levelLoop (t : Tree) (separators : Nat → Option Nat) : Nat → Nat → Option Bool
  | 0, _ => some true
  | rounds + 1, index =>
      match separators index, separators (index + 1) with
      | some a, some b =>
          if (t.node a).isLeaf ≠ (t.node b).isLeaf then some false
          else t.levelLoop separators rounds (index + 1)
      | _, _ => none

/-- A right sibling of the other kind. -/
def Tree.siblingDiffers (t : Tree) (n : Nat) : Bool :=
  match (t.node n).rightSibling with
  | some r => (t.node n).isLeaf != (t.node r).isLeaf
  | none => false

/-- `ConsistencyChecker::is_level_valid`. -/
def Tree.isLevelValid (t : Tree) (n : Nat) : Option Bool :=
  if t.siblingDiffers n then some false
  else if (t.node n).isLeaf = false then t.levelLoop (t.node n).separators (t.node n).size 0
  else some true

/-- The levels below a node along its first separators. -/
def Tree.levelOf (t : Tree) : Nat → Nat → Nat
  | 0, _ => 0
  | fuel + 1, n =>
      match (t.node n).first with
      | none => 0
      | some y => t.levelOf fuel y + 1

/-- `Node::~Node`: the nodes in the order in which they are deleted. -/
def Tree.destroy (t : Tree) : Nat → Nat → List Nat
  | 0, _ => []
  | fuel + 1, n => ((t.node n).children.reduceOption.flatMap (t.destroy fuel)) ++ [n]

/-- All leaves have the same depth, `height` counts the levels, and every node but the root
is stored one level above its own. -/
structure Balanced (t : Tree) : Prop where
  leaf_iff : ∀ d, ∀ n ∈ t.row d, (t.node n).isLeaf = true ↔ d + 1 = t.height
  row_ne_nil : ∀ d, t.row d ≠ [] ↔ d < t.height
  mem_row : ∀ n, n < t.count ↔ ∃ d, n ∈ t.row d
  row_unique : ∀ d d' n, n ∈ t.row d → n ∈ t.row d' → d = d'
  level_valid : ∀ n < t.count, t.isLevelValid n = some true
  stored : ∀ n < t.count, n ≠ t.root →
    ∃ d, n ∈ t.row (d + 1) ∧ ∃ p ∈ t.row d, some n ∈ (t.node p).children

theorem not_balanced {t : Tree} {n : Nat} (hn : n < t.count)
    (h : t.isLevelValid n = some false) : ¬ Balanced t := by
  intro hb
  have hvalid := hb.level_valid n hn
  rw [h] at hvalid
  exact absurd hvalid (by decide)

/-- No insert carries a node. -/
def Settled (t : Tree) (g : Plan) : Prop := ∀ n < t.count, ∀ i, g.place n ≠ .carried i

/-- The one pointer to node `n`, given the nodes `up` that the inserts carry. -/
inductive Owned (t : Tree) (up : Nat → Option Nat) (n : Nat) : Prop
  | root : n = t.root → (∀ p < t.count, (t.node p).children.count (some n) = 0) →
      (∀ i, up i ≠ some n) → Owned t up n
  | child (p : Nat) : n ≠ t.root → p < t.count → (t.node p).children.count (some n) = 1 →
      (∀ q < t.count, q ≠ p → (t.node q).children.count (some n) = 0) →
      (∀ i, up i ≠ some n) → Owned t up n
  | carried (i : Nat) : n ≠ t.root → (∀ p < t.count, (t.node p).children.count (some n) = 0) →
      up i = some n → (∀ j, j ≠ i → up j ≠ some n) → Owned t up n

variable {exact : Prop} {c : Capacity} {t : Tree} {g : Plan} {n : Nat}

/-! ## Owners -/

theorem Layout.owned (h : Layout exact c t g) {up : Nat → Option Nat}
    (hb : ∀ i, Bears t g i (up i)) (hn : n < t.count) : Owned t up n := by
  have hup : ∀ i, up i = some n ↔ g.place n = .carried i := fun i => ((hb i).place_iff n hn).symm
  have hcount := fun p hp => h.count_child p hp n hn
  cases hp : g.place n with
  | root =>
      refine .root ((h.place_root n hn).mp hp) (fun p hpc => ?_) fun i hi => ?_
      · rw [hcount p hpc, hp, if_neg (by simp)]
      · rw [hup, hp] at hi
        exact absurd hi (by simp)
  | child p =>
      have hpc := h.place_child n hn p hp
      refine .child p (fun hr => ?_) hpc ?_ (fun q hqc hq => ?_) fun i hi => ?_
      · rw [(h.place_root n hn).mpr hr] at hp
        exact absurd hp (by simp)
      · rw [hcount p hpc, if_pos hp]
      · rw [hcount q hqc, hp, if_neg (by simpa using Ne.symm hq)]
      · rw [hup, hp] at hi
        exact absurd hi (by simp)
  | carried i =>
      refine .carried i (fun hr => ?_) (fun p hpc => ?_) ((hup i).mpr hp) fun j hj hc => ?_
      · rw [(h.place_root n hn).mpr hr] at hp
        exact absurd hp (by simp)
      · rw [hcount p hpc, hp, if_neg (by simp)]
      · rw [hup, hp, Place.carried.injEq] at hc
        exact hj hc.symm

/-- Nothing is in transit when nobody carries a node. -/
theorem settled_of_bears (hb : ∀ i, Bears t g i none) : Settled t g :=
  fun n hn i hc => absurd (((hb i).place_iff n hn).mp hc) (by simp)

/-! ## Levels -/

theorem Layout.levelOf_eq (h : Layout True c t g) {fuel : Nat} (hn : n < t.count)
    (hf : g.level n ≤ fuel) : t.levelOf fuel n = g.level n := by
  induction fuel generalizing n with
  | zero =>
      have h0 : g.level n = 0 := Nat.le_zero.mp hf
      rw [h0]
      rfl
  | succ fuel ih =>
      simp only [Tree.levelOf]
      cases hl : (t.node n).isLeaf with
      | true =>
          have hfirst : (t.node n).first = none := by simp [Node.first, hl]
          rw [hfirst, (h.leaf_iff n hn).mp hl]
      | false =>
          have hmem : (t.node n).first ∈ (t.node n).children := by
            rw [Node.children_of_inner hl]
            exact List.mem_cons_self ..
          rcases h.child n hn _ hmem with ⟨m, hfirst, hm, hover⟩
          have heq := hover.eq trivial
          rw [hfirst]
          show t.levelOf fuel m + 1 = g.level n
          rw [ih hm (by omega), heq]

theorem Layout.levelOf_height (h : Layout True c t g) (hn : n < t.count) :
    t.levelOf t.height n = g.level n := by
  have hle := h.level_le n hn
  have hheight := h.height trivial
  exact h.levelOf_eq hn (by omega)

theorem Layout.level_of_levelOf (h : Layout exact c t g) (he : exact) (hn : n < t.count)
    (heq : t.levelOf t.height t.root = t.levelOf t.height n) : g.level n = g.level t.root := by
  have htrue : exact = True := eq_true he
  subst htrue
  rw [← h.levelOf_height hn, ← h.levelOf_height h.root_lt]
  exact heq.symm

theorem Layout.mem_children (h : Layout exact c t g) {p : Nat} (hn : n < t.count)
    (hp : g.place n = .child p) : p < t.count ∧ some n ∈ (t.node p).children := by
  have hpc := h.place_child n hn p hp
  have hcount := h.count_child p hpc n hn
  rw [if_pos hp] at hcount
  refine ⟨hpc, List.count_pos_iff.mp ?_⟩
  omega

/-- A node that is not the root and not in transit has a parent. -/
theorem Layout.exists_parent (h : Layout exact c t g) (hs : Settled t g) (hn : n < t.count)
    (hne : n ≠ t.root) : ∃ p, g.place n = .child p := by
  cases hp : g.place n with
  | root => exact absurd ((h.place_root n hn).mp hp) hne
  | child p => exact ⟨p, rfl⟩
  | carried i => exact absurd hp (hs n hn i)

theorem Layout.level_of_mem_row (h : Layout True c t g) {d : Nat} (hn : n ∈ t.row d) :
    n < t.count ∧ d + g.level n = g.level t.root := by
  induction d generalizing n with
  | zero =>
      have hroot : n = t.root := List.mem_singleton.mp hn
      rw [hroot]
      exact ⟨h.root_lt, Nat.zero_add _⟩
  | succ d ih =>
      rcases List.mem_flatMap.mp hn with ⟨p, hp, hmem⟩
      rcases ih hp with ⟨hpc, hlv⟩
      rcases h.child p hpc _ (List.reduceOption_mem_iff.mp hmem) with ⟨m, hm, hmc, hover⟩
      have heq := hover.eq trivial
      rw [Option.some.injEq] at hm
      rw [hm]
      exact ⟨hmc, by omega⟩

theorem Layout.mem_row_of_level (h : Layout True c t g) (hs : Settled t g) {d : Nat}
    (hn : n < t.count) (hlv : d + g.level n = g.level t.root) : n ∈ t.row d := by
  induction d generalizing n with
  | zero =>
      -- a node on the top level has no parent, so it is the root
      have hroot : n = t.root := by
        by_contra hne
        rcases h.exists_parent hs hn hne with ⟨p, hp⟩
        rcases h.mem_children hn hp with ⟨hpc, hmem⟩
        rcases h.child p hpc _ hmem with ⟨m, hm, _, hover⟩
        have hle := h.level_le p hpc
        have hlt := hover.lt
        rw [Option.some.injEq] at hm
        rw [← hm] at hlt
        omega
      exact List.mem_singleton.mpr hroot
  | succ d ih =>
      have hne : n ≠ t.root := by
        rintro rfl
        omega
      rcases h.exists_parent hs hn hne with ⟨p, hp⟩
      rcases h.mem_children hn hp with ⟨hpc, hmem⟩
      rcases h.child p hpc _ hmem with ⟨m, hm, _, hover⟩
      have heq := hover.eq trivial
      rw [Option.some.injEq] at hm
      rw [← hm] at heq
      exact List.mem_flatMap.mpr ⟨p, ih hpc (by omega), List.reduceOption_mem_iff.mpr hmem⟩

theorem Layout.row_ne_nil (h : Layout True c t g) {d : Nat} (hd : d ≤ g.level t.root) :
    t.row d ≠ [] := by
  induction d with
  | zero => exact List.cons_ne_nil _ _
  | succ d ih =>
      rcases List.exists_mem_of_ne_nil _ (ih (by omega)) with ⟨p, hp⟩
      rcases h.level_of_mem_row hp with ⟨hpc, hlv⟩
      have hl : (t.node p).isLeaf = false := by
        cases hl : (t.node p).isLeaf with
        | false => rfl
        | true =>
            have := (h.leaf_iff p hpc).mp hl
            omega
      have hfirst : (t.node p).first ∈ (t.node p).children := by
        rw [Node.children_of_inner hl]
        exact List.mem_cons_self ..
      rcases h.child p hpc _ hfirst with ⟨m, hm, _⟩
      rw [hm] at hfirst
      have hmem : m ∈ t.row (d + 1) :=
        List.mem_flatMap.mpr ⟨p, hp, List.reduceOption_mem_iff.mpr hfirst⟩
      exact List.ne_nil_of_mem hmem

/-! ## The checker -/

theorem levelLoop_eq {separators : Nat → Option Nat} {rounds index : Nat} (leaf : Bool)
    (h : ∀ j ≤ index + rounds, ∃ y, separators j = some y ∧ (t.node y).isLeaf = leaf) :
    t.levelLoop separators rounds index = some true := by
  induction rounds generalizing index with
  | zero => rfl
  | succ rounds ih =>
      rcases h index (by omega) with ⟨a, ha, hal⟩
      rcases h (index + 1) (by omega) with ⟨b, hb, hbl⟩
      have hrest : t.levelLoop separators rounds (index + 1) = some true :=
        ih fun j hj => h j (by omega)
      simp [Tree.levelLoop, ha, hb, hal, hbl, hrest]

theorem Layout.isLevelValid (h : Layout True c t g) (hn : n < t.count) :
    t.isLevelValid n = some true := by
  have hsame : ∀ a b, a < t.count → b < t.count → g.level a = g.level b →
      (t.node a).isLeaf = (t.node b).isLeaf := by
    intro a b ha hb hab
    have h1 := h.leaf_iff a ha
    have h2 := h.leaf_iff b hb
    rw [hab, ← h2] at h1
    exact Bool.eq_iff_iff.mpr h1
  have hright : t.siblingDiffers n = false := by
    unfold Tree.siblingDiffers
    cases hr : (t.node n).rightSibling with
    | none => rfl
    | some r =>
        rcases h.right n hn r hr with ⟨hrc, hlv⟩
        simp [hsame r n hrc hn hlv]
  unfold Tree.isLevelValid
  rw [hright]
  cases hl : (t.node n).isLeaf with
  | true => rfl
  | false =>
      show t.levelLoop _ _ 0 = some true
      refine levelLoop_eq (decide (g.level n = 1)) fun j hj => ?_
      have hmem : (t.node n).separators j ∈ (t.node n).children :=
        Node.mem_children.mpr ⟨hl, j, by omega, rfl⟩
      rcases h.child n hn _ hmem with ⟨y, hy, hyc, hover⟩
      have heq := hover.eq trivial
      refine ⟨y, hy, Bool.eq_iff_iff.mpr ?_⟩
      rw [h.leaf_iff y hyc, decide_eq_true_eq]
      omega

/-- A layout with exact levels and nothing in transit is balanced. -/
theorem Layout.balanced (h : Layout True c t g) (hs : Settled t g) : Balanced t where
  leaf_iff := by
    intro d n hn
    rcases h.level_of_mem_row hn with ⟨hnc, hlv⟩
    rw [h.leaf_iff n hnc, h.height trivial]
    omega
  row_ne_nil := by
    intro d
    rw [h.height trivial]
    constructor
    · intro hne
      rcases List.exists_mem_of_ne_nil _ hne with ⟨n, hn⟩
      have := (h.level_of_mem_row hn).2
      omega
    · intro hd
      exact h.row_ne_nil (by omega)
  mem_row := by
    intro n
    constructor
    · intro hn
      have hle := h.level_le n hn
      exact ⟨g.level t.root - g.level n, h.mem_row_of_level hs hn (by omega)⟩
    · rintro ⟨d, hd⟩
      exact (h.level_of_mem_row hd).1
  row_unique := by
    intro d d' n hd hd'
    have h1 := (h.level_of_mem_row hd).2
    have h2 := (h.level_of_mem_row hd').2
    omega
  level_valid := fun n hn => h.isLevelValid hn
  stored := by
    intro n hn hne
    rcases h.exists_parent hs hn hne with ⟨p, hp⟩
    rcases h.mem_children hn hp with ⟨hpc, hmem⟩
    have hle := h.level_le p hpc
    have hrow : p ∈ t.row (g.level t.root - g.level p) := h.mem_row_of_level hs hpc (by omega)
    refine ⟨_, ?_, p, hrow, hmem⟩
    exact List.mem_flatMap.mpr ⟨p, hrow, List.reduceOption_mem_iff.mpr hmem⟩

/-! ## Destruction -/

theorem count_reduceOption (l : List (Option Nat)) (n : Nat) :
    l.reduceOption.count n = l.count (some n) := by
  induction l with
  | nil => rfl
  | cons a l ih =>
      cases a with
      | none => simpa [List.reduceOption] using ih
      | some y => simp [List.reduceOption_cons_of_some, List.count_cons, ih]

theorem sum_count_add (l : List Nat) (n : Nat) (f : Nat → Nat) :
    (l.map fun y => (if y = n then 1 else 0) + f y).sum = l.count n + (l.map f).sum := by
  induction l with
  | nil => rfl
  | cons y l ih =>
      simp only [List.map_cons, List.sum_cons, List.count_cons, ih, beq_iff_eq]
      omega

theorem Layout.kids (h : Layout exact c t g) {m y : Nat} (hm : m < t.count)
    (hy : y ∈ (t.node m).children.reduceOption) : y < t.count ∧ g.level y < g.level m := by
  rcases h.child m hm _ (List.reduceOption_mem_iff.mp hy) with ⟨z, hz, hzc, hover⟩
  rw [Option.some.injEq] at hz
  rw [hz]
  exact ⟨hzc, hover.lt⟩

theorem Layout.destroy_lt (h : Layout exact c t g) {fuel m : Nat} (hm : m < t.count)
    (hn : n ∈ t.destroy fuel m) : n < t.count := by
  induction fuel generalizing m with
  | zero => simp [Tree.destroy] at hn
  | succ fuel ih =>
      rcases List.mem_append.mp hn with hn | hn
      · rcases List.mem_flatMap.mp hn with ⟨y, hy, hmem⟩
        exact ih (h.kids hm hy).1 hmem
      · rw [List.mem_singleton.mp hn]
        exact hm

/-- Whoever deletes a node deletes it at the start or from a parent of it: `above fuel m` is
how often the destruction of `m` deletes the parent, if there is one. -/
theorem Layout.count_destroy (h : Layout exact c t g) (hn : n < t.count) (above : Nat → Nat → Nat)
    (habove : ∀ fuel, ∀ m < t.count, above (fuel + 1) m =
      (if g.place n = .child m then 1 else 0) +
        ((t.node m).children.reduceOption.map (above fuel)).sum)
    {fuel m : Nat} (hm : m < t.count) (hf : g.level m < fuel) :
    (t.destroy fuel m).count n = (if m = n then 1 else 0) + above fuel m := by
  induction fuel generalizing m with
  | zero => omega
  | succ fuel ih =>
      have hsum : ((t.node m).children.reduceOption.map fun y => (t.destroy fuel y).count n).sum =
          (t.node m).children.reduceOption.count n +
            ((t.node m).children.reduceOption.map (above fuel)).sum := by
        rw [← sum_count_add]
        congr 1
        refine List.map_congr_left fun y hy => ?_
        have hkid := h.kids hm hy
        exact ih hkid.1 (by omega)
      have hcount := h.count_child m hm n hn
      rw [← count_reduceOption] at hcount
      rw [Tree.destroy, List.count_append, List.count_flatMap, habove fuel m hm]
      have hlast : [m].count n = if m = n then 1 else 0 := by simp [List.count_singleton]
      have hcomp : (List.count n ∘ t.destroy fuel) = fun y => (t.destroy fuel y).count n := rfl
      rw [hlast, hcomp, hsum, hcount]
      omega

/-- The destruction of the root deletes every node once. -/
theorem Layout.count_destroy_root (h : Layout exact c t g) (hs : Settled t g) {fuel : Nat}
    (hf : g.level t.root < fuel) (hn : n < t.count) : (t.destroy fuel t.root).count n = 1 := by
  -- on the levels from the top down: a node is deleted as often as its parent
  obtain ⟨k, hk⟩ : ∃ k, k = g.level t.root - g.level n := ⟨_, rfl⟩
  induction k using Nat.strong_induction_on generalizing n with
  | _ k ih =>
      by_cases hroot : n = t.root
      · have hplace : ∀ m, g.place n ≠ .child m := by
          intro m hc
          rw [(h.place_root n hn).mpr hroot] at hc
          exact absurd hc (by simp)
        have hcount := h.count_destroy hn (fun _ _ => 0)
          (fun fuel m _ => by simp [hplace m]) h.root_lt hf
        rw [hcount, if_pos hroot.symm]
      · rcases h.exists_parent hs hn hroot with ⟨p, hp⟩
        rcases h.mem_children hn hp with ⟨hpc, hmem⟩
        rcases h.child p hpc _ hmem with ⟨z, hz, _, hover⟩
        rw [Option.some.injEq] at hz
        rw [← hz] at hover
        have hlt := hover.lt
        have hle := h.level_le p hpc
        have hparent := ih (g.level t.root - g.level p) (by omega) hpc rfl
        have habove : ∀ fuel, ∀ m < t.count, (t.destroy (fuel + 1) m).count p =
            (if g.place n = .child m then 1 else 0) +
              ((t.node m).children.reduceOption.map fun y => (t.destroy fuel y).count p).sum := by
          intro fuel m _
          have hlast : [m].count p = if g.place n = .child m then 1 else 0 := by
            rw [List.count_singleton, hp]
            by_cases hpm : p = m
            · simp [hpm]
            · simp [hpm, Ne.symm hpm]
          rw [Tree.destroy, List.count_append, List.count_flatMap, hlast, Nat.add_comm]
          rfl
        have hcount := h.count_destroy hn (fun fuel m => (t.destroy fuel m).count p) habove
          h.root_lt hf
        rw [hcount, if_neg (Ne.symm hroot), hparent]

theorem Layout.destroy_perm (h : Layout exact c t g) (hs : Settled t g) {fuel : Nat}
    (hf : g.level t.root < fuel) : (t.destroy fuel t.root).Perm (List.range t.count) := by
  refine List.perm_iff_count.mpr fun n => ?_
  by_cases hn : n < t.count
  · rw [h.count_destroy_root hs hf hn]
    rw [List.nodup_range.count, if_pos (List.mem_range.mpr hn)]
  · have h1 : (t.destroy fuel t.root).count n = 0 :=
      List.count_eq_zero.mpr fun hmem => hn (h.destroy_lt h.root_lt hmem)
    have h2 : (List.range t.count).count n = 0 :=
      List.count_eq_zero.mpr fun hmem => hn (List.mem_range.mp hmem)
    rw [h1, h2]

end BLinkTree
