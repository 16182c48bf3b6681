import BLinkTree.Checked.Tree
import BLinkTree.Keys

/-! # Inserts never leave the arrays

`ThreadTree::insert` on checked nodes, with the node path as a stack without a bound. Every call
on a key below the largest one has a result, so that it accesses no slot behind an array, reads
no slot before it was written and makes no node larger than its arrays. The trees are the trees
of the implementations.
-/

namespace BLinkTree

namespace CheckedTree

variable {c : Capacity}

/-- `while (node->high_key() <= key)` in `locate_leaf` and in `insert`. -/
def follow (t : CheckedTree c) (key : Nat) : Nat → Nat → Option Nat
  | 0, _ => none
  | fuel + 1, node =>
      if (t.node node).highKey ≤ key then (t.node node).rightSibling.bind (t.follow key fuel)
      else some node

/-- `ThreadTree::locate_leaf` with a path. -/
def locateLeaf (t : CheckedTree c) (key : Nat) :
    Nat → List Nat → Nat → Option (Nat × List Nat)
  | 0, _, _ => none
  | fuel + 1, path, currentNode =>
      if (t.node currentNode).isLeaf then
        (t.follow key (fuel + 1) currentNode).map fun leaf => (leaf, path)
      else do
        let currentNode ← t.follow key (fuel + 1) currentNode
        let child ← (t.node currentNode).child key
        let child ← child
        t.locateLeaf key fuel (currentNode :: path) child

/-- The second half of `ThreadTree::insert`: the pair `up` goes up the path or becomes the
key of a new root. -/
def propagateUp :
    Nat → CheckedTree c → List Nat → Option (Nat × Nat) → Option (CheckedTree c)
  | _, t, _, none => some t
  | 0, _, _, some _ => none
  | _ + 1, t, [], some (separator, key) => t.createNewRoot t.root separator key
  | fuel + 1, t, node :: path, some (separator, key) => do
      let parent ← t.follow key (fuel + 1) node
      let (t, up) ← t.insertIntoInner parent key separator
      propagateUp fuel t path up

/-- `ThreadTree::insert`. -/
def insert (fuel : Nat) (t : CheckedTree c) (key : Nat) (value : Value) :
    Option (CheckedTree c) := do
  let (leaf, path) ← t.locateLeaf key fuel [] t.root
  let (t, up) ← t.insertIntoLeaf leaf key value
  propagateUp fuel t path up

/-- Inserts one after the other. -/
def inserts (fuel : Nat) : CheckedTree c → List (Nat × Value) → Option (CheckedTree c)
  | t, [] => some t
  | t, e :: entries => do
      let t ← t.insert fuel e.1 e.2
      inserts fuel t entries

variable {s s' : CheckedTree c} {t t' : Tree} {k m n : Nat} {path path' : List Nat}

/-! ## One insert -/

theorem Shows.follow (h : s.Shows t) (hn : n < t.count) (hk : k < (t.node n).highKey)
    (fuel : Nat) : s.follow k (fuel + 1) n = some n := by
  rw [← (h.node_shows hn).highKey] at hk
  exact if_neg (not_le.mpr hk)

/-- The descent reads separators and keys of nodes that are all known. -/
theorem Shows.locateLeaf (h : s.Shows t) (hd : Descent t k n path m path') :
    ∃ fuel, ∀ fuel' ≥ fuel, s.locateLeaf k fuel' path n = some (m, path') := by
  induction hd with
  | @leaf n path hn hl hh =>
      refine ⟨1, fun fuel' hf => ?_⟩
      obtain ⟨f, rfl⟩ : ∃ f, fuel' = f + 1 := ⟨fuel' - 1, by omega⟩
      have hsl : (s.node n).isLeaf = true := (h.node_shows hn).isLeaf.trans hl
      rw [CheckedTree.locateLeaf, if_pos hsl, h.follow hn hh]
      rfl
  | @inner n y m path path' hn hl hh hy _ _ ih =>
      rcases ih with ⟨fuel, hrun⟩
      refine ⟨fuel + 1, fun fuel' hf => ?_⟩
      obtain ⟨f, rfl⟩ : ∃ f, fuel' = f + 1 := ⟨fuel' - 1, by omega⟩
      have hnode := h.node_shows hn
      have hsl : (s.node n).isLeaf = false := hnode.isLeaf.trans hl
      have hchild : (s.node n).child k = some (some y) := by
        rw [hnode.child hsl le_rfl (Nat.lt_succ_self _), hy]
      rw [CheckedTree.locateLeaf, if_neg (by simp [hsl]), h.follow hn hh]
      simp only [Option.bind_eq_bind, Option.bind_some, hchild]
      exact hrun f (by omega)

/-- The propagation has a result, the tree of the ascent. -/
theorem Shows.propagateUp {up : Option (Nat × Nat)} (h : s.Shows t)
    (ha : Ascent c k t m path up t') :
    ∃ s' fuel, (∀ fuel' ≥ fuel, CheckedTree.propagateUp fuel' s path up = some s') ∧
      s'.Shows t' := by
  induction ha generalizing s with
  | stop => exact ⟨s, 0, fun fuel' _ => by cases fuel' <;> rfl, h⟩
  | @newRoot t q x _ _ =>
      rcases h.createNewRoot t.root x q with ⟨s', hrun, hs'⟩
      refine ⟨s', 1, fun fuel' hf => ?_, hs'⟩
      obtain ⟨f, rfl⟩ : ∃ f, fuel' = f + 1 := ⟨fuel' - 1, by omega⟩
      rw [CheckedTree.propagateUp, h.root]
      exact hrun
  | @parent t t₁ t' m p q x path up hp hl _ hq _ _ _ _ he _ ih =>
      rcases h.insertIntoInner hp hl he with ⟨s₁, hinner, hs₁⟩
      rcases ih hs₁ with ⟨s', fuel, hrun, hs'⟩
      refine ⟨s', fuel + 1, fun fuel' hf => ?_, hs'⟩
      obtain ⟨f, rfl⟩ : ∃ f, fuel' = f + 1 := ⟨fuel' - 1, by omega⟩
      rw [CheckedTree.propagateUp, h.follow hp hq]
      simp only [Option.bind_eq_bind, Option.bind_some, hinner]
      exact hrun f (by omega)

/-- An insert that is possible in the tree stays inside the arrays. -/
theorem Shows.insert {v r : Value} (h : s.Shows t) (hs : Serial c t (.insert k v) t' r) :
    ∃ s' fuel, (∀ fuel' ≥ fuel, s.insert fuel' k v = some s') ∧ s'.Shows t' := by
  cases hs with
  | @insert _ n _ path _ hd ha =>
      rcases h.locateLeaf hd with ⟨f₁, hlocate⟩
      rcases h.insertIntoLeaf hd.lt_count hd.isLeaf k v with ⟨s₁, hleaf, hs₁⟩
      rcases hs₁.propagateUp ha with ⟨s', f₂, hup, hs'⟩
      refine ⟨s', max f₁ f₂, fun fuel' hf => ?_, hs'⟩
      simp only [CheckedTree.insert, h.root, hlocate fuel' (by omega), Option.bind_eq_bind,
        Option.bind_some, hleaf]
      exact hup fuel' (by omega)

/-! ## Sequences of inserts -/

section Sequences

variable {σ : Type} {I : Implementation σ} {J : σ → Prop} {x : σ}

/-- One insert beside the insert of an implementation. -/
theorem Shows.insert_call (h : s.Shows (I.tree x)) (hf : I.Follows c J) (hx : J x)
    (hk : k < maxKey) (v : Value) :
    ∃ s' x' fuel, (∀ fuel' ≥ fuel, s.insert fuel' k v = some s') ∧
      I.call fuel x (.insert k v) = some (x', 0) ∧ J x' ∧ s'.Shows (I.tree x') := by
  rcases hf.strict x hx with ⟨g, hstrict⟩
  rcases hstrict.serial (.insert k v) hk with ⟨t', r, g', hserial, hstrict'⟩
  rcases h.insert hserial with ⟨s', f₁, hrun, hs'⟩
  rcases hf.call x (.insert k v) t' r hx hserial ⟨g', hstrict'⟩ with ⟨f₂, x', hcall, rfl, hx'⟩
  obtain rfl : r = 0 := by
    cases hserial
    rfl
  exact ⟨s', x', max f₁ f₂, fun fuel' hle => hrun fuel' (by omega),
    hf.mono _ _ _ _ _ hcall (le_max_right ..), hx', hs'⟩

/-- The inserts have a result that shows the tree of the implementation. -/
theorem Shows.inserts (h : s.Shows (I.tree x)) (hf : I.Follows c J) (hx : J x)
    {entries : List (Nat × Value)} (hk : ∀ e ∈ entries, e.1 < maxKey) :
    ∃ s' x' fuel, (∀ fuel' ≥ fuel, CheckedTree.inserts fuel' s entries = some s') ∧
      after I.call fuel x (entries.map fun e => .insert e.1 e.2) = some x' ∧ J x' ∧
      s'.Shows (I.tree x') := by
  induction entries generalizing s x with
  | nil => exact ⟨s, x, 0, fun _ _ => rfl, rfl, hx, h⟩
  | cons e entries ih =>
      rcases h.insert_call hf hx (hk e List.mem_cons_self) e.2 with
        ⟨s₁, x₁, f₁, hrun, hcall, hx₁, hs₁⟩
      rcases ih hs₁ hx₁ (fun b hb => hk b (List.mem_cons_of_mem _ hb)) with
        ⟨s', x', f₂, hruns, hcalls, hx', hs'⟩
      refine ⟨s', x', max f₁ f₂, fun fuel' hle => ?_, after_cons hf.mono hcall hcalls, hx', hs'⟩
      simp only [CheckedTree.inserts, hrun fuel' (by omega), Option.bind_eq_bind,
        Option.bind_some]
      exact hruns fuel' (by omega)

/-- The checked tree is the one of every implementation. -/
theorem shows_after (hf : I.Follows c J) (hx : J x) (hempty : (empty c).Shows (I.tree x))
    {entries : List (Nat × Value)} (hk : ∀ e ∈ entries, e.1 < maxKey) {fuel : Nat}
    (hs : ∀ fuel' ≥ fuel, CheckedTree.inserts fuel' (empty c) entries = some s) :
    ∃ fuel x', after I.call fuel x (entries.map fun e => .insert e.1 e.2) = some x' ∧
      s.Shows (I.tree x') := by
  rcases hempty.inserts hf hx hk with ⟨s', x', fuel', hrun, hcalls, _, hs'⟩
  have h1 := hs (max fuel fuel') (le_max_left ..)
  rw [hrun (max fuel fuel') (le_max_right ..), Option.some.injEq] at h1
  rw [← h1]
  exact ⟨fuel', x', hcalls, hs'⟩

end Sequences

/-- Whatever smaller keys were inserted before, one more insert accesses no slot behind the
arrays and reads no slot that was never written, and no node outgrows its arrays. The tree in
front of it is the one that the same inserts build in each implementation, in whatever memory. -/
theorem insert_inBounds (c : Capacity) (entries : List (Nat × Value)) (k : Nat) (v : Value)
    (hk : ∀ e ∈ (k, v) :: entries, e.1 < maxKey) :
    ∃ (s s' : CheckedTree c) (fuel : Nat),
      (∀ fuel' ≥ fuel,
        inserts fuel' (empty c) entries = some s ∧ s.insert fuel' k v = some s') ∧
      (∀ n < s'.count,
        (s'.node n).size ≤ if (s'.node n).isLeaf then c.maxItems else c.maxKeys) ∧
      ∀ memory : Nat → Memory,
        (∃ fuel t, after (Latched.call c) fuel (Tree.empty memory)
            (entries.map fun e => .insert e.1 e.2) = some t ∧ s.Shows t) ∧
        (∃ fuel t, after (Optimistic.call c) fuel (VersionedTree.empty memory)
            (entries.map fun e => .insert e.1 e.2) = some t ∧ s.Shows t.tree) ∧
        (∃ fuel t, after (Tbb.call c) fuel (Tree.empty memory)
            (entries.map fun e => .insert e.1 e.2) = some t ∧ s.Shows t) := by
  have hkeys : ∀ e ∈ entries, e.1 < maxKey := fun e he => hk e (List.mem_cons_of_mem _ he)
  have hstrict : ∀ memory, ∃ g : Ghost Nat, Strict c (Tree.empty memory) g none :=
    fun memory => ⟨Ghost.initial Nat, strict_empty c memory⟩
  have hempty := shows_empty c
  rcases (hempty fun _ => .zero).inserts (Latched.follows c) (hstrict _) hkeys with
    ⟨s, t, f₁, hrun, _, hJ, hs⟩
  rcases hs.insert_call (Latched.follows c) hJ (hk (k, v) List.mem_cons_self) v with
    ⟨s', _, f₂, hinsert, _, _, _⟩
  refine ⟨s, s', max f₁ f₂, fun fuel' hf => ⟨hrun fuel' (by omega), hinsert fuel' (by omega)⟩,
    fun n _ => (s'.node n).size_le, fun memory => ⟨?_, ?_, ?_⟩⟩
  · exact shows_after (Latched.follows c) (hstrict memory) (hempty memory) hkeys hrun
  · have hfree : Optimistic.Free (VersionedTree.empty memory) :=
      fun _ => show VersionLock.isLocked 4 = false by decide
    exact shows_after (Optimistic.follows c) ⟨hstrict memory, hfree⟩ (hempty memory) hkeys hrun
  · exact shows_after (Tbb.follows c) (hstrict memory) (hempty memory) hkeys hrun

/-- Four keys, so that the tree has two levels. -/
theorem insert_inBounds_two_levels :
    ∃ (s s' : CheckedTree .smallest) (fuel : Nat),
      (∀ fuel' ≥ fuel,
        inserts fuel' (empty .smallest) [(10, 1), (20, 2), (30, 3), (40, 4)] = some s ∧
          s.insert fuel' 25 5 = some s') ∧
      (∀ n < s'.count, (s'.node n).size ≤
        if (s'.node n).isLeaf then Capacity.smallest.maxItems else Capacity.smallest.maxKeys) ∧
      ∀ memory : Nat → Memory,
        (∃ fuel t, after (Latched.call .smallest) fuel (Tree.empty memory)
            ([(10, 1), (20, 2), (30, 3), (40, 4)].map fun e => .insert e.1 e.2) = some t ∧
          s.Shows t) ∧
        (∃ fuel t, after (Optimistic.call .smallest) fuel (VersionedTree.empty memory)
            ([(10, 1), (20, 2), (30, 3), (40, 4)].map fun e => .insert e.1 e.2) = some t ∧
          s.Shows t.tree) ∧
        (∃ fuel t, after (Tbb.call .smallest) fuel (Tree.empty memory)
            ([(10, 1), (20, 2), (30, 3), (40, 4)].map fun e => .insert e.1 e.2) = some t ∧
          s.Shows t) :=
  insert_inBounds .smallest [(10, 1), (20, 2), (30, 3), (40, 4)] 25 5 (by decide)

end CheckedTree

end BLinkTree
