import BLinkTree.Latched.Serial
import BLinkTree.Occupancy
import Mathlib.Data.List.Dedup

/-! # The node path

`node_path.h` and its use in `thread/latched/thread_tree.cpp`, one call at a time. The
path is an array of ten slots without a check of the bound, and nothing in the code says
why ten suffice: the fan-out of the inner nodes does.
-/

namespace BLinkTree.Latched

/-- `max_keys` and `max_items` of the spinlock build. -/
def spinlockCapacity : Capacity := ⟨61, 61, by decide, by decide, by decide, by decide⟩

/-- `NodePath`. The array is not initialised. A push behind the array and a pop from an
empty path have no result. -/
structure NodePath where
  data : Nat → Nat
  counter : Nat

namespace NodePath

/-- The default of the template parameter `S`. -/
def slots : Nat := 10

def create (memory : Nat → Nat) : NodePath := ⟨memory, 0⟩

def push (p : NodePath) (node : Nat) : Option NodePath :=
  if p.counter < slots then some ⟨Slots.store p.data p.counter node, p.counter + 1⟩ else none

def pop (p : NodePath) : Option (Nat × NodePath) :=
  if p.counter = 0 then none
  else some (p.data (p.counter - 1), { p with counter := p.counter - 1 })

def isEmpty (p : NodePath) : Bool := p.counter == 0

/-- The pushed nodes, the first one first. -/
def nodes (p : NodePath) : List Nat := (List.range p.counter).map p.data

end NodePath

/-- `while (node->high_key() <= key)` in `locate_leaf` and in `insert`. -/
def follow (t : Tree) (key : Nat) : Nat → Nat → Option Nat
  | 0, _ => none
  | fuel + 1, node =>
      if (t.node node).highKey ≤ key then (t.node node).rightSibling.bind (follow t key fuel)
      else some node

/-- `ThreadTree::locate_leaf` with a path. -/
def locateLeaf (t : Tree) (key : Nat) : Nat → NodePath → Nat → Option (Nat × NodePath)
  | 0, _, _ => none
  | fuel + 1, path, currentNode =>
      if (t.node currentNode).isLeaf then
        (follow t key (fuel + 1) currentNode).map fun leaf => (leaf, path)
      else do
        let currentNode ← follow t key (fuel + 1) currentNode
        let path ← path.push currentNode
        let child ← (t.node currentNode).child key
        locateLeaf t key fuel path child

/-- The second half of `ThreadTree::insert`: the pair `up` goes up the path or becomes the
key of a new root. The list holds the nodes that were popped. -/
def propagateUp (c : Capacity) :
    Nat → Tree → NodePath → Option (Nat × Nat) → Option (Tree × List Nat)
  | _, t, _, none => some (t, [])
  | 0, _, _, some _ => none
  | fuel + 1, t, path, some (separator, key) =>
      if path.isEmpty then some (t.createNewRoot t.root separator key, [])
      else do
        let (popped, path) ← path.pop
        let parent ← follow t key (fuel + 1) popped
        let (t, up) ← t.insertIntoInner c parent key separator
        let (t, rest) ← propagateUp c fuel t path up
        return (t, popped :: rest)

/-- What one insert leaves: the tree, the nodes that `locate_leaf` pushed and the nodes that
the propagation popped. -/
structure Insertion where
  tree : Tree
  pushed : List Nat
  popped : List Nat

/-- `ThreadTree::insert`; `stack` is what the array of the path holds before. -/
def insert (c : Capacity) (fuel : Nat) (stack : Nat → Nat) (t : Tree) (key : Nat)
    (value : Value) : Option Insertion := do
  let (leaf, path) ← locateLeaf t key fuel (.create stack) t.root
  let (t, up) := t.insertIntoLeaf c leaf key value
  let (t, popped) ← propagateUp c fuel t path up
  return ⟨t, path.nodes, popped⟩

/-- Inserts one after the other, from call number `i` on. -/
def inserts (c : Capacity) (fuel : Nat) (stack : Nat → Nat → Nat) :
    Nat → Tree → List (Nat × Value) → Option (List Insertion)
  | _, _, [] => some []
  | i, t, e :: entries => do
      let r ← insert c fuel (stack i) t e.1 e.2
      let rest ← inserts c fuel stack (i + 1) r.tree entries
      return r :: rest

open Interleaving

variable {c : Capacity} {t t' : Tree} {g : Ghost Nat} {k m n : Nat} {path path' : List Nat}
  {p : NodePath}

/-! ## The path as a stack -/

namespace NodePath

theorem nodes_create (memory : Nat → Nat) : (create memory).nodes = [] := rfl

theorem length_nodes (p : NodePath) : p.nodes.length = p.counter := by simp [nodes]

theorem push_eq (h : p.nodes.length < slots) (n : Nat) :
    ∃ p', p.push n = some p' ∧ p'.nodes = p.nodes ++ [n] := by
  rw [length_nodes] at h
  refine ⟨⟨Slots.store p.data p.counter n, p.counter + 1⟩, if_pos h, ?_⟩
  have hframe : (List.range p.counter).map (Slots.store p.data p.counter n) = p.nodes := by
    apply List.map_congr_left
    intro i hi
    exact Slots.store_of_ne _ _ (List.mem_range.mp hi).ne
  show (List.range (p.counter + 1)).map (Slots.store p.data p.counter n) = _
  rw [List.range_succ, List.map_append, hframe, List.map_singleton, Slots.store_self]

theorem pop_eq {l : List Nat} (h : p.nodes = l ++ [n]) :
    p.isEmpty = false ∧ ∃ p', p.pop = some (n, p') ∧ p'.nodes = l := by
  have hlen := congrArg List.length h
  rw [length_nodes, List.length_append, List.length_singleton] at hlen
  unfold nodes at h
  rw [hlen, List.range_succ, List.map_append, List.map_singleton] at h
  obtain ⟨hl, hn⟩ := List.append_inj h (by simp)
  refine ⟨by simp [isEmpty, hlen], { p with counter := p.counter - 1 }, ?_, ?_⟩
  · have hlast : p.data (p.counter - 1) = n := by
      rw [hlen, Nat.add_sub_cancel]
      simpa using hn
    rw [pop, if_neg (by omega), hlast]
  · show (List.range (p.counter - 1)).map p.data = l
    rw [hlen, Nat.add_sub_cancel]
    exact hl

theorem isEmpty_of_nodes (h : p.nodes = []) : p.isEmpty = true := by
  have hlen := congrArg List.length h
  rw [length_nodes] at hlen
  simpa [isEmpty] using hlen

end NodePath

/-! ## One call -/

theorem follow_of_lt (h : k < (t.node n).highKey) (fuel : Nat) :
    follow t k (fuel + 1) n = some n := if_neg (not_le.mpr h)

/-- `locate_leaf` has room for the nodes of a short descent. -/
theorem locateLeaf_of_descent (h : Descent t k n path m path')
    (hlen : path'.length ≤ NodePath.slots) (hp : p.nodes = path.reverse) :
    ∃ p' fuel, p'.nodes = path'.reverse ∧
      ∀ fuel' ≥ fuel, locateLeaf t k fuel' p n = some (m, p') := by
  induction h generalizing p with
  | leaf _ hl hh =>
      refine ⟨p, 1, hp, fun fuel' hf => ?_⟩
      obtain ⟨f, rfl⟩ : ∃ f, fuel' = f + 1 := ⟨fuel' - 1, by omega⟩
      rw [locateLeaf, if_pos hl, follow_of_lt hh]
      rfl
  | @inner n y m path path' _ hl hh hy _ hd ih =>
      have hroom : (n :: path).length ≤ path'.length := hd.suffix.length_le
      rw [List.length_cons] at hroom
      rcases NodePath.push_eq (p := p) (by rw [hp, List.length_reverse]; omega) n with
        ⟨p₁, hpush, hnodes⟩
      rw [hp, ← List.reverse_cons] at hnodes
      rcases ih hlen hnodes with ⟨p', fuel, hp', hrun⟩
      refine ⟨p', fuel + 1, hp', fun fuel' hf => ?_⟩
      obtain ⟨f, rfl⟩ : ∃ f, fuel' = f + 1 := ⟨fuel' - 1, by omega⟩
      rw [locateLeaf, if_neg (by simp [hl]), follow_of_lt hh]
      simp only [Option.bind_eq_bind, Option.bind_some, hpush, hy]
      exact hrun f (by omega)

/-- The propagation pops the nodes of the path, the last one first. -/
theorem propagateUp_of_ascent {up : Option (Nat × Nat)} (h : Ascent c k t m path up t')
    (hp : p.nodes = path.reverse) :
    ∃ popped fuel, popped <+: path ∧
      ∀ fuel' ≥ fuel, propagateUp c fuel' t p up = some (t', popped) := by
  induction h generalizing p with
  | stop =>
      refine ⟨[], 0, List.nil_prefix, fun fuel' _ => ?_⟩
      cases fuel' <;> rfl
  | newRoot _ _ =>
      refine ⟨[], 1, List.nil_prefix, fun fuel' hf => ?_⟩
      obtain ⟨f, rfl⟩ : ∃ f, fuel' = f + 1 := ⟨fuel' - 1, by omega⟩
      rw [propagateUp, if_pos (NodePath.isEmpty_of_nodes hp)]
  | @parent t t₁ t' m q s x path up _ _ _ hs _ _ _ _ he _ ih =>
      rw [List.reverse_cons] at hp
      rcases NodePath.pop_eq hp with ⟨hempty, p₁, hpop, hnodes⟩
      rcases ih hnodes with ⟨popped, fuel, hpre, hrun⟩
      refine ⟨q :: popped, fuel + 1, (List.cons_prefix_cons).mpr ⟨rfl, hpre⟩, fun fuel' hf => ?_⟩
      obtain ⟨f, rfl⟩ : ∃ f, fuel' = f + 1 := ⟨fuel' - 1, by omega⟩
      rw [propagateUp, if_neg (by simp [hempty])]
      simp only [Option.bind_eq_bind, hpop, Option.bind_some, follow_of_lt hs, he,
        hrun f (by omega)]
      rfl

/-- An insert into a tree of at most ten inner levels. -/
theorem insert_of_serial {v r : Value} (hs : Serial c t (.insert k v) t' r)
    (h : Strict c t g none) (hlevel : g.level t.root ≤ NodePath.slots) (stack : Nat → Nat) :
    ∃ x fuel, x.tree = t' ∧ x.pushed.length ≤ NodePath.slots ∧ x.popped <+: x.pushed.reverse ∧
      ∀ fuel' ≥ fuel, insert c fuel' stack t k v = some x := by
  cases hs with
  | @insert _ n _ path _ hd ha =>
      have hlen : path.length ≤ NodePath.slots := by
        rw [hd.length_path h, List.length_nil]
        omega
      rcases locateLeaf_of_descent hd hlen (NodePath.nodes_create stack) with ⟨p, f₁, hp, hlocate⟩
      rcases propagateUp_of_ascent ha hp with ⟨popped, f₂, hpre, hup⟩
      refine ⟨⟨t', p.nodes, popped⟩, max f₁ f₂, rfl, ?_, ?_, fun fuel' hf => ?_⟩
      · rwa [hp, List.length_reverse]
      · show popped <+: p.nodes.reverse
        rwa [hp, List.reverse_reverse]
      · simp only [insert, Option.bind_eq_bind, hlocate fuel' (by omega), Option.bind_some,
          hup fuel' (by omega)]
        rfl

/-! ## Sequences of calls -/

/-- Fewer than `2 ^ 54` bindings make at most ten inner levels. -/
theorem level_le_of_content (h : Strict spinlockCapacity t g none)
    (ho : Occupied spinlockCapacity t) (hcount : t.content.length < 2 ^ 54) :
    g.level t.root ≤ NodePath.slots := by
  by_contra hlt
  obtain ⟨d, hd⟩ : ∃ d, g.level t.root = NodePath.slots + d + 1 :=
    ⟨g.level t.root - NodePath.slots - 1, by omega⟩
  have hcontent := ho.length_content h hd
  have hmany : 2 ^ 54 ≤ 2 * (61 / 2 + 1) ^ NodePath.slots * (61 / 2) := by decide
  have hpow : (61 / 2 + 1) ^ NodePath.slots ≤ (61 / 2 + 1) ^ (NodePath.slots + d) :=
    Nat.pow_le_pow_right (by decide) (Nat.le_add_right _ _)
  have hlarger : 2 * (61 / 2 + 1) ^ NodePath.slots * (61 / 2) ≤
      2 * (61 / 2 + 1) ^ (NodePath.slots + d) * (61 / 2) := by gcongr
  have hsize : 2 * (61 / 2 + 1) ^ (NodePath.slots + d) * (61 / 2) ≤ t.content.length := hcontent
  omega

/-- Distinct keys that are all in a list. -/
theorem length_content_le (h : Strict c t g none) {keys : List Nat}
    (hkeys : ∀ e ∈ t.content, e.1 ∈ keys) : t.content.length ≤ keys.length := by
  have hsub : t.content.map Prod.fst ⊆ keys := by
    intro q hq
    rcases List.mem_map.mp hq with ⟨e, he, rfl⟩
    exact hkeys e he
  have hle := (h.inv.content_keys_nodup.subperm hsub).length_le
  rwa [List.length_map] at hle

/-- At least half full in numbers. -/
theorem occupied_spinlock (ho : Occupied spinlockCapacity t) :
    (∀ n < t.count, n ≠ t.root → 30 ≤ (t.node n).size) ∧
      ((t.node t.root).isLeaf = false → 1 ≤ (t.node t.root).size) := by
  refine ⟨fun n hn hne => ?_, ho.root⟩
  have hhalf := ho.halfFull n hn hne
  unfold Node.HalfFull Node.capacity at hhalf
  split at hhalf <;> exact hhalf

/-- Inserts with keys of a short list, from any tree that such inserts have built. -/
theorem inserts_spec (stack : Nat → Nat → Nat) {keys : List Nat} (hlen : keys.length < 2 ^ 54)
    {entries : List (Nat × Value)} (hk : ∀ e ∈ entries, e.1 < maxKey ∧ e.1 ∈ keys) (i : Nat)
    (h : Strict spinlockCapacity t g none) (ho : Occupied spinlockCapacity t)
    (hkeys : ∀ e ∈ t.content, e.1 ∈ keys) :
    ∃ fuel rs, (∀ fuel' ≥ fuel, inserts spinlockCapacity fuel' stack i t entries = some rs ∧
        calls spinlockCapacity fuel' t (entries.map fun e => .insert e.1 e.2) =
          some (rs.map fun r => (r.tree, 0))) ∧
      ∀ r ∈ rs, Occupied spinlockCapacity r.tree ∧ r.pushed.length ≤ NodePath.slots ∧
        r.popped <+: r.pushed.reverse := by
  induction entries generalizing t g i with
  | nil => exact ⟨0, [], fun _ _ => ⟨rfl, rfl⟩, by simp⟩
  | cons e entries ih =>
      rcases hk e (List.mem_cons_self ..) with ⟨hlt, hmem⟩
      rcases h.serial (.insert e.1 e.2) hlt with ⟨t', r, g', hserial, h'⟩
      have hlevel := level_le_of_content h ho
        (lt_of_le_of_lt (length_content_le h hkeys) hlen)
      rcases insert_of_serial hserial h hlevel (stack i) with ⟨x, f₁, rfl, hpushed, hpopped, hrun⟩
      have ho' : Occupied spinlockCapacity x.tree := hserial.occupied ho
      have hkeys' : ∀ b ∈ x.tree.content, b.1 ∈ keys := by
        intro b hb
        rw [(h.serial_content (o := .insert e.1 e.2) hlt hserial).1] at hb
        rcases OrderedMap.mem_insertIfAbsent.mp hb with hb | ⟨rfl, _⟩
        · exact hkeys b hb
        · exact hmem
      have hzero : r = 0 := by
        cases hserial
        rfl
      rcases call_of_serial hserial with ⟨f₂, hcall⟩
      rcases ih (fun b hb => hk b (List.mem_cons_of_mem _ hb)) (i + 1) h' ho' hkeys' with
        ⟨f₃, rest, hrest, hall⟩
      refine ⟨max f₁ (max f₂ f₃), x :: rest, fun fuel' hf => ?_, ?_⟩
      · rcases hrest fuel' (by omega) with ⟨h1, h2⟩
        have hcall' : call spinlockCapacity fuel' t (.insert e.1 e.2) = some (x.tree, 0) := by
          rw [← hzero]
          exact solo_mono hcall (by omega)
        refine ⟨?_, ?_⟩
        · simp only [inserts, Option.bind_eq_bind, hrun fuel' (by omega), Option.bind_some, h1]
          rfl
        · simp only [List.map_cons, calls, Option.bind_eq_bind, hcall', Option.bind_some, h2]
          rfl
      · intro b hb
        rcases List.mem_cons.mp hb with rfl | hb
        · exact ⟨ho', hpushed, hpopped⟩
        · exact hall b hb

/-- Fewer than `2 ^ 54` distinct keys never overflow the path: all nodes but the root are
half full, `locate_leaf` pushes at most ten nodes, and what the propagation pops are these
nodes, the last one first. -/
theorem nodePath_suffices (memory : Nat → Memory) (stack : Nat → Nat → Nat)
    (entries : List (Nat × Value)) (hk : ∀ e ∈ entries, e.1 < maxKey)
    (hcount : (entries.map Prod.fst).dedup.length < 2 ^ 54) :
    ∃ fuel rs, (∀ fuel' ≥ fuel,
        inserts spinlockCapacity fuel' stack 0 (Tree.empty memory) entries = some rs ∧
        calls spinlockCapacity fuel' (Tree.empty memory)
          (entries.map fun e => .insert e.1 e.2) = some (rs.map fun r => (r.tree, 0))) ∧
      (∀ t ∈ Tree.empty memory :: rs.map Insertion.tree,
        (∀ n < t.count, n ≠ t.root → 30 ≤ (t.node n).size) ∧
          ((t.node t.root).isLeaf = false → 1 ≤ (t.node t.root).size)) ∧
      ∀ r ∈ rs, r.pushed.length ≤ 10 ∧ r.popped <+: r.pushed.reverse := by
  have hmem : ∀ e ∈ entries, e.1 < maxKey ∧ e.1 ∈ (entries.map Prod.fst).dedup :=
    fun e he => ⟨hk e he, List.mem_dedup.mpr (List.mem_map_of_mem he)⟩
  have hempty : ∀ e ∈ (Tree.empty memory).content, e.1 ∈ (entries.map Prod.fst).dedup := by
    rw [content_empty]
    simp
  have hfresh := occupied_empty spinlockCapacity memory
  have hstrict : Strict spinlockCapacity (Tree.empty memory) (Ghost.initial Nat) none :=
    strict_empty spinlockCapacity memory
  rcases inserts_spec stack hcount hmem 0 hstrict hfresh hempty with ⟨fuel, rs, hrun, hall⟩
  refine ⟨fuel, rs, hrun, fun t ht => ?_, fun r hr => (hall r hr).2⟩
  rcases List.mem_cons.mp ht with rfl | ht
  · exact occupied_spinlock hfresh
  · rcases List.mem_map.mp ht with ⟨r, hr, rfl⟩
    exact occupied_spinlock (hall r hr).1

/-- A hundred keys, so that a leaf below the root is split too. -/
theorem nodePath_suffices_hundred_keys :
    ∃ fuel rs, (∀ fuel' ≥ fuel,
        inserts spinlockCapacity fuel' (fun _ _ => 0) 0 (Tree.empty fun _ => .zero)
          ((List.range 100).map fun k => (k, 7)) = some rs ∧
        calls spinlockCapacity fuel' (Tree.empty fun _ => .zero)
          (((List.range 100).map fun k => (k, 7)).map fun e => .insert e.1 e.2) =
            some (rs.map fun r => (r.tree, 0))) ∧
      (∀ t ∈ Tree.empty (fun _ => .zero) :: rs.map Insertion.tree,
        (∀ n < t.count, n ≠ t.root → 30 ≤ (t.node n).size) ∧
          ((t.node t.root).isLeaf = false → 1 ≤ (t.node t.root).size)) ∧
      ∀ r ∈ rs, r.pushed.length ≤ 10 ∧ r.popped <+: r.pushed.reverse := by
  refine nodePath_suffices (fun _ => .zero) (fun _ _ => 0) _ (fun e he => ?_) ?_
  · rcases List.mem_map.mp he with ⟨k, hk, rfl⟩
    have hlt := List.mem_range.mp hk
    simp only [maxKey]
    omega
  · refine lt_of_le_of_lt (List.dedup_sublist _).length_le ?_
    simp

/-- One of them pops the root. -/
example : (inserts spinlockCapacity 5 (fun _ _ => 0) 0 (Tree.empty fun _ => .zero)
    ((List.range 100).map fun k => (k, 7))).map (fun rs => (rs.map Insertion.popped).flatten) =
      some [2] := by
  decide +kernel

end BLinkTree.Latched
