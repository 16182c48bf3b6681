import BLinkTree.Operations
import BLinkTree.Lib.Refinement

/-! # Calls and the map they work on

The calls of every implementation, the finite map that a tree stands for, and what
a call in progress knows: the node it has reached starts no later than its key, and
the nodes of its path are inner nodes on increasing levels.
-/

namespace BLinkTree

open Linearization

inductive Op where
  | insert (key : Nat) (value : Value)
  | update (key : Nat) (value : Value)
  | find (key : Nat)
  deriving DecidableEq

def Op.key : Op → Nat
  | insert k _ => k
  | update k _ => k
  | find k => k

/-- The finite map, as the list of its bindings in the order of the keys. The result of
`find` is only promised for a present key. -/
def finiteMap : Object (List (Nat × Value)) Op Value where
  init := []
  apply := fun m o =>
    match o with
    | .insert k v => OrderedMap.insertIfAbsent k v m
    | .update k v => OrderedMap.replace k v m
    | .find _ => m
  allows := fun m o r =>
    match o with
    | .find k => ∀ v, OrderedMap.get? k m = some v → r = v
    | _ => r = 0

/-- Nothing was called yet on a new tree. -/
theorem tracks_empty (memory : Nat → Memory) :
    Tracks finiteMap [] (Tree.empty memory).content fun _ : Nat => .idle := by
  rw [content_empty]
  exact Tracks.init

/-- The same map as a function. -/
def Op.apply (m : Nat → Option Value) : Op → Nat → Option Value
  | insert k v => if m k = none then Function.update m k (some v) else m
  | update k v => if m k = none then m else Function.update m k (some v)
  | find _ => m

theorem get?_apply (l : List (Nat × Value)) (o : Op) :
    (fun q => OrderedMap.get? q (finiteMap.apply l o)) =
      o.apply fun q => OrderedMap.get? q l := by
  funext q
  cases o with
  | insert k v =>
      simp only [finiteMap, OrderedMap.get?_insertIfAbsent, Op.apply]
      by_cases hk : OrderedMap.get? k l = none <;> by_cases hq : q = k <;> simp [hk, hq]
  | update k v =>
      simp only [finiteMap, OrderedMap.get?_replace, Op.apply]
      by_cases hk : OrderedMap.get? k l = none <;> by_cases hq : q = k <;> simp [hk, hq]
  | find k => rfl

/-- A bound key stays bound. -/
theorem finiteMap_bound_apply {k : Nat} {m : List (Nat × Value)} (o : Op)
    (h : (OrderedMap.get? k m).isSome) : (OrderedMap.get? k (finiteMap.apply m o)).isSome := by
  cases o with
  | insert q v =>
      simp only [finiteMap, OrderedMap.get?_insertIfAbsent]
      split
      · rfl
      · exact h
  | update q v =>
      simp only [finiteMap, OrderedMap.get?_replace]
      split
      · rfl
      · exact h
  | find q => exact h

theorem finiteMap_insert_bound (k : Nat) (v : Value) (m : List (Nat × Value)) :
    (OrderedMap.get? k (finiteMap.apply m (.insert k v))).isSome := by
  simp only [finiteMap, OrderedMap.get?_insertIfAbsent]
  split
  · rfl
  next hn =>
    cases hg : OrderedMap.get? k m with
    | none => exact absurd hg (by simpa using hn)
    | some u => rfl

/-- A key whose insert took effect is bound. -/
theorem bound_of_effect {κ : Type} {i : κ} {k : Nat} {v r : Value}
    {h : List (κ × Event Op Value)} (hm : (i, Event.effect (Op.insert k v) r) ∈ h) :
    (OrderedMap.get? k (state finiteMap h)).isSome :=
  persists (Q := fun m => (OrderedMap.get? k m).isSome) (fun _ o => finiteMap_bound_apply o)
    (finiteMap_insert_bound k v) hm

/-- The history explains the content: every call takes effect at once between its start
and its return, and a key whose insert has taken effect is there for every later `find`. -/
structure Explains {κ : Type} [DecidableEq κ] (h : List (κ × Event Op Value))
    (content : List (Nat × Value)) : Prop where
  legal : Legal finiteMap h
  content_eq : content = state finiteMap h
  returned : ∀ i o r, (i, Event.ret o r) ∈ h → (i, Event.effect o r) ∈ h
  bound : ∀ i k v r, (i, Event.effect (Op.insert k v) r) ∈ h →
    ∃ u, OrderedMap.get? k content = some u
  found : ∀ later earlier i j k v r r',
    h = later ++ (j, Event.effect (Op.find k) r') :: earlier →
    (i, Event.effect (Op.insert k v) r) ∈ earlier →
    OrderedMap.get? k (state finiteMap earlier) = some r'

theorem explains_of_legal {κ : Type} [DecidableEq κ] {h : List (κ × Event Op Value)}
    (hl : Legal finiteMap h) : Explains h (state finiteMap h) := by
  refine ⟨hl, rfl, fun _ _ _ => hl.effect_of_ret, ?_, ?_⟩
  · intro i k v r hm
    exact Option.isSome_iff_exists.mp (bound_of_effect hm)
  · intro later earlier i j k v r r' he hm
    rw [he] at hl
    obtain ⟨⟨_, hfind⟩, _⟩ := Legal.suffix hl
    obtain ⟨u, hu⟩ := Option.isSome_iff_exists.mp (bound_of_effect hm)
    rw [hu, hfind u hu]

/-! ## Splits that move a key -/

/-- The leaf section of `o` on node `n` would split the leaf and leave key `q` to the new
leaf. -/
def CutsOff (c : Capacity) (t : Tree) (o : Op) (n q : Nat) : Prop :=
  match o with
  | .insert k v =>
      ¬ ((t.node n).index k < (t.node n).size ∧ (t.node n).keys ((t.node n).index k) = k) ∧
        (t.node n).isFull c = true ∧ (t.leafHalves c n k v).2.keys 0 ≤ q
  | _ => False

instance (c : Capacity) (t : Tree) (o : Op) (n q : Nat) : Decidable (CutsOff c t o n q) :=
  match o with
  | .insert k v => inferInstanceAs (Decidable
      (¬ ((t.node n).index k < (t.node n).size ∧ (t.node n).keys ((t.node n).index k) = k) ∧
        (t.node n).isFull c = true ∧ (t.leafHalves c n k v).2.keys 0 ≤ q))
  | .update _ _ => inferInstanceAs (Decidable False)
  | .find _ => inferInstanceAs (Decidable False)

/-- A leaf section, if there is one, cuts nothing off a leaf on which somebody waits to write. -/
def Spares (c : Capacity) (t : Tree) : Option (Op × Nat) → Option (Op × Nat) → Prop
  | some (o, n), some (q, m) => n = m → ¬ CutsOff c t o n q.key
  | _, _ => True

instance (c : Capacity) (t : Tree) : (write wait : Option (Op × Nat)) →
    Decidable (Spares c t write wait)
  | some (o, n), some (q, m) => inferInstanceAs (Decidable (n = m → ¬ CutsOff c t o n q.key))
  | some _, none => inferInstanceAs (Decidable True)
  | none, _ => inferInstanceAs (Decidable True)

theorem spares_none (c : Capacity) (t : Tree) (write : Option (Op × Nat)) :
    Spares c t write none := by
  cases write <;> trivial

/-- Any other leaf section leaves the key below the high key. -/
theorem insertIntoLeaf_below {c : Capacity} {t : Tree} {n m k q : Nat} {v : Value}
    (hm : m < t.count) (hq : q < (t.node m).highKey)
    (hcut : m = n → ¬ CutsOff c t (.insert k v) n q) :
    q < ((t.insertIntoLeaf c n k v).1.node m).highKey := by
  rcases insertIntoLeaf_cases c t n k v with ⟨_, he⟩ | ⟨_, _, he⟩ | ⟨hk, hf, he⟩
  · rw [he]
    exact hq
  · by_cases hmn : m = n
    · rw [he, hmn, setNode_node_self]
      rw [hmn] at hq
      exact hq
    · rw [insertIntoLeaf_frame hm hmn]
      exact hq
  · by_cases hmn : m = n
    · have hnot := hcut hmn
      rw [hmn] at hm
      rw [he, hmn, splitLeafNode_left hm]
      exact not_le.mp fun hle => hnot ⟨hk, hf, hle⟩
    · rw [insertIntoLeaf_frame hm hmn]
      exact hq

/-! ## What a call in progress knows -/

variable {ι : Type} {c : Capacity} {t t' : Tree} {g g' : Ghost ι} {i : ι}

/-- Node `n` exists and starts no later than key `k`. -/
structure Reached (t : Tree) (g : Ghost ι) (n k : Nat) : Prop where
  lt_count : n < t.count
  low_le : g.low n ≤ k

/-- The nodes of a path are inner nodes above level `l`, the last pushed one first. -/
def OnPath (t : Tree) (g : Ghost ι) : Nat → List Nat → Prop
  | _, [] => True
  | l, p :: ps => p < t.count ∧ (t.node p).isLeaf = false ∧ l < g.level p ∧
      OnPath t g (g.level p) ps

theorem Reached.evolves {n k : Nat} (h : Reached t g n k) (he : Evolves i t g t' g') :
    Reached t' g' n k :=
  ⟨lt_of_lt_of_le h.lt_count he.count_le, by rw [he.low_eq n h.lt_count]; exact h.low_le⟩

theorem OnPath.evolves {l : Nat} {ps : List Nat} (h : OnPath t g l ps)
    (he : Evolves i t g t' g') : OnPath t' g' l ps := by
  induction ps generalizing l with
  | nil => trivial
  | cons p ps ih =>
      obtain ⟨h1, h2, h3, h4⟩ := h
      have hlv := he.level_eq p h1
      refine ⟨lt_of_lt_of_le h1 he.count_le, ?_, ?_, ?_⟩
      · rw [he.isLeaf_eq p h1, h2]
      · rw [hlv]
        exact h3
      · rw [hlv]
        exact ih h4

theorem OnPath.mono {l l' : Nat} {ps : List Nat} (h : OnPath t g l ps) (hl : l' ≤ l) :
    OnPath t g l' ps := by
  cases ps with
  | nil => trivial
  | cons p ps =>
      obtain ⟨h1, h2, h3, h4⟩ := h
      exact ⟨h1, h2, by omega, h4⟩

theorem Reached.root (h : Inv c t g) (k : Nat) : Reached t g t.root k :=
  ⟨h.root_lt, by rw [h.low_root]; exact Nat.zero_le k⟩

end BLinkTree
