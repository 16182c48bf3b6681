import BLinkTree.Operations

/-! # Field writes

The operations on nodes as sequences of writes to single fields and slots, in the order of
`node.cpp` and `tree.cpp`. A block transfer writes slot by slot, from the last slot on when
the blocks overlap. The parent field is left out: the optimistic tree never reads it.
-/

namespace BLinkTree

/-- One write to a node; `create` is its constructor. -/
inductive Write where
  | create (isLeaf : Bool)
  | key (slot key : Nat)
  | value (slot : Nat) (value : Value)
  | separator (slot : Nat) (node : Option Nat)
  | size (size : Nat)
  | highKey (key : Nat)
  | rightSibling (node : Option Nat)
  deriving DecidableEq

/-- The write is the constructor. -/
def Write.creates : Write → Bool
  | create _ => true
  | _ => false

namespace Node

def store (n : Node) : Write → Node
  | .create isLeaf => create isLeaf n.toMemory
  | .key i k => { n with keys := Slots.store n.keys i k }
  | .value i v => { n with values := Slots.store n.values i v }
  | .separator i s => { n with separators := Slots.store n.separators i s }
  | .size s => { n with size := s }
  | .highKey k => { n with highKey := k }
  | .rightSibling s => { n with rightSibling := s }

theorem isLeaf_store (n : Node) {w : Write} (h : w.creates = false) :
    (n.store w).isLeaf = n.isLeaf := by
  cases w with
  | create b => simp [Write.creates] at h
  | _ => rfl

def storeAll (n : Node) (l : List Write) : Node := l.foldl store n

@[simp] theorem storeAll_nil (n : Node) : n.storeAll [] = n := rfl

@[simp] theorem storeAll_cons (n : Node) (w : Write) (l : List Write) :
    n.storeAll (w :: l) = (n.store w).storeAll l := rfl

@[simp] theorem storeAll_append (n : Node) (l l' : List Write) :
    n.storeAll (l ++ l') = (n.storeAll l).storeAll l' := by
  unfold storeAll
  rw [List.foldl_append]

def keyWrites (l : List (Nat × Nat)) : List Write := l.map fun p => .key p.1 p.2

def valueWrites (l : List (Nat × Value)) : List Write := l.map fun p => .value p.1 p.2

def separatorWrites (l : List (Nat × Option Nat)) : List Write := l.map fun p => .separator p.1 p.2

@[simp] theorem storeAll_keyWrites (n : Node) (l : List (Nat × Nat)) :
    n.storeAll (keyWrites l) = { n with keys := Slots.stores n.keys l } := by
  induction l generalizing n with
  | nil => rfl
  | cons p l ih => exact ih _

@[simp] theorem storeAll_valueWrites (n : Node) (l : List (Nat × Value)) :
    n.storeAll (valueWrites l) = { n with values := Slots.stores n.values l } := by
  induction l generalizing n with
  | nil => rfl
  | cons p l ih => exact ih _

@[simp] theorem storeAll_separatorWrites (n : Node) (l : List (Nat × Option Nat)) :
    n.storeAll (separatorWrites l) = { n with separators := Slots.stores n.separators l } := by
  induction l generalizing n with
  | nil => rfl
  | cons p l ih => exact ih _

/-- `Node::insert_value`. -/
def insertValueWrites (n : Node) (index : Nat) (value : Value) (key : Nat) : List Write :=
  (if index < n.size then
    keyWrites (Slots.moves (index + 1) n.keys index (n.size - index)) ++
      valueWrites (Slots.moves (index + 1) n.values index (n.size - index))
  else []) ++ [.key index key, .value index value, .size (n.size + 1)]

/-- `Node::insert_separator`. -/
def insertSeparatorWrites (n : Node) (index separator key : Nat) : List Write :=
  (if index < n.size then
    keyWrites (Slots.moves (index + 1) n.keys index (n.size - index)) ++
      separatorWrites (Slots.moves (index + 2) n.separators (index + 1) (n.size - index))
  else []) ++ [.key index key, .separator (index + 1) (some separator), .size (n.size + 1)]

theorem creates_insertValueWrites (n : Node) (index : Nat) (value : Value) (key : Nat) :
    ∀ w ∈ n.insertValueWrites index value key, w.creates = false := by
  unfold insertValueWrites keyWrites valueWrites
  split
  · simp only [List.forall_mem_append, List.forall_mem_map, List.forall_mem_cons, Write.creates]
    simp
  · simp [Write.creates]

theorem creates_insertSeparatorWrites (n : Node) (index separator key : Nat) :
    ∀ w ∈ n.insertSeparatorWrites index separator key, w.creates = false := by
  unfold insertSeparatorWrites keyWrites separatorWrites
  split
  · simp only [List.forall_mem_append, List.forall_mem_map, List.forall_mem_cons, Write.creates]
    simp
  · simp [Write.creates]

/-- `Node::copy`; the writes go to the other node. -/
def copyWrites (n : Node) (fromIndex count : Nat) : List Write :=
  if n.isLeaf then
    keyWrites (Slots.copies 0 n.keys fromIndex count) ++
      valueWrites (Slots.copies 0 n.values fromIndex count)
  else
    keyWrites (Slots.copies 0 n.keys fromIndex count) ++
      separatorWrites (Slots.copies 1 n.separators (fromIndex + 1) count)

theorem storeAll_insertValueWrites (n : Node) (index : Nat) (value : Value) (key : Nat) :
    n.storeAll (n.insertValueWrites index value key) = n.insertValue index value key := by
  unfold insertValueWrites insertValue Slots.insertAt Slots.memmove
  split
  · simp [store, Slots.stores_moves]
  · simp [store]

theorem storeAll_insertSeparatorWrites (n : Node) (index separator key : Nat) :
    n.storeAll (n.insertSeparatorWrites index separator key) =
      n.insertSeparator index separator key := by
  unfold insertSeparatorWrites insertSeparator Slots.insertAt Slots.memmove
  by_cases h : index < n.size
  · have h' : index + 1 < n.size + 1 := by omega
    simp [store, Slots.stores_moves, h]
  · have h' : ¬ index + 1 < n.size + 1 := by omega
    simp [store, h]

theorem storeAll_copyWrites (n other : Node) (j count : Nat) :
    other.storeAll (n.copyWrites j count) = n.copy other j count := by
  unfold copyWrites copy
  split
  · simp [Slots.stores_copies]
  · simp [Slots.stores_copies]

end Node

/-! ## Writes to several nodes -/

def writesTo (n : Nat) (l : List Write) : List (Nat × Write) := l.map fun w => (n, w)

/-- The memory behind one write. -/
def runWrite (memory : Nat → Node) (w : Nat × Write) : Nat → Node :=
  Slots.store memory w.1 ((memory w.1).store w.2)

/-- The memory behind a sequence of writes. -/
def runWrites (memory : Nat → Node) (l : List (Nat × Write)) : Nat → Node :=
  l.foldl runWrite memory

theorem runWrite_of_ne (memory : Nat → Node) {w : Nat × Write} {m : Nat} (h : m ≠ w.1) :
    runWrite memory w m = memory m := Slots.store_of_ne _ _ h

@[simp] theorem runWrites_nil (memory : Nat → Node) : runWrites memory [] = memory := rfl

@[simp] theorem runWrites_cons (memory : Nat → Node) (w : Nat × Write) (l : List (Nat × Write)) :
    runWrites memory (w :: l) = runWrites (runWrite memory w) l := rfl

/-- The writes to one node. -/
def writesAt (m : Nat) (l : List (Nat × Write)) : List Write :=
  l.filterMap fun w => if w.1 = m then some w.2 else none

@[simp] theorem writesAt_nil (m : Nat) : writesAt m [] = [] := rfl

@[simp] theorem writesAt_append (m : Nat) (l l' : List (Nat × Write)) :
    writesAt m (l ++ l') = writesAt m l ++ writesAt m l' := List.filterMap_append

@[simp] theorem writesAt_writesTo (m n : Nat) (l : List Write) :
    writesAt m (writesTo n l) = if n = m then l else [] := by
  unfold writesAt writesTo
  rw [List.filterMap_map]
  split
  next h => simp [h]
  next h => simp [h]

/-- What a node becomes depends on what it was and on the writes to it. -/
theorem runWrites_apply (memory : Nat → Node) (l : List (Nat × Write)) (m : Nat) :
    runWrites memory l m = (memory m).storeAll (writesAt m l) := by
  induction l generalizing memory with
  | nil => rfl
  | cons w l ih =>
      rw [runWrites_cons, ih]
      unfold runWrite writesAt
      by_cases hw : w.1 = m
      · simp [hw]
      · simp [hw, Slots.store_of_ne _ _ (Ne.symm hw)]

/-! ## The operations -/

/-- `Tree::split_leaf_node`. -/
def splitLeafWrites (c : Capacity) (memory : Nat → Node) (n new k : Nat) (v : Value) :
    List (Nat × Write) :=
  let leaf := memory n
  let leftSize := c.maxItems / 2
  let rightSize := c.maxItems - leftSize
  let left : Node := { leaf with size := leftSize }
  let right := leaf.copiedLeaf (Node.create true (memory new).toMemory) leftSize rightSize
  let halves := leaf.splitLeaf c (Node.create true (memory new).toMemory) k v
  writesTo new (.create true :: leaf.copyWrites leftSize rightSize) ++
    writesTo new [.highKey leaf.highKey, .rightSibling leaf.rightSibling, .size rightSize] ++
    writesTo n [.size leftSize, .rightSibling (some new)] ++
    (if k < right.keys 0 then writesTo n (left.insertValueWrites (left.index k) v k)
      else writesTo new (right.insertValueWrites (right.index k) v k)) ++
    writesTo n [.highKey (halves.2.keys 0)]

/-- `ThreadTree::insert_into_leaf`. -/
def insertIntoLeafWrites (c : Capacity) (memory : Nat → Node) (n new k : Nat) (v : Value) :
    List (Nat × Write) :=
  let leaf := memory n
  let index := leaf.index k
  if index < leaf.size ∧ leaf.keys index = k then []
  else if leaf.isFull c = false then writesTo n (leaf.insertValueWrites index v k)
  else splitLeafWrites c memory n new k v

/-- The leaf write of `ThreadTree::update`. -/
def updateWrites (c : Capacity) (memory : Nat → Node) (n k : Nat) (v : Value) :
    List (Nat × Write) :=
  let leaf := memory n
  if leaf.leafKey c (leaf.index k) = k then writesTo n [.value (leaf.index k) v] else []

/-- `Tree::split_inner_node`. -/
def splitInnerWrites (c : Capacity) (memory : Nat → Node) (n new s x : Nat) :
    List (Nat × Write) :=
  let inner := memory n
  let leftSize := c.maxKeys / 2
  let rightSize := c.maxKeys - leftSize
  let base : Node := { Node.create false (memory new).toMemory with highKey := inner.highKey }
  let halves := inner.splitInner c (Node.create false (memory new).toMemory) s x
  writesTo new [.create false, .highKey inner.highKey] ++
    (if s < inner.keys (leftSize - 1) then
      let left : Node := { inner with size := leftSize - 1 }
      writesTo new (inner.copyWrites leftSize rightSize ++
          [.separator 0 (inner.separators leftSize), .size rightSize]) ++
        writesTo n (.size (leftSize - 1) :: left.insertSeparatorWrites (left.index s) x s)
    else if s < inner.keys leftSize then
      writesTo new (inner.copyWrites leftSize rightSize ++ [.separator 0 (some x)]) ++
        writesTo n [.size leftSize] ++ writesTo new [.size rightSize]
    else
      let right := inner.copied base (leftSize + 1) (rightSize - 1)
        (inner.separators (leftSize + 1))
      writesTo new (inner.copyWrites (leftSize + 1) (rightSize - 1) ++
          [.separator 0 (inner.separators (leftSize + 1))]) ++
        writesTo n [.size leftSize] ++
        writesTo new (.size (rightSize - 1) :: right.insertSeparatorWrites (right.index s) x s)) ++
    writesTo new [.rightSibling inner.rightSibling] ++
    writesTo n [.rightSibling (some new), .highKey halves.2.2]

/-- `ThreadTree::insert_into_inner`. -/
def insertIntoInnerWrites (c : Capacity) (memory : Nat → Node) (n new s x : Nat) :
    List (Nat × Write) :=
  let inner := memory n
  if inner.isFull c = false then writesTo n (inner.insertSeparatorWrites (inner.index s) x s)
  else splitInnerWrites c memory n new s x

/-- `Tree::create_new_root`, up to the root field of the tree. -/
def createNewRootWrites (memory : Nat → Node) (root left right key : Nat) : List (Nat × Write) :=
  let node := (Node.create false (memory root).toMemory).setSeparator 0 (some left)
  writesTo root (.create false :: .separator 0 (some left) ::
    node.insertSeparatorWrites 0 right key)

section Operations

variable {c : Capacity} {t t' : Tree} {memory : Nat → Node} {n m k s x : Nat} {v : Value}

/-- The memory has the node and the raw memory behind the nodes as the tree has them. -/
structure Agrees (t : Tree) (memory : Nat → Node) (n : Nat) : Prop where
  lt_count : n < t.count
  node : memory n = t.node n
  raw : memory t.count = t.node t.count

/-- The writes make node `n` of the memory and the new node, if there is one, those of the
tree; they touch no other node and do not create `n` again. -/
structure Performs (memory : Nat → Node) (l : List (Nat × Write)) (n : Nat) (new : Option Nat)
    (t : Tree) : Prop where
  targets : ∀ w ∈ l, w.1 = n ∧ w.2.creates = false ∨ new = some w.1
  node : runWrites memory l n = t.node n
  new : ∀ m, new = some m → runWrites memory l m = t.node m

theorem mem_writesTo {l : List Write} {w : Nat × Write} (h : w ∈ writesTo n l) :
    w.1 = n ∧ w.2 ∈ l := by
  rcases List.mem_map.mp h with ⟨w', hw', rfl⟩
  exact ⟨rfl, hw'⟩

/-- Writes to one node. -/
theorem Agrees.performs_writesTo (h : Agrees t memory n) {l : List Write}
    (hl : ∀ w ∈ l, w.creates = false) :
    Performs memory (writesTo n l) n none (t.setNode n ((t.node n).storeAll l)) := by
  refine ⟨fun w hw => ?_, ?_, fun m hm => absurd hm (by simp)⟩
  · rcases mem_writesTo hw with ⟨h1, h2⟩
    exact Or.inl ⟨h1, hl _ h2⟩
  · rw [runWrites_apply, writesAt_writesTo, if_pos rfl, h.node, setNode_node_self]

theorem Agrees.performs_nil (h : Agrees t memory n) : Performs memory [] n none t :=
  ⟨by simp, h.node, fun m hm => absurd hm (by simp)⟩

theorem runWrites_splitLeafWrites (c : Capacity) (memory : Nat → Node) (hn : n ≠ m) (k : Nat)
    (v : Value) :
    let halves := (memory n).splitLeaf c (Node.create true (memory m).toMemory) k v
    runWrites memory (splitLeafWrites c memory n m k v) n =
        { halves.1 with rightSibling := some m, highKey := halves.2.keys 0 } ∧
      runWrites memory (splitLeafWrites c memory n m k v) m = halves.2 := by
  have hleft := Node.storeAll_insertValueWrites
    { memory n with size := c.maxItems / 2, rightSibling := some m }
  have hright := Node.storeAll_insertValueWrites ((memory n).copiedLeaf
    (Node.create true (memory m).toMemory) (c.maxItems / 2) (c.maxItems - c.maxItems / 2))
  have hcopy := Node.storeAll_copyWrites (memory n) (Node.create true (memory m).toMemory)
    (c.maxItems / 2) (c.maxItems - c.maxItems / 2)
  simp only [runWrites_apply, splitLeafWrites, Node.splitLeaf_eq]
  split
  next hk =>
    simp only [writesAt_append, writesAt_writesTo, if_true, if_neg hn, if_neg (Ne.symm hn),
      Node.storeAll_append, List.nil_append, List.append_nil, Node.storeAll_cons,
      Node.storeAll_nil, Node.store, hcopy]
    refine ⟨?_, rfl⟩
    exact congrArg (Node.store · (.highKey _)) (hleft _ _ _)
  next hk =>
    simp only [writesAt_append, writesAt_writesTo, if_true, if_neg hn, if_neg (Ne.symm hn),
      Node.storeAll_append, List.nil_append, List.append_nil, Node.storeAll_cons,
      Node.storeAll_nil, Node.store, hcopy]
    exact ⟨trivial, hright _ _ _⟩

theorem splitLeafWrites_targets : ∀ w ∈ splitLeafWrites c memory n m k v,
    w.1 = n ∧ w.2.creates = false ∨ w.1 = m := by
  intro w hw
  simp only [splitLeafWrites, List.mem_append] at hw
  rcases hw with (((hw | hw) | hw) | hw) | hw
  · exact Or.inr (mem_writesTo hw).1
  · exact Or.inr (mem_writesTo hw).1
  · rcases mem_writesTo hw with ⟨h1, h2⟩
    simp only [List.mem_cons, List.not_mem_nil, or_false] at h2
    exact Or.inl ⟨h1, by rcases h2 with h2 | h2 <;> rw [h2] <;> rfl⟩
  · split at hw
    · rcases mem_writesTo hw with ⟨h1, h2⟩
      exact Or.inl ⟨h1, Node.creates_insertValueWrites _ _ _ _ _ h2⟩
    · exact Or.inr (mem_writesTo hw).1
  · rcases mem_writesTo hw with ⟨h1, h2⟩
    rw [List.mem_singleton] at h2
    exact Or.inl ⟨h1, by rw [h2]; rfl⟩

theorem Agrees.insertIntoLeaf (h : Agrees t memory n) (k : Nat) (v : Value) :
    Performs memory (insertIntoLeafWrites c memory n t.count k v) n
      ((t.insertIntoLeaf c n k v).2.map Prod.fst) (t.insertIntoLeaf c n k v).1 := by
  unfold insertIntoLeafWrites
  rw [h.node]
  rcases insertIntoLeaf_cases c t n k v with ⟨hk, he⟩ | ⟨hk, hf, he⟩ | ⟨hk, hf, he⟩
  · rw [he, if_pos hk]
    exact h.performs_nil
  · rw [he, if_neg hk, if_pos hf, ← Node.storeAll_insertValueWrites]
    exact h.performs_writesTo (Node.creates_insertValueWrites _ _ _ _)
  · rw [he, if_neg hk, if_neg (by rw [hf]; decide)]
    rcases runWrites_splitLeafWrites c memory h.lt_count.ne k v with ⟨hl, hr⟩
    rw [h.node, h.raw] at hl hr
    refine ⟨fun w hw => ?_, ?_, ?_⟩
    · rcases splitLeafWrites_targets w hw with hw | hw
      · exact Or.inl hw
      · exact Or.inr (congrArg some hw.symm)
    · rw [hl, splitLeafNode_left h.lt_count]
      rfl
    · intro m hm
      obtain rfl : t.count = m := Option.some.inj hm
      rw [hr, splitLeafNode_new]
      rfl

theorem Agrees.updateValue (h : Agrees t memory n) (k : Nat) (v : Value) :
    Performs memory (updateWrites c memory n k v) n none
      (t.setNode n ((t.node n).updateValue c k v)) := by
  unfold updateWrites Node.updateValue
  rw [h.node]
  dsimp only
  split
  · exact h.performs_writesTo (by simp [Write.creates])
  · rw [setNode_node]
    exact h.performs_nil

theorem runWrites_splitInnerWrites (c : Capacity) (memory : Nat → Node) (hn : n ≠ m) (s x : Nat) :
    let halves := (memory n).splitInner c (Node.create false (memory m).toMemory) s x
    runWrites memory (splitInnerWrites c memory n m s x) n =
        { halves.1 with rightSibling := some m, highKey := halves.2.2 } ∧
      runWrites memory (splitInnerWrites c memory n m s x) m =
        { halves.2.1 with rightSibling := (memory n).rightSibling } := by
  have hcopy := Node.storeAll_copyWrites (memory n)
    { Node.create false (memory m).toMemory with highKey := (memory n).highKey }
  have hins := Node.storeAll_insertSeparatorWrites
  simp only [runWrites_apply, splitInnerWrites, Node.splitInner_eq]
  split
  next hk =>
    simp only [writesAt_append, writesAt_writesTo, if_true, if_neg hn, if_neg (Ne.symm hn),
      Node.storeAll_append, List.nil_append, List.append_nil, Node.storeAll_cons,
      Node.storeAll_nil, Node.store, hcopy, hins]
    exact ⟨trivial, rfl⟩
  next hk =>
    split
    next hk' =>
      simp only [writesAt_append, writesAt_writesTo, if_true, if_neg hn, if_neg (Ne.symm hn),
        Node.storeAll_append, List.nil_append, List.append_nil, Node.storeAll_cons,
        Node.storeAll_nil, Node.store, hcopy]
      exact ⟨trivial, rfl⟩
    next hk' =>
      simp only [writesAt_append, writesAt_writesTo, if_true, if_neg hn, if_neg (Ne.symm hn),
        Node.storeAll_append, List.nil_append, List.append_nil, Node.storeAll_cons,
        Node.storeAll_nil, Node.store, hcopy]
      refine ⟨trivial, ?_⟩
      exact congrArg (Node.store · (.rightSibling _)) (hins _ _ _ _)

theorem splitInnerWrites_targets : ∀ w ∈ splitInnerWrites c memory n m s x,
    w.1 = n ∧ w.2.creates = false ∨ w.1 = m := by
  intro w hw
  have hsize : ∀ i, w ∈ writesTo n [.size i] → w.1 = n ∧ w.2.creates = false := by
    intro i hi
    rcases mem_writesTo hi with ⟨h1, h2⟩
    rw [List.mem_singleton] at h2
    exact ⟨h1, by rw [h2]; rfl⟩
  simp only [splitInnerWrites, List.mem_append] at hw
  rcases hw with ((hw | hw) | hw) | hw
  · exact Or.inr (mem_writesTo hw).1
  · split at hw
    · rcases List.mem_append.mp hw with hw | hw
      · exact Or.inr (mem_writesTo hw).1
      · rcases mem_writesTo hw with ⟨h1, h2⟩
        rcases List.mem_cons.mp h2 with h2 | h2
        · exact Or.inl ⟨h1, by rw [h2]; rfl⟩
        · exact Or.inl ⟨h1, Node.creates_insertSeparatorWrites _ _ _ _ _ h2⟩
    · split at hw
      · rcases List.mem_append.mp hw with hw | hw
        · rcases List.mem_append.mp hw with hw | hw
          · exact Or.inr (mem_writesTo hw).1
          · exact Or.inl (hsize _ hw)
        · exact Or.inr (mem_writesTo hw).1
      · rcases List.mem_append.mp hw with hw | hw
        · rcases List.mem_append.mp hw with hw | hw
          · exact Or.inr (mem_writesTo hw).1
          · exact Or.inl (hsize _ hw)
        · exact Or.inr (mem_writesTo hw).1
  · exact Or.inr (mem_writesTo hw).1
  · rcases mem_writesTo hw with ⟨h1, h2⟩
    simp only [List.mem_cons, List.not_mem_nil, or_false] at h2
    exact Or.inl ⟨h1, by rcases h2 with h2 | h2 <;> rw [h2] <;> rfl⟩

theorem splitInner_rightSibling (inner new : Node) (s x : Nat) :
    (inner.splitInner c new s x).1.rightSibling = inner.rightSibling := by
  rw [Node.splitInner_eq]
  dsimp only
  split
  · rfl
  · split <;> rfl

theorem Agrees.insertIntoInner (h : Agrees t memory n) {up : Option (Nat × Nat)}
    (he : t.insertIntoInner c n s x = some (t', up)) :
    Performs memory (insertIntoInnerWrites c memory n t.count s x) n (up.map Prod.fst) t' := by
  unfold insertIntoInnerWrites
  rw [h.node]
  simp only [Tree.insertIntoInner] at he
  split at he
  next hf =>
    simp only [Option.some.injEq, Prod.mk.injEq] at he
    rw [if_pos hf, ← he.1, ← he.2, ← Node.storeAll_insertSeparatorWrites]
    exact h.performs_writesTo (Node.creates_insertSeparatorWrites _ _ _ _)
  next hf =>
    rw [splitInnerNode_eq, Option.map_map, Option.map_eq_some_iff] at he
    rcases he with ⟨t1, hset, heq⟩
    simp only [Function.comp_apply, Prod.mk.injEq] at heq
    rw [if_neg hf, ← heq.1, ← heq.2]
    rcases runWrites_splitInnerWrites c memory h.lt_count.ne s x with ⟨hl, hr⟩
    rw [h.node, h.raw] at hl hr
    refine ⟨fun w hw => ?_, ?_, ?_⟩
    · rcases splitInnerWrites_targets w hw with hw | hw
      · exact Or.inl hw
      · exact Or.inr (congrArg some hw.symm)
    · rw [hl, setParents_node hset]
      simp only [Tree.innerBase, Slots.store_self, Slots.store_of_ne _ _ h.lt_count.ne]
      rfl
    · intro m hm
      obtain rfl : t.count = m := Option.some.inj hm
      rw [hr, setParents_node hset, ← splitInner_rightSibling]
      exact (Slots.store_self _ _ _).symm

theorem runWrites_createNewRootWrites (hraw : memory t.count = t.node t.count)
    (left right key : Nat) :
    runWrites memory (createNewRootWrites memory t.count left right key) t.count =
      (t.createNewRoot left right key).node t.count := by
  rw [runWrites_apply]
  unfold createNewRootWrites
  rw [writesAt_writesTo, if_pos rfl, hraw, createNewRoot_node]
  exact Node.storeAll_insertSeparatorWrites _ _ _ _

end Operations

end BLinkTree
