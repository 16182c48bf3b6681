import BLinkTree.Iterator
import BLinkTree.Levels

/-! # The consistency checker

`ConsistencyChecker` and `Tree::check`. A message is a text with the node it is about. A
check that would follow a null pointer has no result.
-/

namespace BLinkTree

abbrev Message := String × Nat

/-- The loops of the checker: `false` at the first index that fails the test. -/
def allFrom (test : Nat → Option Bool) : Nat → Nat → Option Bool
  | 0, _ => some true
  | rounds + 1, index =>
      match test index with
      | some true => allFrom test rounds (index + 1)
      | stop => stop

namespace Node

/-- `index - 1` as the `size_type` that the key accessors take. -/
def before (index : Nat) : Nat := (index + 65535) % 65536

/-- `node->key(node->size() - 1)`. -/
def lastKey (n : Node) : Nat := n.keys (before n.size)

/-- `ConsistencyChecker::is_high_key_valid`. -/
def isHighKeyValid (n : Node) : Bool := decide (n.lastKey < n.highKey)

/-- `ConsistencyChecker::is_key_order_valid`. -/
def isKeyOrderValid (n : Node) : Option Bool :=
  allFrom (fun index => some (decide (n.keys (index - 1) < n.keys index))) (n.size - 1) 1

/-- `ConsistencyChecker::is_no_null_separator`. -/
def isNoNullSeparator (n : Node) : Option Bool :=
  if n.isLeaf then some true
  else allFrom (fun index => some (n.separators index).isSome) (n.size + 1) 0

/-- `Node::contains_separator`. -/
def containsSeparator (n : Node) (separator : Nat) : Bool :=
  (List.range (n.size + 1)).any fun i => n.separators i == some separator

/-- The loop of `check_and_print_parent` that looks for the node. -/
def separatorIndex (n : Node) (separator : Nat) : Nat → Nat → Nat
  | 0, index => index
  | rounds + 1, index =>
      if n.separators index = some separator then index
      else n.separatorIndex separator rounds (index + 1)

end Node

/-- `ConsistencyChecker::is_children_order_valid`. -/
def Tree.isChildrenOrderValid (t : Tree) (n : Nat) : Option Bool :=
  if (t.node n).isLeaf then some true
  else allFrom (fun index => ((t.node n).separators index).map fun child =>
    decide ((t.node child).lastKey < (t.node n).keys index)) (t.node n).size 0

/-- `ConsistencyChecker::check_and_print_parent`. -/
def Tree.checkAndPrintParent (t : Tree) (n : Nat) : List Message :=
  match t.parent n with
  | none => []
  | some p =>
      if (t.node p).containsSeparator n = false then [("Wrong parent(1) for node ", n)]
      else
        let index := (t.node p).separatorIndex n ((t.node p).size + 1) 0
        if index < (t.node p).size then
          if (t.node n).lastKey < (t.node p).keys index then []
          else [("Wrong parent(2) for node ", n)]
        else if (t.node p).keys (Node.before index) ≤ (t.node n).keys 0 then []
        else [("Wrong parent(3) for node ", n)]

def report (valid : Bool) (text : String) (n : Nat) : List Message :=
  if valid = false then [(text, n)] else []

/-- `ConsistencyChecker::check_node_and_print_errors`. -/
def Tree.checkNodeAndPrintErrors (t : Tree) (n : Nat) : Option (List Message) := do
  let highKey := (t.node n).isHighKeyValid
  let keyOrder ← (t.node n).isKeyOrderValid
  let noNull ← (t.node n).isNoNullSeparator
  let children ← t.isChildrenOrderValid n
  let level ← t.isLevelValid n
  return report highKey "Wrong high_key at node " n ++
    report keyOrder "Wrong key order at node " n ++
    report noNull "Found null separator at node " n ++
    report children "Wrong children at node " n ++
    report level "Wrong level at node " n ++ t.checkAndPrintParent n

/-- The messages of all nodes of a list. -/
def Tree.checkNodes (t : Tree) : List Nat → Option (List Message)
  | [] => some []
  | n :: nodes => do
      let messages ← t.checkNodeAndPrintErrors n
      let rest ← t.checkNodes nodes
      return messages ++ rest

/-- `Tree::check`. -/
def Tree.check (t : Tree) (fuel : Nat) : Option (List Message) :=
  (t.visited fuel t.begin).bind t.checkNodes

variable {t : Tree} {n p : Nat}

/-! ## When nothing is printed -/

theorem allFrom_iff {test : Nat → Option Bool} {rounds index : Nat} :
    allFrom test rounds index = some true ↔
      ∀ j, index ≤ j → j < index + rounds → test j = some true := by
  induction rounds generalizing index with
  | zero =>
      refine ⟨fun _ j h1 h2 => ?_, fun _ => rfl⟩
      omega
  | succ rounds ih =>
      rw [allFrom]
      constructor
      · intro h j h1 h2
        split at h
        next htest =>
          by_cases hj : j = index
          · rw [hj]
            exact htest
          · exact ih.mp h j (by omega) (by omega)
        next htest => exact absurd h (htest · )
      · intro h
        rw [h index le_rfl (by omega)]
        exact ih.mpr fun j h1 h2 => h j (by omega) (by omega)

theorem report_eq_nil {valid : Bool} {text : String} :
    report valid text n = [] ↔ valid = true := by
  cases valid <;> simp [report]

theorem checkNodes_eq_nil {nodes : List Nat} :
    t.checkNodes nodes = some [] ↔ ∀ n ∈ nodes, t.checkNodeAndPrintErrors n = some [] := by
  induction nodes with
  | nil => simp [Tree.checkNodes]
  | cons n nodes ih =>
      simp only [Tree.checkNodes, Option.bind_eq_bind, Option.bind_eq_some_iff, List.mem_cons,
        forall_eq_or_imp, ← ih]
      constructor
      · rintro ⟨messages, h1, rest, h2, h3⟩
        obtain ⟨rfl, rfl⟩ := List.append_eq_nil_iff.mp (Option.some.inj h3)
        exact ⟨h1, h2⟩
      · rintro ⟨h1, h2⟩
        exact ⟨[], h1, [], h2, rfl⟩

/-- What the six checks of a node ask for. -/
theorem checkNode_eq_nil :
    t.checkNodeAndPrintErrors n = some [] ↔
      (t.node n).isHighKeyValid = true ∧ (t.node n).isKeyOrderValid = some true ∧
        (t.node n).isNoNullSeparator = some true ∧ t.isChildrenOrderValid n = some true ∧
        t.isLevelValid n = some true ∧ t.checkAndPrintParent n = [] := by
  unfold Tree.checkNodeAndPrintErrors
  simp only [Option.bind_eq_bind, Option.bind_eq_some_iff]
  constructor
  · rintro ⟨a, ha, b, hb, c, hc, d, hd, h⟩
    simp only [Option.pure_def, Option.some.injEq, List.append_eq_nil_iff, report_eq_nil] at h
    obtain ⟨⟨⟨⟨⟨h1, rfl⟩, rfl⟩, rfl⟩, rfl⟩, h6⟩ := h
    exact ⟨h1, ha, hb, hc, hd, h6⟩
  · rintro ⟨h1, ha, hb, hc, hd, h6⟩
    refine ⟨true, ha, true, hb, true, hc, true, hd, ?_⟩
    rw [h1, h6]
    rfl

/-! ## The single checks -/

namespace Node

theorem before_eq {index : Nat} (h1 : 1 ≤ index) (h2 : index < 2 ^ 16) :
    before index = index - 1 := by
  unfold before
  omega

theorem isKeyOrderValid_iff {n : Node} :
    n.isKeyOrderValid = some true ↔ ∀ j, j + 1 < n.size → n.keys j < n.keys (j + 1) := by
  unfold isKeyOrderValid
  rw [allFrom_iff]
  simp only [Option.some.injEq, decide_eq_true_eq]
  constructor
  · intro h j hj
    exact h (j + 1) (by omega) (by omega)
  · intro h j h1 h2
    obtain ⟨i, rfl⟩ : ∃ i, j = i + 1 := ⟨j - 1, by omega⟩
    exact h i (by omega)

theorem isNoNullSeparator_iff {n : Node} :
    n.isNoNullSeparator = some true ↔
      (n.isLeaf = false → ∀ j ≤ n.size, ∃ y, n.separators j = some y) := by
  unfold isNoNullSeparator
  cases hl : n.isLeaf with
  | true => simp
  | false =>
      simp only [Bool.false_eq_true, if_false, allFrom_iff, Option.some.injEq,
        Option.isSome_iff_exists, forall_const]
      constructor
      · intro h j hj
        exact h j (Nat.zero_le j) (by omega)
      · intro h j _ hj
        exact h j (by omega)

/-- The loop stops at the first position of the separator. -/
theorem separatorIndex_spec {n : Node} {y : Nat} {rounds index : Nat}
    (h : ∃ j, index ≤ j ∧ j < index + rounds ∧ n.separators j = some y) :
    n.separatorIndex y rounds index < index + rounds ∧
      n.separators (n.separatorIndex y rounds index) = some y := by
  induction rounds generalizing index with
  | zero =>
      rcases h with ⟨j, h1, h2, _⟩
      omega
  | succ rounds ih =>
      by_cases hs : n.separators index = some y
      · have heq : n.separatorIndex y (rounds + 1) index = index := if_pos hs
        rw [heq]
        exact ⟨by omega, hs⟩
      · rcases h with ⟨j, h1, h2, h3⟩
        have hne : j ≠ index := by
          rintro rfl
          exact hs h3
        have hlater : ∃ j, index + 1 ≤ j ∧ j < index + 1 + rounds ∧ n.separators j = some y :=
          ⟨j, by omega, by omega, h3⟩
        rcases ih hlater with ⟨k1, k2⟩
        have heq : n.separatorIndex y (rounds + 1) index =
            n.separatorIndex y rounds (index + 1) := if_neg hs
        rw [heq]
        exact ⟨by omega, k2⟩

theorem containsSeparator_iff {n : Node} {y : Nat} :
    n.containsSeparator y = true ↔ ∃ j ≤ n.size, n.separators j = some y := by
  unfold containsSeparator
  rw [List.any_eq_true]
  constructor
  · rintro ⟨j, hj, hs⟩
    exact ⟨j, Nat.lt_succ_iff.mp (List.mem_range.mp hj), beq_iff_eq.mp hs⟩
  · rintro ⟨j, hj, hs⟩
    exact ⟨j, List.mem_range.mpr (Nat.lt_succ_of_le hj), beq_iff_eq.mpr hs⟩

end Node

theorem isChildrenOrderValid_iff :
    t.isChildrenOrderValid n = some true ↔
      ((t.node n).isLeaf = false → ∀ j < (t.node n).size, ∃ y,
        (t.node n).separators j = some y ∧ (t.node y).lastKey < (t.node n).keys j) := by
  unfold Tree.isChildrenOrderValid
  cases hl : (t.node n).isLeaf with
  | true => simp
  | false =>
      simp only [Bool.false_eq_true, if_false, allFrom_iff, Option.map_eq_some_iff,
        decide_eq_true_eq, forall_const]
      constructor
      · intro h j hj
        exact h j (Nat.zero_le j) (by omega)
      · intro h j _ hj
        exact h j (by omega)

/-- `is_level_valid` is one more loop of this kind. -/
theorem levelLoop_eq_allFrom (separators : Nat → Option Nat) (rounds index : Nat) :
    t.levelLoop separators rounds index = allFrom (fun j =>
      (separators j).bind fun a => (separators (j + 1)).map fun b =>
        (t.node a).isLeaf == (t.node b).isLeaf) rounds index := by
  induction rounds generalizing index with
  | zero => rfl
  | succ rounds ih =>
      rw [Tree.levelLoop, allFrom]
      cases ha : separators index with
      | none => simp
      | some a =>
          cases hb : separators (index + 1) with
          | none => simp
          | some b =>
              cases hla : (t.node a).isLeaf <;> cases hlb : (t.node b).isLeaf <;> simp [hla, hlb, ih]

theorem isLevelValid_iff :
    t.isLevelValid n = some true ↔
      (∀ r, (t.node n).rightSibling = some r → (t.node n).isLeaf = (t.node r).isLeaf) ∧
        ((t.node n).isLeaf = false → ∀ j < (t.node n).size, ∃ a b,
          (t.node n).separators j = some a ∧ (t.node n).separators (j + 1) = some b ∧
            (t.node a).isLeaf = (t.node b).isLeaf) := by
  have hsibling : t.siblingDiffers n = false ↔
      ∀ r, (t.node n).rightSibling = some r → (t.node n).isLeaf = (t.node r).isLeaf := by
    unfold Tree.siblingDiffers
    cases (t.node n).rightSibling <;> simp
  unfold Tree.isLevelValid
  rw [← hsibling]
  cases hd : t.siblingDiffers n with
  | true => simp
  | false =>
      cases hl : (t.node n).isLeaf with
      | true => simp
      | false =>
          simp only [Bool.false_eq_true, if_false, if_true, levelLoop_eq_allFrom, allFrom_iff,
            true_and, Option.bind_eq_some_iff, Option.map_eq_some_iff, beq_iff_eq, forall_const]
          constructor
          · intro h j hj
            rcases h j (Nat.zero_le j) (by omega) with ⟨a, ha, b, hb, hab⟩
            exact ⟨a, b, ha, hb, hab⟩
          · intro h j _ hj
            rcases h j (by omega) with ⟨a, b, ha, hb, hab⟩
            exact ⟨a, ha, b, hb, hab⟩

/-- The parent holds the node, at a position whose bound the node keeps. -/
theorem checkAndPrintParent_eq_nil (hp : t.parent n = some p) :
    t.checkAndPrintParent n = [] ↔
      (t.node p).containsSeparator n = true ∧
        let index := (t.node p).separatorIndex n ((t.node p).size + 1) 0
        (index < (t.node p).size → (t.node n).lastKey < (t.node p).keys index) ∧
          ((t.node p).size ≤ index →
            (t.node p).keys (Node.before index) ≤ (t.node n).keys 0) := by
  unfold Tree.checkAndPrintParent
  rw [hp]
  dsimp only
  cases hc : (t.node p).containsSeparator n with
  | false => simp
  | true =>
      simp only [Bool.true_eq_false, if_false, true_and]
      by_cases hi : (t.node p).separatorIndex n ((t.node p).size + 1) 0 < (t.node p).size
      · simp [hi, not_le.mpr hi]
      · simp [hi, not_lt.mp hi]

end BLinkTree
