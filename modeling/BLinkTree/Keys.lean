import BLinkTree.Agreement

/-! # The keys that can be used

The high key of a rightmost node is the largest 64-bit number, an ordinary key. The latched
tree and the tasks go to the right sibling of every node whose high key is not above the
searched key, so the search for the largest key leaves the rightmost node of the root's level
through a null pointer. Only the leaf loops of the optimistic tree ask for the sibling first.
-/

namespace BLinkTree

open Interleaving

/-- An implementation. `located s o n` says that the search of call `o` ends in leaf `n`, and
`null s o` that the call comes to a null node. -/
structure Implementation (σ : Type) where
  tree : σ → Tree
  call : Nat → σ → Op → Option (σ × Value)
  located : σ → Op → Nat → Prop
  null : σ → Op → Prop

def Latched.implementation (c : Capacity) : Implementation Tree where
  tree := id
  call := Latched.call c
  located := fun t o n => o.key < (t.node n).highKey ∧
    ∃ path, Latched.Goes c t (.start o) t (.leaf o path n)
  null := fun t o => ∃ t', Latched.Goes c t (.start o) t' (.crashed o)

def Optimistic.implementation (c : Capacity) : Implementation VersionedTree where
  tree := VersionedTree.tree
  call := Optimistic.call c
  located := fun s o n =>
    ∃ path v, Optimistic.Goes c s (.start o) s (Optimistic.leaveLeaf o path n v)
  null := fun s o => ∃ s', Optimistic.Goes c s (.start o) s' (.crashed o)

def Tbb.implementation (c : Capacity) : Implementation Tree where
  tree := id
  call := Tbb.call c
  located := fun t o n => Tbb.advance t o none n = none ∧
    Tbb.Goes c t (.task o none t.root) t (.task o none n)
  null := fun t o => ∃ t', Tbb.Goes c t (.task o none t.root) t' (.lost o)

/-- Leaf `n` is responsible for the key; the rightmost leaf has no upper bound. -/
structure Tree.Responsible (t : Tree) (n key : Nat) : Prop where
  lt_count : n < t.count
  isLeaf : (t.node n).isLeaf = true
  low_le : t.lowKey n ≤ key
  high : key < (t.node n).highKey ∨ (t.node n).rightSibling = none

namespace Implementation

variable {σ : Type}

/-- Key `k` can be used in state `s`: the searches of `insert` and `find` end in the leaf that is
responsible for the key, without a null node, and an absent key that was inserted is found. -/
structure Usable (I : Implementation σ) (s : σ) (k : Nat) (v : Value) : Prop where
  located : ∃ n, (I.tree s).Responsible n k ∧ I.located s (.insert k v) n ∧ I.located s (.find k) n
  insert_notNull : ¬ I.null s (.insert k v)
  find_notNull : ¬ I.null s (.find k)
  found : OrderedMap.get? k (I.tree s).content = none →
    ∃ fuel s' s'', I.call fuel s (.insert k v) = some (s', 0) ∧
      I.call fuel s' (.find k) = some (s'', v)

/-- The inserts return one after the other, and the key can be used in the state behind them. -/
def UsableAfter (I : Implementation σ) (s₀ : σ) (pairs : List (Nat × Value)) (k : Nat)
    (v : Value) : Prop :=
  ∃ fuel s, after I.call fuel s₀ (pairs.map fun p => .insert p.1 p.2) = some s ∧ I.Usable s k v

/-- The implementation does the serial operations in the states of `J`. -/
structure Follows (c : Capacity) (I : Implementation σ) (J : σ → Prop) : Prop where
  mono : ∀ fuel fuel' s o x, I.call fuel s o = some x → fuel ≤ fuel' → I.call fuel' s o = some x
  strict : ∀ s, J s → ∃ g : Ghost Nat, Strict c (I.tree s) g none
  call : ∀ s o t' r, J s → Serial c (I.tree s) o t' r → (∃ g : Ghost Nat, Strict c t' g none) →
    ∃ fuel s', I.call fuel s o = some (s', r) ∧ I.tree s' = t' ∧ J s'
  located : ∀ s o n path, J s → Descent (I.tree s) o.key (I.tree s).root [] n path →
    I.located s o n
  notNull : ∀ fuel s o x, I.call fuel s o = some x → ¬ I.null s o

namespace Follows

variable {c : Capacity} {I : Implementation σ} {J : σ → Prop} {s : σ}

/-- One call on a key below the largest one. -/
theorem exists_call (h : Follows c I J) (hs : J s) {o : Op} (hk : o.key < maxKey) :
    ∃ fuel s' r, I.call fuel s o = some (s', r) ∧ J s' ∧
      (I.tree s').content = finiteMap.apply (I.tree s).content o ∧
      finiteMap.allows (I.tree s).content o r := by
  rcases h.strict s hs with ⟨g, hstrict⟩
  rcases hstrict.serial o hk with ⟨t', r, g', hserial, hstrict'⟩
  rcases h.call s o t' r hs hserial ⟨g', hstrict'⟩ with ⟨fuel, s', hc, rfl, hs'⟩
  rcases hstrict.serial_content hk hserial with ⟨hcontent, hallows⟩
  exact ⟨fuel, s', r, hc, hs', hcontent, hallows⟩

theorem usable (h : Follows c I J) (hs : J s) {k : Nat} (hk : k < maxKey) (v : Value) :
    I.Usable s k v := by
  rcases h.strict s hs with ⟨g, hstrict⟩
  rcases hstrict.descent hk with ⟨n, path, hd, _⟩
  rcases h.exists_call hs (o := .insert k v) hk with ⟨f₁, s', r, hins, hs', hcontent, hr⟩
  obtain rfl : r = 0 := hr
  rcases h.exists_call hs (o := .find k) hk with ⟨f₂, _, _, hfind, _⟩
  rcases h.exists_call hs' (o := .find k) hk with ⟨f₃, s'', r, hfind', _, _, hr'⟩
  have hcovers := hd.covers hstrict.inv
  refine ⟨⟨n, ⟨hcovers.1, hcovers.2.1, hcovers.2.2.1, Or.inl hcovers.2.2.2.1⟩,
    h.located s (.insert k v) n path hs hd, h.located s (.find k) n path hs hd⟩,
    h.notNull _ _ _ _ hins, h.notNull _ _ _ _ hfind, fun habs => ?_⟩
  have hget : OrderedMap.get? k (I.tree s').content = some v := by
    rw [hcontent]
    simp [finiteMap, OrderedMap.get?_insertIfAbsent, habs]
  rw [hr' v hget] at hfind'
  exact ⟨max f₁ f₃, s', s'', h.mono _ _ _ _ _ hins (le_max_left ..),
    h.mono _ _ _ _ _ hfind' (le_max_right ..)⟩

theorem exists_after (h : Follows c I J) (hs : J s) {pairs : List (Nat × Value)}
    (hk : ∀ p ∈ pairs, p.1 < maxKey) :
    ∃ fuel s', after I.call fuel s (pairs.map fun p => .insert p.1 p.2) = some s' ∧ J s' := by
  induction pairs generalizing s with
  | nil => exact ⟨0, s, rfl, hs⟩
  | cons p pairs ih =>
      rcases h.exists_call hs (o := .insert p.1 p.2) (hk p (List.mem_cons_self ..)) with
        ⟨f₁, s₁, r, hc, hs₁, _⟩
      rcases ih hs₁ (fun q hq => hk q (List.mem_cons_of_mem _ hq)) with ⟨f₂, s', hafter, hs'⟩
      exact ⟨max f₁ f₂, s', after_cons h.mono hc hafter, hs'⟩

/-- Smaller keys can be used behind inserts of smaller keys. -/
theorem usableAfter (h : Follows c I J) (hs : J s) {pairs : List (Nat × Value)} {k : Nat}
    (hp : ∀ p ∈ pairs, p.1 < maxKey) (hk : k < maxKey) (v : Value) :
    I.UsableAfter s pairs k v := by
  rcases h.exists_after hs hp with ⟨fuel, s', hafter, hs'⟩
  exact ⟨fuel, s', hafter, h.usable hs' hk v⟩

end Follows

end Implementation

/-! ## The three implementations -/

theorem Latched.follows (c : Capacity) :
    (implementation c).Follows c fun t => ∃ g : Ghost Nat, Strict c t g none where
  mono := fun _ _ _ _ _ h hf => solo_mono h hf
  strict := fun _ h => h
  call := by
    intro t o t' r _ hserial hstrict
    rcases call_of_serial hserial with ⟨fuel, hc⟩
    exact ⟨fuel, t', hc, rfl, hstrict⟩
  located := fun _ _ _ _ _ hd => ⟨hd.key_lt, _, goes_start hd⟩
  notNull := fun _ _ _ _ hc ⟨_, hw⟩ => not_walks_of_solo hc rfl rfl hw

theorem Optimistic.follows (c : Capacity) :
    (implementation c).Follows c fun s =>
      (∃ g : Ghost Nat, Strict c s.tree g none) ∧ Free s where
  mono := fun _ _ _ _ _ h hf => solo_mono h hf
  strict := fun _ h => h.1
  call := by
    intro s o t' r hs hserial hstrict
    rcases call_of_serial hs.2 hserial with ⟨fuel, s', hc, rfl, hfree⟩
    exact ⟨fuel, s', hc, rfl, hstrict, hfree⟩
  located := fun _ _ _ _ hs hd => ⟨_, _, goes_start hs.2 hd⟩
  notNull := fun _ _ _ _ hc ⟨_, hw⟩ => not_walks_of_solo hc rfl rfl hw

theorem Tbb.follows (c : Capacity) :
    (implementation c).Follows c fun t => ∃ g : Ghost Nat, Strict c t g none where
  mono := fun _ _ _ _ _ h hf => solo_mono h hf
  strict := fun _ h => h
  call := by
    intro t o t' r _ hserial hstrict
    rcases call_of_serial hserial with ⟨fuel, hc⟩
    exact ⟨fuel, t', hc, rfl, hstrict⟩
  located := by
    intro t o n path _ hd
    have hh : ¬ (t.node n).highKey ≤ o.key := not_le.mpr hd.key_lt
    have hl : (t.node n).isLeaf = true := hd.isLeaf
    refine ⟨?_, goes_descent hd⟩
    simp [advance, hh, hl]
  notNull := fun _ _ _ _ hc ⟨_, hw⟩ => not_walks_of_solo hc rfl rfl hw

/-! ## The largest key -/

namespace Latched

variable {c : Capacity} {t t' : Tree} {g : Ghost Nat} {o : Op}

/-- The search for the largest key goes right until there is no sibling. -/
theorem goes_crashed (h : Inv c t g) (hk : maxKey ≤ o.key) :
    ∀ n < t.count, ∀ path, Goes c t (.leaf o path n) t (.crashed o) ∧
      Goes c t (.inner o path n) t (.crashed o) := by
  refine h.right_induction fun n hn hright path => ?_
  have hh : (t.node n).highKey ≤ o.key := (h.node n hn).highKey_le.trans hk
  cases hr : (t.node n).rightSibling with
  | none =>
      have h1 : next c t (.leaf o path n) .go = some (t, .crashed o, none) := by
        simp [next, hh, moveRight, hr]
      have h2 : next c t (.inner o path n) .go = some (t, .crashed o, none) := by
        simp [next, hh, moveRight, hr]
      exact ⟨.head rfl h1 .refl, .head rfl h2 .refl⟩
  | some r =>
      have h1 : next c t (.leaf o path n) .go = some (t, .leaf o path r, none) := by
        simp [next, hh, moveRight, hr]
      have h2 : next c t (.inner o path n) .go = some (t, .inner o path r, none) := by
        simp [next, hh, moveRight, hr]
      rcases hright r hr path with ⟨hleaf, hinner⟩
      exact ⟨.head rfl h1 hleaf, .head rfl h2 hinner⟩

theorem null_of_le (h : Inv c t g) (hk : maxKey ≤ o.key) : (implementation c).null t o := by
  rcases goes_crashed h hk t.root h.root_lt [] with ⟨hleaf, hinner⟩
  refine ⟨t, .head rfl rfl ?_⟩
  rcases enter_cases t o [] t.root with ⟨_, he⟩ | ⟨_, he⟩
  · rw [he]
    exact hleaf
  · rw [he]
    exact hinner

/-- Inserts that return have smaller keys. -/
theorem after_inserts {fuel : Nat} {pairs : List (Nat × Value)}
    (h : ∃ g : Ghost Nat, Inv c t g)
    (ha : after (call c) fuel t (pairs.map fun p => .insert p.1 p.2) = some t') :
    (∀ p ∈ pairs, p.1 < maxKey) ∧ ∃ g : Ghost Nat, Inv c t' g := by
  induction pairs generalizing t with
  | nil =>
      obtain rfl : t = t' := by simpa [after] using ha
      exact ⟨by simp, h⟩
  | cons p pairs ih =>
      rcases Option.bind_eq_some_iff.mp ha with ⟨⟨t₁, r⟩, hc, hrest⟩
      have hk : p.1 < maxKey := by
        by_contra hnot
        rcases h with ⟨g, hinv⟩
        exact (follows c).notNull fuel t (.insert p.1 p.2) _ hc (null_of_le hinv (not_lt.mp hnot))
      rcases (serves c).insert fuel t t₁ p.1 p.2 r h hk hc with ⟨h₁, _⟩
      rcases ih h₁ hrest with ⟨hkeys, h'⟩
      refine ⟨fun q hq => ?_, h'⟩
      rcases List.mem_cons.mp hq with rfl | hq
      · exact hk
      · exact hkeys q hq

end Latched

/-- Behind any sequence of inserts, a key can be used in all three implementations exactly when
it and all the inserted keys are smaller than the largest one. -/
theorem usable_iff (c : Capacity) (memory₁ memory₂ memory₃ : Nat → Memory)
    (pairs : List (Nat × Value)) (k : Nat) (v : Value) :
    ((Latched.implementation c).UsableAfter (Tree.empty memory₁) pairs k v ∧
      (Optimistic.implementation c).UsableAfter (VersionedTree.empty memory₂) pairs k v ∧
      (Tbb.implementation c).UsableAfter (Tree.empty memory₃) pairs k v) ↔
    (∀ p ∈ pairs, p.1 < maxKey) ∧ k < maxKey := by
  constructor
  · rintro ⟨⟨fuel, t, hafter, husable⟩, _⟩
    have hempty : ∃ g : Ghost Nat, Inv c (Tree.empty memory₁) g := ⟨_, inv_empty c memory₁⟩
    rcases Latched.after_inserts hempty hafter with ⟨hkeys, g, hinv⟩
    refine ⟨hkeys, ?_⟩
    by_contra hnot
    exact husable.insert_notNull (Latched.null_of_le hinv (not_lt.mp hnot))
  · rintro ⟨hkeys, hk⟩
    have hstep := inStep_empty c memory₁ memory₂ memory₃
    have hstrict₂ : ∃ g : Ghost Nat, Strict c (VersionedTree.empty memory₂).tree g none :=
      ⟨_, strict_empty c memory₂⟩
    exact ⟨(Latched.follows c).usableAfter hstep.strict hkeys hk v,
      (Optimistic.follows c).usableAfter ⟨hstrict₂, hstep.free⟩ hkeys hk v,
      (Tbb.follows c).usableAfter ⟨_, strict_empty c memory₃⟩ hkeys hk v⟩

/-- In the fresh tree the latched insert of the largest key follows a null pointer, and the
task that is to insert it ends without a trace. -/
theorem largest_key_unusable :
    (Latched.implementation .smallest).null (Tree.empty fun _ => .zero) (.insert maxKey 7) ∧
    (Tbb.implementation .smallest).null (Tree.empty fun _ => .zero) (.insert maxKey 7) ∧
    ¬ (Latched.implementation .smallest).UsableAfter (Tree.empty fun _ => .zero) [] maxKey 7 ∧
    ¬ (Tbb.implementation .smallest).UsableAfter (Tree.empty fun _ => .zero) [] maxKey 7 := by
  have hlatched : (Latched.implementation .smallest).null (Tree.empty fun _ => .zero)
      (.insert maxKey 7) := ⟨_, .head rfl rfl (.head rfl rfl .refl)⟩
  have htbb : (Tbb.implementation .smallest).null (Tree.empty fun _ => .zero)
      (.insert maxKey 7) := ⟨_, .head rfl rfl .refl⟩
  refine ⟨hlatched, htbb, ?_, ?_⟩
  · rintro ⟨_, t, hafter, husable⟩
    obtain rfl : Tree.empty (fun _ => .zero) = t := Option.some.inj hafter
    exact husable.insert_notNull hlatched
  · rintro ⟨_, t, hafter, husable⟩
    obtain rfl : Tree.empty (fun _ => .zero) = t := Option.some.inj hafter
    exact husable.insert_notNull htbb

end BLinkTree
