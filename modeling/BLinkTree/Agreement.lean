import BLinkTree.Alike
import BLinkTree.Optimistic.Serial
import BLinkTree.Tbb.Serial
import Mathlib.Data.Set.Function

/-! # The three implementations build the same tree

Every implementation that runs one operation after the other does what the serial
operation does, so the three trees grow in step. They differ in the dead slots only, since
each has memory of its own.
-/

namespace BLinkTree

/-- The nodes of `t` correspond to those of `t'`. -/
structure Isomorphism (f : Nat → Nat) (t t' : Tree) : Prop where
  bijOn : Set.BijOn f {n | n < t.count} {n | n < t'.count}
  root : t'.root = f t.root
  height : t'.height = t.height
  parent : ∀ n < t.count, t'.parent (f n) = (t.parent n).map f
  isLeaf : ∀ n < t.count, (t'.node (f n)).isLeaf = (t.node n).isLeaf
  highKey : ∀ n < t.count, (t'.node (f n)).highKey = (t.node n).highKey
  rightSibling : ∀ n < t.count, (t'.node (f n)).rightSibling = (t.node n).rightSibling.map f
  children : ∀ n < t.count, (t'.node (f n)).children = (t.node n).children.map (Option.map f)
  liveKeys : ∀ n < t.count, (t'.node (f n)).liveKeys = (t.node n).liveKeys
  entries : ∀ n < t.count, (t'.node (f n)).entries = (t.node n).entries

/-- Same shape, same links and same live slots. -/
def Isomorphic (t t' : Tree) : Prop := ∃ f, Isomorphism f t t'

theorem Node.Alike.liveKeys {n m : Node} (h : n.Alike m) : m.liveKeys = n.liveKeys := by
  unfold Node.liveKeys
  rw [h.size]
  exact List.map_congr_left fun i hi => h.keys i (List.mem_range.mp hi)

theorem Node.Alike.entries {n m : Node} (h : n.Alike m) : m.entries = n.entries := by
  cases hl : n.isLeaf with
  | true =>
      rw [Node.entries_of_leaf hl, Node.entries_of_leaf (h.isLeaf.trans hl), h.size]
      exact Slots.pairs_congr h.keys (h.values hl)
  | false => simp [Node.entries, h.isLeaf, hl]

/-- Nodes created at the same time correspond. -/
theorem Tree.Alike.isomorphic {t t' : Tree} (h : t.Alike t') : Isomorphic t t' := by
  refine ⟨id, ?_, h.root, h.height, ?_, ?_, ?_, ?_, ?_, ?_, ?_⟩
  · rw [h.count]
    exact Set.bijOn_id _
  · intro n hn
    rw [Option.map_id]
    exact h.parent n hn
  · exact fun n hn => (h.node n hn).isLeaf
  · exact fun n hn => (h.node n hn).highKey
  · intro n hn
    rw [Option.map_id]
    exact (h.node n hn).rightSibling
  · intro n hn
    rw [Option.map_id, List.map_id]
    exact (h.node n hn).children
  · exact fun n hn => (h.node n hn).liveKeys
  · exact fun n hn => (h.node n hn).entries

/-! ## Three trees in step -/

/-- Calls one after the other; the state behind the last one. -/
def after {σ : Type} (call : Nat → σ → Op → Option (σ × Value)) (fuel : Nat) :
    σ → List Op → Option σ
  | s, [] => some s
  | s, o :: ops => (call fuel s o).bind fun x => after call fuel x.1 ops

section After

variable {σ : Type} {call : Nat → σ → Op → Option (σ × Value)}
  (hmono : ∀ fuel fuel' s o x, call fuel s o = some x → fuel ≤ fuel' → call fuel' s o = some x)
  {fuel fuel' : Nat} {s s' : σ} {o : Op} {ops : List Op} {x : σ × Value}

include hmono in
theorem after_mono (hf : fuel ≤ fuel') (h : after call fuel s ops = some s') :
    after call fuel' s ops = some s' := by
  induction ops generalizing s with
  | nil => exact h
  | cons o ops ih =>
      rcases Option.bind_eq_some_iff.mp h with ⟨x, h1, h2⟩
      exact Option.bind_eq_some_iff.mpr ⟨x, hmono _ _ _ _ _ h1 hf, ih h2⟩

include hmono in
theorem after_cons (hc : call fuel s o = some x) (h : after call fuel' x.1 ops = some s') :
    after call (max fuel fuel') s (o :: ops) = some s' := by
  refine Option.bind_eq_some_iff.mpr ⟨x, ?_, ?_⟩
  · exact hmono _ _ _ _ _ hc (le_max_left ..)
  · exact after_mono hmono (le_max_right ..) h

end After

variable {c : Capacity} {t t₁ t₃ : Tree} {s₂ : VersionedTree}

/-- The trees of the latched, the optimistic and the TBB implementation between two calls. -/
structure InStep (c : Capacity) (t₁ : Tree) (s₂ : VersionedTree) (t₃ : Tree) : Prop where
  strict : ∃ g : Ghost Nat, Strict c t₁ g none
  free : Optimistic.Free s₂
  optimistic : t₁.Alike s₂.tree
  tbb : t₁.Alike t₃

/-- One call in each of them. -/
theorem InStep.call (h : InStep c t₁ s₂ t₃) {o : Op} (hk : o.key < maxKey)
    (hp : Present (fun k => OrderedMap.get? k t₁.content) o) :
    ∃ t₁' s₂' t₃' r fuel, Latched.call c fuel t₁ o = some (t₁', r) ∧
      Optimistic.call c fuel s₂ o = some (s₂', r) ∧ Tbb.call c fuel t₃ o = some (t₃', r) ∧
      InStep c t₁' s₂' t₃' ∧ t₁'.content = finiteMap.apply t₁.content o ∧
      finiteMap.allows t₁.content o r := by
  rcases h.strict with ⟨g, hs⟩
  rcases hs.serial o hk with ⟨t₁', r, g', hserial, hs'⟩
  rcases hserial.alike h.optimistic hs.inv hp with ⟨t₂', hserial₂, ha₂⟩
  rcases hserial.alike h.tbb hs.inv hp with ⟨t₃', hserial₃, ha₃⟩
  rcases Latched.call_of_serial hserial with ⟨f₁, h₁⟩
  rcases Optimistic.call_of_serial h.free hserial₂ with ⟨f₂, s₂', h₂, rfl, hfree⟩
  rcases Tbb.call_of_serial hserial₃ with ⟨f₃, h₃⟩
  rcases hs.serial_content hk hserial with ⟨hcontent, hallows⟩
  refine ⟨t₁', s₂', t₃', r, max f₁ (max f₂ f₃), ?_, ?_, ?_, ⟨⟨g', hs'⟩, hfree, ha₂, ha₃⟩,
    hcontent, hallows⟩
  · exact Interleaving.solo_mono h₁ (by omega)
  · exact Interleaving.solo_mono h₂ (by omega)
  · exact Interleaving.solo_mono h₃ (by omega)

/-- Inserts, and updates of keys that are there, with keys below the largest one. -/
def Writes (m : Nat → Option Value) : List Op → Prop
  | [] => True
  | .insert k v :: ops => k < maxKey ∧ Writes (Op.apply m (.insert k v)) ops
  | .update k v :: ops => k < maxKey ∧ (m k).isSome ∧ Writes (Op.apply m (.update k v)) ops
  | .find _ :: _ => False

theorem Writes.head {m : Nat → Option Value} {o : Op} {ops : List Op} (h : Writes m (o :: ops)) :
    o.key < maxKey ∧ Present m o ∧ Writes (o.apply m) ops := by
  cases o with
  | insert k v => exact ⟨h.1, trivial, h.2⟩
  | update k v => exact h
  | find k => exact h.elim

/-- The map behind a sequence of calls. -/
def mapAfter (m : Nat → Option Value) (ops : List Op) : Nat → Option Value :=
  ops.foldl (fun m o => o.apply m) m

theorem InStep.after (h : InStep c t₁ s₂ t₃) {ops : List Op}
    (hw : Writes (fun k => OrderedMap.get? k t₁.content) ops) :
    ∃ t₁' s₂' t₃' fuel, after (Latched.call c) fuel t₁ ops = some t₁' ∧
      after (Optimistic.call c) fuel s₂ ops = some s₂' ∧
      after (Tbb.call c) fuel t₃ ops = some t₃' ∧ InStep c t₁' s₂' t₃' ∧
      (fun k => OrderedMap.get? k t₁'.content) =
        mapAfter (fun k => OrderedMap.get? k t₁.content) ops := by
  induction ops generalizing t₁ s₂ t₃ with
  | nil => exact ⟨t₁, s₂, t₃, 0, rfl, rfl, rfl, h, rfl⟩
  | cons o ops ih =>
      rcases hw.head with ⟨hk, hp, hrest⟩
      rcases h.call hk hp with ⟨u₁, u₂, u₃, r, f, h₁, h₂, h₃, hstep, hcontent, _⟩
      have hm := get?_apply t₁.content o
      rw [← hcontent] at hm
      rw [← hm] at hrest
      rcases ih hstep hrest with ⟨t₁', s₂', t₃', f', k₁, k₂, k₃, hstep', hm'⟩
      refine ⟨t₁', s₂', t₃', max f f', ?_, ?_, ?_, hstep', ?_⟩
      · exact after_cons (Latched.serves c).mono h₁ k₁
      · exact after_cons (Optimistic.serves c).mono h₂ k₂
      · exact after_cons (Tbb.serves c).mono h₃ k₃
      · rw [hm', hm]
        rfl

theorem inStep_empty (c : Capacity) (memory₁ memory₂ memory₃ : Nat → Memory) :
    InStep c (Tree.empty memory₁) (VersionedTree.empty memory₂) (Tree.empty memory₃) where
  strict := ⟨Ghost.initial Nat, strict_empty c memory₁⟩
  free := fun _ => show VersionLock.isLocked 4 = false by decide
  optimistic := Tree.alike_empty memory₁ memory₂
  tbb := Tree.alike_empty memory₁ memory₃

/-- The three implementations return from every sequence of inserts and of updates of present
keys, in whatever memory, with isomorphic trees; and `find` of a present key returns its value
in all of them. -/
theorem implementations_agree (c : Capacity) (memory₁ memory₂ memory₃ : Nat → Memory)
    (ops : List Op) (hw : Writes (fun _ => none) ops) :
    ∃ t₁ s₂ t₃ fuel, (∀ fuel' ≥ fuel,
        after (Latched.call c) fuel' (Tree.empty memory₁) ops = some t₁ ∧
        after (Optimistic.call c) fuel' (VersionedTree.empty memory₂) ops = some s₂ ∧
        after (Tbb.call c) fuel' (Tree.empty memory₃) ops = some t₃) ∧
      Isomorphic t₁ s₂.tree ∧ Isomorphic t₁ t₃ ∧
      ∀ k v, mapAfter (fun _ => none) ops k = some v → ∃ fuel, ∀ fuel' ≥ fuel,
        (Latched.call c fuel' t₁ (.find k)).map Prod.snd = some v ∧
        (Optimistic.call c fuel' s₂ (.find k)).map Prod.snd = some v ∧
        (Tbb.call c fuel' t₃ (.find k)).map Prod.snd = some v := by
  have hstart := inStep_empty c memory₁ memory₂ memory₃
  have hnone : (fun k => OrderedMap.get? k (Tree.empty memory₁).content) = fun _ => none := by
    rw [content_empty]
    rfl
  rw [← hnone] at hw
  rcases hstart.after hw with ⟨t₁, s₂, t₃, fuel, h₁, h₂, h₃, hstep, hm⟩
  rw [hnone] at hm
  refine ⟨t₁, s₂, t₃, fuel, fun fuel' hf => ?_, hstep.optimistic.isomorphic,
    hstep.tbb.isomorphic, fun k v hv => ?_⟩
  · exact ⟨after_mono (Latched.serves c).mono hf h₁, after_mono (Optimistic.serves c).mono hf h₂,
      after_mono (Tbb.serves c).mono hf h₃⟩
  · have hget : OrderedMap.get? k t₁.content = some v := by
      rw [← hv, ← hm]
    rcases hstep.strict with ⟨g, hs⟩
    have hk := hs.inv.lt_maxKey_of_get? hget
    rcases hstep.call (o := .find k) hk (by simp [Present, hget]) with
      ⟨u₁, u₂, u₃, r, f, k₁, k₂, k₃, _, _, hr⟩
    obtain rfl : r = v := hr v hget
    refine ⟨f, fun fuel' hf => ?_⟩
    have k₁' := Interleaving.solo_mono k₁ hf
    have k₂' := Interleaving.solo_mono k₂ hf
    have k₃' := Interleaving.solo_mono k₃ hf
    exact ⟨congrArg (Option.map Prod.snd) k₁', congrArg (Option.map Prod.snd) k₂',
      congrArg (Option.map Prod.snd) k₃'⟩

theorem implementations_agree_two_levels :
    ∃ t₁ s₂ t₃ fuel, (∀ fuel' ≥ fuel,
        after (Latched.call .smallest) fuel' (Tree.empty fun _ => .zero)
          [.insert 5 50, .insert 3 30, .insert 9 90, .update 3 31] = some t₁ ∧
        after (Optimistic.call .smallest) fuel' (VersionedTree.empty fun _ => .zero)
          [.insert 5 50, .insert 3 30, .insert 9 90, .update 3 31] = some s₂ ∧
        after (Tbb.call .smallest) fuel' (Tree.empty fun _ => .zero)
          [.insert 5 50, .insert 3 30, .insert 9 90, .update 3 31] = some t₃) ∧
      Isomorphic t₁ s₂.tree ∧ Isomorphic t₁ t₃ ∧
      ∀ k v, mapAfter (fun _ => none)
          [.insert 5 50, .insert 3 30, .insert 9 90, .update 3 31] k = some v →
        ∃ fuel, ∀ fuel' ≥ fuel,
          (Latched.call .smallest fuel' t₁ (.find k)).map Prod.snd = some v ∧
          (Optimistic.call .smallest fuel' s₂ (.find k)).map Prod.snd = some v ∧
          (Tbb.call .smallest fuel' t₃ (.find k)).map Prod.snd = some v :=
  implementations_agree .smallest (fun _ => .zero) (fun _ => .zero) (fun _ => .zero) _
    (by simp [Writes, Op.apply, maxKey])

end BLinkTree
