import BLinkTree.Latched.Serial
import BLinkTree.Optimistic.Sequential

/-! # The optimistic tree, one call at a time

All latches are free, every version that a call compares is the current one, and no node
is the right sibling of the node above it. So the call pushes every inner node it leaves,
and the propagation does what it does in the latched tree.
-/

namespace BLinkTree.Optimistic

open Linearization Interleaving VersionLock

variable {c : Capacity} {s : VersionedTree} {t' : Tree} {o : Op}

abbrev Goes (c : Capacity) : VersionedTree → Pc → VersionedTree → Pc → Prop :=
  Walks (next c) Pc.result .go

/-- All latches are free. -/
def Free (s : VersionedTree) : Prop := ∀ m, isLocked (s.version m) = false

/-- Node `n` acquired, the tree changed, node `n` released. -/
def rewritten (s : VersionedTree) (n : Nat) (t : Tree) : VersionedTree :=
  VersionedTree.unlock { s.unlock n with tree := t } n

theorem Free.rewritten (h : Free s) (n : Nat) (t : Tree) : Free (rewritten s n t) := by
  intro m
  by_cases hm : m = n
  · subst hm
    have hlocked := isLocked_add_two (h m)
    simpa [Optimistic.rewritten, VersionedTree.unlock] using isLocked_add_two_of_locked hlocked
  · simpa [Optimistic.rewritten, VersionedTree.unlock, Slots.store_of_ne _ _ hm] using h m

theorem Free.lock (h : Free s) (n : Nat) : s.lock n = some (s.unlock n) := by
  simp [VersionedTree.lock, h n, VersionedTree.unlock]

/-! ## Down -/

theorem goes_descent (hfree : Free s) {n m : Nat} {path path' : List Nat}
    (h : Descent s.tree o.key n path m path') :
    Goes c s (.locate o (Latched.kept o path) n) s (.leaf o (Latched.kept o path') m) := by
  induction h with
  | @leaf n path _ hl _ =>
      have h1 : next c s (.locate o (Latched.kept o path) n) .go =
          some (s, .inner o (Latched.kept o path) n (s.version n), none) := by
        simp [next, readValid_free (hfree n)]
      have h2 : next c s (.inner o (Latched.kept o path) n (s.version n)) .go =
          some (s, .leaf o (Latched.kept o path) n, none) := by simp [next, hl]
      exact .head rfl h1 (.head rfl h2 .refl)
  | @inner n y m path path' _ hl _ hy hne _ ih =>
      have h1 : next c s (.locate o (Latched.kept o path) n) .go =
          some (s, .inner o (Latched.kept o path) n (s.version n), none) := by
        simp [next, readValid_free (hfree n)]
      have h2 : next c s (.inner o (Latched.kept o path) n (s.version n)) .go =
          some (s, .child o (Latched.kept o path) n (s.version n) (s.tree.node n).rightSibling,
            none) := by
        simp [next, hl]
      have h3 : next c s (.child o (Latched.kept o path) n (s.version n)
          (s.tree.node n).rightSibling) .go =
          some (s, .childRead o (Latched.kept o path) n (s.version n)
            (s.tree.node n).rightSibling (some y), none) := by
        simp [next, hy]
      have h4 : next c s (.childRead o (Latched.kept o path) n (s.version n)
          (s.tree.node n).rightSibling (some y)) .go =
          some (s, .locate o (Latched.kept o (n :: path)) y, none) := by
        have hpush : push o (Latched.kept o path) n (s.tree.node n).rightSibling (some y) =
            Latched.kept o (n :: path) := by
          rw [push, if_neg (Ne.symm hne), Latched.push_kept]
        simp [next, isValid_self, follow, hpush]
      exact .head rfl h1 (.head rfl h2 (.head rfl h3 (.head rfl h4 ih)))

/-- `locate_leaf` and the loop over the leaves. -/
theorem goes_start (hfree : Free s) {m : Nat} {path : List Nat}
    (h : Descent s.tree o.key s.tree.root [] m path) :
    Goes c s (.start o) s (leaveLeaf o (Latched.kept o path) m (s.version m)) := by
  have hnil : Latched.kept o [] = [] := by cases o <;> rfl
  have hdown := goes_descent (c := c) hfree h
  rw [hnil] at hdown
  have hloop : Goes c s (.leaf o (Latched.kept o path) m) s
      (leaveLeaf o (Latched.kept o path) m (s.version m)) := by
    have h1 : next c s (.leaf o (Latched.kept o path) m) .go =
        some (s, enterLeaf o (Latched.kept o path) m (s.version m), none) := by
      simp [next, readValid_free (hfree m)]
    have h2 : next c s (.move o (Latched.kept o path) m (s.version m)) .go =
        some (s, leaveLeaf o (Latched.kept o path) m (s.version m), none) := by
      simp [next, not_le.mpr h.key_lt]
    refine .head rfl h1 ?_
    cases o with
    | insert k v =>
        have h3 : next c s (.check (.insert k v) path m (s.version m)) .go =
            some (s, .move (.insert k v) path m (s.version m), none) := by
          simp [next, isValid_self]
        exact .head rfl h3 (.head rfl h2 .refl)
    | update k v => exact .head rfl h2 .refl
    | find k => exact .head rfl h2 .refl
  exact .head rfl rfl (hdown.trans hloop)

/-! ## Up -/

theorem goes_ascent {t : Tree} {k m : Nat} {path : List Nat} {up : Option (Nat × Nat)}
    (h : Ascent c k t m path up t') (hfree : Free s) (ht : s.tree = t) :
    ∃ s', Goes c s (resume (Latched.propagate o path up)) s' (.done o 0) ∧ s'.tree = t' ∧
      Free s' := by
  induction h generalizing s with
  | stop => exact ⟨s, .refl, ht, hfree⟩
  | @newRoot t s' x _ _ =>
      refine ⟨{ s with tree := s.tree.createNewRoot s.tree.root x s' }, .head rfl rfl .refl, ?_,
        hfree⟩
      rw [ht]
  | @parent t t₁ t' m p q x path up _ _ _ hq _ _ _ _ hins _ ih =>
      rw [← ht] at hq hins
      have h1 : next c s (.parent o path p q x) .go =
          some (s.unlock p, .parentHigh o path p q x, none) := by
        simp [next, hfree.lock p]
      have h2 : next c (s.unlock p) (.parentHigh o path p q x) .go =
          some (s.unlock p, .parentInsert o path p q x, none) := by
        simp [next, VersionedTree.unlock, not_le.mpr hq]
      have h3 : next c (s.unlock p) (.parentInsert o path p q x) .go =
          some ({ s.unlock p with tree := t₁ }, .release p (Latched.propagate o path up),
            none) := by
        have hins' : (s.unlock p).tree.insertIntoInner c p q x = some (t₁, up) := hins
        simp [next, hins']
      have h4 : next c { s.unlock p with tree := t₁ } (.release p (Latched.propagate o path up))
          .go = some (rewritten s p t₁, resume (Latched.propagate o path up), none) := rfl
      rcases ih (hfree.rewritten p t₁) rfl with ⟨s', hgoes, hs'⟩
      exact ⟨s', .head rfl h1 (.head rfl h2 (.head rfl h3 (.head rfl h4 hgoes))), hs'⟩

/-- A call that runs alone is one operation on the tree. -/
theorem call_of_serial (hfree : Free s) {r : Value} (h : Serial c s.tree o t' r) :
    ∃ fuel s', call c fuel s o = some (s', r) ∧ s'.tree = t' ∧ Free s' := by
  cases h with
  | @insert k n v path _ hd hasc =>
      have hstart : Goes c s (.start (.insert k v)) s (.acquire (.insert k v) path n) :=
        goes_start hfree hd
      have h1 : next c s (.acquire (.insert k v) path n) .go =
          some (s.unlock n, .mutate (.insert k v) path n, none) := by
        simp [next, hfree.lock n]
      rcases goes_ascent (o := .insert k v) hasc (hfree.rewritten n _) rfl with
        ⟨s', hgoes, hs', hfree'⟩
      have hmutate : Goes c (s.unlock n) (.mutate (.insert k v) path n) s'
          (.done (.insert k v) 0) := .head rfl rfl (.head rfl rfl hgoes)
      rcases (hstart.trans (.head rfl h1 hmutate)).solo rfl with ⟨fuel, hc⟩
      exact ⟨fuel, s', hc, hs', hfree'⟩
  | @update k n v path hd =>
      have hstart : Goes c s (.start (.update k v)) s
          (.leave (.update k v) path n (s.version n)) := goes_start hfree hd
      have h1 : next c s (.leave (.update k v) path n (s.version n)) .go =
          some (s, .acquire (.update k v) path n, none) := by simp [next, isValid_self]
      have h2 : next c s (.acquire (.update k v) path n) .go =
          some (s.unlock n, .mutate (.update k v) path n, none) := by
        simp [next, hfree.lock n]
      have hmutate : Goes c (s.unlock n) (.mutate (.update k v) path n)
          (rewritten s n (s.tree.setNode n ((s.tree.node n).updateValue c k v)))
          (.done (.update k v) 0) := .head rfl rfl (.head rfl rfl .refl)
      rcases (hstart.trans (.head rfl h1 (.head rfl h2 hmutate))).solo rfl with ⟨fuel, hc⟩
      exact ⟨fuel, _, hc, rfl, hfree.rewritten n _⟩
  | @find k n path hd =>
      have hstart : Goes c s (.start (.find k)) s (.search (.find k) [] n (s.version n)) :=
        goes_start hfree hd
      have h1 : next c s (.found (.find k) [] n (s.version n)
          (if (s.tree.node n).leafKey c ((s.tree.node n).index k) = k then
            (s.tree.node n).values ((s.tree.node n).index k) else 0)) .go =
          some (s, .done (.find k) ((s.tree.node n).findValue c k),
            some (.effect (.find k) ((s.tree.node n).findValue c k))) := by
        simp only [next, isValid_self, if_true]
        rfl
      have hread : Goes c s (.search (.find k) [] n (s.version n)) s
          (.done (.find k) ((s.tree.node n).findValue c k)) :=
        .head rfl rfl (.head rfl rfl (.head rfl rfl (.head rfl h1 .refl)))
      rcases (hstart.trans hread).solo rfl with ⟨fuel, hc⟩
      exact ⟨fuel, s, hc, rfl, hfree⟩

end BLinkTree.Optimistic
