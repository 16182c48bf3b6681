import BLinkTree.Latched.Sequential
import BLinkTree.Serial

/-! # The latched tree, one call at a time

A call that runs alone never moves right: the nodes it comes to cover its key, and the
nodes on its path cover the separators.
-/

namespace BLinkTree.Latched

open Linearization Interleaving

variable {c : Capacity} {t t' : Tree} {o : Op}

abbrev Goes (c : Capacity) : Tree → Pc → Tree → Pc → Prop := Walks (next c) Pc.result .go

/-- The path of a call. -/
def kept (o : Op) (path : List Nat) : List Nat :=
  match o with
  | .find _ => []
  | _ => path

theorem push_kept (o : Op) (path : List Nat) (n : Nat) :
    push o (kept o path) n = kept o (n :: path) := by
  cases o <;> rfl

theorem goes_descent {n m : Nat} {path path' : List Nat}
    (h : Descent t o.key n path m path') :
    Goes c t (enter t o (kept o path) (some n)) t (.leaf o (kept o path') m) := by
  induction h with
  | @leaf n path _ hl _ =>
      have he : enter t o (kept o path) (some n) = .leaf o (kept o path) n := by
        simp [enter, hl]
      rw [he]
      exact .refl
  | @inner n y m path path' _ hl hh hy _ _ ih =>
      have he : enter t o (kept o path) (some n) = .inner o (kept o path) n := by
        simp [enter, hl]
      have hs : next c t (.inner o (kept o path) n) .go =
          some (t, enter t o (kept o (n :: path)) (some y), none) := by
        simp [next, not_le.mpr hh, hy, push_kept]
      rw [he]
      exact .head rfl hs ih

/-- `locate_leaf`. -/
theorem goes_start {m : Nat} {path : List Nat} (h : Descent t o.key t.root [] m path) :
    Goes c t (.start o) t (.leaf o (kept o path) m) := by
  have hnil : kept o [] = [] := by cases o <;> rfl
  have hgoes := goes_descent (c := c) h
  rw [hnil] at hgoes
  exact .head rfl rfl hgoes

theorem goes_ascent {k m : Nat} {path : List Nat} {up : Option (Nat × Nat)}
    (h : Ascent c k t m path up t') : Goes c t (propagate o path up) t' (.done o 0) := by
  induction h with
  | stop => exact .refl
  | newRoot => exact .head rfl rfl .refl
  | @parent t t₁ t' m p s x path up _ _ _ hs _ _ _ _ he _ ih =>
      have hnext : next c t (.parent o path p s x) .go =
          some (t₁, propagate o path up, none) := by
        simp [next, not_le.mpr hs, he]
      exact .head rfl hnext ih

/-- A call that runs alone is one operation on the tree. -/
theorem call_of_serial {r : Value} (h : Serial c t o t' r) :
    ∃ fuel, call c fuel t o = some (t', r) := by
  cases h with
  | @insert k n v path _ hd hasc =>
      have hstart : Goes c t (.start (.insert k v)) t (.leaf (.insert k v) path n) := goes_start hd
      exact (hstart.trans (.head rfl (next_leaf hd.key_lt) (goes_ascent hasc))).solo rfl
  | @update k n v path hd =>
      have hstart : Goes c t (.start (.update k v)) t (.leaf (.update k v) path n) := goes_start hd
      exact (hstart.trans (.head rfl (next_leaf hd.key_lt) .refl)).solo rfl
  | @find k n path hd =>
      have hstart : Goes c t (.start (.find k)) t (.leaf (.find k) [] n) := goes_start hd
      exact (hstart.trans (.head rfl (next_leaf hd.key_lt) .refl)).solo rfl

end BLinkTree.Latched

namespace BLinkTree

/-- An operation on the tree is the operation of the map. -/
theorem Strict.serial_content {c : Capacity} {t t' : Tree} {g : Ghost Nat} {o : Op} {r : Value}
    (h : Strict c t g none) (hk : o.key < maxKey) (hs : Serial c t o t' r) :
    t'.content = finiteMap.apply t.content o ∧ finiteMap.allows t.content o r := by
  rcases Latched.call_of_serial hs with ⟨fuel, hc⟩
  rcases Latched.solo_spec h.inv (show Latched.Holds t g 0 (.start o) from hk) hc with
    ⟨_, _, hcontent, hallows⟩
  exact ⟨hcontent, hallows⟩

end BLinkTree
