import BLinkTree.Lib.OrderedRuns
import BLinkTree.Lib.Slots

/-! # The sets of a consolidation

`BloomFilter` of `bloom_filter.h` and `SortedSmallSet` of `sorted_small_set.h`. The filter answers
exactly, since it looks through its array when the bits do not exclude a value; a value whose bit
is missing was never inserted.
-/

namespace BwTree

open Slots

variable {κ α : Type}

/-! ## `BloomFilter` -/

/-- The byte that a hash value selects. -/
def byteOffset (hash : BitVec 64) : Nat := ((hash &&& 0xF8#64) >>> 3).toNat

/-- The bit that a hash value selects. -/
def bitOffset (hash : BitVec 64) : BitVec 8 := 0x1#8 <<< (hash &&& 0x7#64).toNat

/-- The bits of all values are set. -/
structure BloomFilter (valueHash : κ → BitVec 64) where
  bitArray : Nat → BitVec 8
  data : List κ
  marked : ∀ x ∈ data, bitArray (byteOffset (valueHash x)) &&& bitOffset (valueHash x) ≠ 0

theorem bitOffset_ne_zero (hash : BitVec 64) : bitOffset hash ≠ 0 := by
  have hlt : (hash &&& 0x7#64).toNat < 8 := by
    rw [BitVec.toNat_and]
    exact lt_of_le_of_lt Nat.and_le_right (by decide)
  unfold bitOffset
  generalize (hash &&& 0x7#64).toNat = i at hlt
  revert i
  decide

theorem or_and_ne_zero {x y z : BitVec 8} (h : x &&& z ≠ 0) : (x ||| y) &&& z ≠ 0 := by
  intro heq
  apply h
  have hsub : x &&& z = ((x ||| y) &&& z) &&& (x &&& z) := by
    ext i hi
    simp only [BitVec.getElem_and, BitVec.getElem_or]
    cases x[i] <;> cases y[i] <;> cases z[i] <;> rfl
  rw [hsub, heq]
  exact BitVec.zero_and

namespace BloomFilter

variable {valueHash : κ → BitVec 64} {f : BloomFilter valueHash} {x y : κ}

def create (valueHash : κ → BitVec 64) : BloomFilter valueHash where
  bitArray _ := 0
  data := []
  marked := by simp

def insert (f : BloomFilter valueHash) (x : κ) : BloomFilter valueHash where
  bitArray := store f.bitArray (byteOffset (valueHash x))
    (f.bitArray (byteOffset (valueHash x)) ||| bitOffset (valueHash x))
  data := f.data ++ [x]
  marked := by
    intro y hy
    rcases List.mem_append.mp hy with hy | hy
    · by_cases hb : byteOffset (valueHash y) = byteOffset (valueHash x)
      · rw [hb, store_self]
        exact or_and_ne_zero (hb ▸ f.marked y hy)
      · rw [store_of_ne _ _ hb]
        exact f.marked y hy
    · obtain rfl := List.mem_singleton.mp hy
      rw [store_self, BitVec.or_comm]
      refine or_and_ne_zero ?_
      rw [BitVec.and_self]
      exact bitOffset_ne_zero _

def exists' [DecidableEq κ] (f : BloomFilter valueHash) (x : κ) : Bool :=
  if f.bitArray (byteOffset (valueHash x)) &&& bitOffset (valueHash x) = 0 then false
  else f.data.any fun y => decide (x = y)

/-- The filter never says that a value is missing which was inserted, nor the other way round. -/
theorem exists_iff [DecidableEq κ] : f.exists' x = true ↔ x ∈ f.data := by
  unfold exists'
  split
  next h =>
    refine ⟨fun h => absurd h (by simp), fun hx => absurd h (f.marked x hx)⟩
  · simp

@[simp] theorem mem_insert : y ∈ (f.insert x).data ↔ y ∈ f.data ∨ y = x := by
  simp [insert]

@[simp] theorem mem_create : y ∉ (create valueHash).data := by simp [create]

end BloomFilter

/-! ## `SortedSmallSet` -/

/-- `InsertNoDedup`: in front of the first value that is larger. -/
def insertNoDedup (cmp : α → α → Bool) (x : α) (sss : List α) : List α :=
  sss.takeWhile (fun y => !cmp x y) ++ x :: sss.dropWhile fun y => !cmp x y

theorem mem_insertNoDedup {cmp : α → α → Bool} {x y : α} {sss : List α} :
    y ∈ insertNoDedup cmp x sss ↔ y = x ∨ y ∈ sss := by
  unfold insertNoDedup
  conv_rhs => rw [← List.takeWhile_append_dropWhile (p := fun y => !cmp x y) (l := sss)]
  simp only [List.mem_append, List.mem_cons]
  tauto

/-- A value with a new key keeps the set ordered. -/
theorem ordered_insertNoDedup [LinearOrder κ] {key : α → κ} {cmp : α → α → Bool} {x : α}
    {sss : List α} (h : sss.Pairwise fun a b => key a < key b) (hx : ∀ y ∈ sss, key y ≠ key x)
    (hcmp : ∀ y ∈ sss, cmp x y = decide (key x < key y)) :
    (insertNoDedup cmp x sss).Pairwise fun a b => key a < key b := by
  induction sss with
  | nil => exact List.pairwise_singleton _ _
  | cons a sss ih =>
      obtain ⟨ha, hs⟩ := List.pairwise_cons.mp h
      have hca := hcmp a (List.mem_cons_self ..)
      by_cases hlt : key x < key a
      · have hinsert : insertNoDedup cmp x (a :: sss) = x :: a :: sss := by
          simp [insertNoDedup, hca, hlt]
        rw [hinsert]
        refine List.pairwise_cons.mpr ⟨?_, h⟩
        intro y hy
        rcases List.mem_cons.mp hy with rfl | hy
        · exact hlt
        · exact hlt.trans (ha y hy)
      · have hinsert : insertNoDedup cmp x (a :: sss) = a :: insertNoDedup cmp x sss := by
          simp [insertNoDedup, hca, hlt]
        rw [hinsert]
        refine List.pairwise_cons.mpr ⟨?_, ih hs (fun y hy => hx y (List.mem_cons_of_mem _ hy))
          fun y hy => hcmp y (List.mem_cons_of_mem _ hy)⟩
        intro y hy
        rcases mem_insertNoDedup.mp hy with rfl | hy
        · exact lt_of_le_of_ne (not_lt.mp hlt) (hx a (List.mem_cons_self ..))
        · exact ha y hy

end BwTree
