import BLinkTree.Lib.Slots
import Mathlib.Data.Finset.Card

/-! # Upgradable locks in one word

A lock for every index, kept in a word: the lowest bits say that the lock is taken for
writing or upgraded, the others count the readers. Nobody waits for the readers. The
counter may run over; this does not touch the two bits.
-/

namespace UpgradeLock

open Slots

variable {ι : Type} {bits : Nat → BitVec 32} {holder : Nat → Option ι} {n : Nat} {i : ι}

def reader : BitVec 32 := 4

def upgraded : BitVec 32 := 2

def writer : BitVec 32 := 1

/-- The old value of a `fetch` operation shows neither a writer nor an upgrade. -/
def isFree (b : BitVec 32) : Bool := b &&& (writer ||| upgraded) == 0

/-- The two lowest bits. -/
def low (b : BitVec 32) : BitVec 2 := b.setWidth 2

theorem low_add_reader (b : BitVec 32) : low (b + reader) = low b := by
  have hreader : reader.setWidth 2 = 0#2 := by decide
  rw [low, BitVec.setWidth_add _ _ (by decide), hreader, BitVec.add_zero]
  rfl

theorem low_sub_reader (b : BitVec 32) : low (b - reader) = low b := by
  have hreader : (-reader).setWidth 2 = 0#2 := by decide
  rw [low, BitVec.sub_eq_add_neg, BitVec.setWidth_add _ _ (by decide), hreader, BitVec.add_zero]
  rfl

theorem low_or_upgraded (b : BitVec 32) : low (b ||| upgraded) = low b ||| 2 := by
  rw [low, BitVec.setWidth_or]
  rfl

theorem low_and_not (b : BitVec 32) : low (b &&& ~~~(writer ||| upgraded)) = 0 := by
  have hmask : (~~~(writer ||| upgraded)).setWidth 2 = 0#2 := by decide
  rw [low, BitVec.setWidth_and, hmask, BitVec.and_zero]
  rfl

theorem isFree_iff (b : BitVec 32) : isFree b = true ↔ low b = 0 := by
  have hmask : (b &&& (writer ||| upgraded)).toNat = b.toNat % 2 ^ 2 := by
    rw [BitVec.toNat_and, ← Nat.and_two_pow_sub_one_eq_mod]
    rfl
  have hlow : (low b).toNat = b.toNat % 2 ^ 2 := BitVec.toNat_setWidth 2 b
  rw [isFree, beq_iff_eq, ← BitVec.toNat_inj, ← BitVec.toNat_inj, hmask, hlow]
  rfl

/-- An upgraded lock has one holder, and nobody locks for writing otherwise. -/
def Held (bits : Nat → BitVec 32) (holder : Nat → Option ι) : Prop :=
  ∀ n, low (bits n) = if holder n = none then 0 else 2

theorem Held.holder_eq_none (h : Held bits holder) (hn : isFree (bits n) = true) : holder n = none := by
  have hlow := h n
  rw [(isFree_iff _).mp hn] at hlow
  by_contra hne
  rw [if_neg hne] at hlow
  exact absurd hlow (by decide)

/-- A change of one word that keeps its low bits. -/
theorem Held.of_low (h : Held bits holder) {b : BitVec 32} (hb : low b = low (bits n)) :
    Held (store bits n b) holder := by
  intro m
  by_cases hm : m = n
  · subst hm
    rw [store_self, hb]
    exact h m
  · rw [store_of_ne _ _ hm]
    exact h m

theorem Held.add_reader (h : Held bits holder) (n : Nat) :
    Held (store bits n (bits n + reader)) holder :=
  h.of_low (low_add_reader _)

theorem Held.sub_reader (h : Held bits holder) (n : Nat) :
    Held (store bits n (bits n - reader)) holder :=
  h.of_low (low_sub_reader _)

/-- An upgrade of a taken lock leaves the word as it is. -/
theorem Held.upgrade_taken (h : Held bits holder) (hn : isFree (bits n) = false) :
    Held (store bits n (bits n ||| upgraded)) holder := by
  apply h.of_low
  have hne : low (bits n) ≠ 0 := by
    rw [ne_eq, ← isFree_iff, hn]
    decide
  have hlow := h n
  rw [low_or_upgraded]
  split at hlow
  · exact absurd hlow hne
  · rw [hlow]
    rfl

theorem Held.upgrade (h : Held bits holder) (i : ι) (hn : isFree (bits n) = true) :
    Held (store bits n (bits n ||| upgraded)) (store holder n (some i)) := by
  intro m
  by_cases hm : m = n
  · subst hm
    rw [store_self, store_self, low_or_upgraded, (isFree_iff _).mp hn]
    simp
  · rw [store_of_ne _ _ hm, store_of_ne _ _ hm]
    exact h m

theorem Held.unlock (h : Held bits holder) (n : Nat) :
    Held (store bits n (bits n &&& ~~~(writer ||| upgraded))) (store holder n none) := by
  intro m
  by_cases hm : m = n
  · subst hm
    rw [store_self, store_self, low_and_not]
    simp
  · rw [store_of_ne _ _ hm, store_of_ne _ _ hm]
    exact h m

theorem Held.low_of_none (h : Held bits holder) (hn : holder n = none) : low (bits n) = 0 := by
  rw [h n, if_pos hn]

theorem held_zero : Held (fun _ => 0) fun _ => (none : Option ι) := by
  intro n
  rfl

/-! ## The number of readers -/

/-- The number of readers, which the higher bits count. -/
def readers (b : BitVec 32) : Nat := (b >>> 2).toNat

theorem readers_eq (b : BitVec 32) : readers b = b.toNat / 4 := by
  rw [readers, BitVec.toNat_ushiftRight, Nat.shiftRight_eq_div_pow]

theorem readers_add_reader (b : BitVec 32) :
    readers (b + reader) = (readers b + 1) % 2 ^ 30 := by
  have hreader : reader.toNat = 4 := by decide
  rw [readers_eq, readers_eq, BitVec.toNat_add, hreader]
  omega

theorem readers_sub_reader (b : BitVec 32) :
    readers (b - reader) = (readers b + (2 ^ 30 - 1)) % 2 ^ 30 := by
  have hreader : reader.toNat = 4 := by decide
  rw [readers_eq, readers_eq, BitVec.toNat_sub, hreader]
  omega

theorem readers_or_upgraded (b : BitVec 32) : readers (b ||| upgraded) = readers b := by
  have hmask : upgraded >>> 2 = 0#32 := by decide
  rw [readers, BitVec.ushiftRight_or_distrib, hmask, BitVec.or_zero]
  rfl

theorem readers_and_not (b : BitVec 32) :
    readers (b &&& ~~~(writer ||| upgraded)) = readers b := by
  have hmask : (~~~(writer ||| upgraded)) >>> 2 = BitVec.allOnes 32 >>> 2 := by decide
  rw [readers, BitVec.ushiftRight_and_distrib, hmask, ← BitVec.ushiftRight_and_distrib,
    BitVec.and_allOnes]
  rfl

/-- The word of a lock that nobody has. -/
theorem eq_zero_iff {b : BitVec 32} (hb : low b = 0) : b = 0 ↔ readers b = 0 := by
  have hlow : (low b).toNat = b.toNat % 2 ^ 2 := BitVec.toNat_setWidth 2 b
  rw [hb] at hlow
  have hzero : (0 : BitVec 2).toNat = 0 := rfl
  rw [← BitVec.toNat_inj, readers_eq]
  show b.toNat = 0 ↔ _
  omega

/-- The higher bits count the readers inside and those that were left behind. -/
def Counts (bits : Nat → BitVec 32) (left : Nat → Nat) (inside : Nat → Finset ι) : Prop :=
  ∀ n, readers (bits n) = (left n + (inside n).card) % 2 ^ 30

section Counts

variable {left left' : Nat → Nat} {inside inside' : Nat → Finset ι}

/-- A change of one word and of what is counted there. -/
theorem Counts.store (h : Counts bits left inside) {b : BitVec 32}
    (hleft : ∀ m, m ≠ n → left' m = left m) (hinside : ∀ m, m ≠ n → inside' m = inside m)
    (hb : readers b = (left' n + (inside' n).card) % 2 ^ 30) :
    Counts (store bits n b) left' inside' := by
  intro m
  by_cases hm : m = n
  · rw [hm, store_self]
    exact hb
  · rw [store_of_ne _ _ hm, hleft m hm, hinside m hm]
    exact h m

variable [DecidableEq ι]

theorem Counts.enter (h : Counts bits left inside) (hi : i ∉ inside n) :
    Counts (Slots.store bits n (bits n + reader)) left
      (Slots.store inside n (insert i (inside n))) := by
  refine h.store (fun _ _ => rfl) (fun m hm => store_of_ne _ _ hm) ?_
  rw [store_self, readers_add_reader, h n, Finset.card_insert_of_notMem hi]
  omega

theorem Counts.leave (h : Counts bits left inside) (hi : i ∈ inside n) :
    Counts (Slots.store bits n (bits n - reader)) left
      (Slots.store inside n ((inside n).erase i)) := by
  have hcard := Finset.card_erase_add_one hi
  refine h.store (fun _ _ => rfl) (fun m hm => store_of_ne _ _ hm) ?_
  rw [store_self, readers_sub_reader, h n]
  omega

/-- A reader that upgrades is not counted inside any more, but nobody takes it back. -/
theorem Counts.upgrade (h : Counts bits left inside) (hi : i ∈ inside n) :
    Counts (Slots.store bits n (bits n ||| upgraded)) (Slots.store left n (left n + 1))
      (Slots.store inside n ((inside n).erase i)) := by
  have hcard := Finset.card_erase_add_one hi
  refine h.store (fun m hm => store_of_ne _ _ hm) (fun m hm => store_of_ne _ _ hm) ?_
  rw [store_self, store_self, readers_or_upgraded, h n]
  omega

end Counts

end UpgradeLock
