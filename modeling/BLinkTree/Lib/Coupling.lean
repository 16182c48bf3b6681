import BLinkTree.Lib.VersionLock

/-! # Optimistic lock coupling

Pages with a version lock each. A thread that holds the lock of a page is the only one that
changes what can be seen of it. So whoever read a free version knows what it saw of the page as
long as the version stands, and keeps knowing it when it takes the lock from that version.
-/

namespace VersionLock

open Slots

/-- The locks of the pages that exist, and what there is to see of a page. -/
structure Pages (ι ω : Type) where
  version : Nat → Nat
  holder : Nat → Option ι
  live : Nat
  view : Nat → ω

variable {ι ω : Type} {t t' : Pages ι ω} {i j : ι} {n m v : Nat} {P Q : ω → Prop}

/-- The comparison of versions of `w` different words. -/
def agrees (w current v : Nat) : Bool := decide (current % w = v % w)

/-- `P` was true of the page in the free version `v`. -/
structure Knows (t : Pages ι ω) (n v : Nat) (P : ω → Prop) : Prop where
  lt : n < t.live
  snapshot : Snapshot t.version n v (P (t.view n))

/-- The thread has locked the page, and `P` is true of it. -/
structure Owns (t : Pages ι ω) (i : ι) (n : Nat) (P : ω → Prop) : Prop where
  lt : n < t.live
  holder : t.holder n = some i
  holds : P (t.view n)

/-- The thread has locked the pages of the list and no others. -/
def Locks (t : Pages ι ω) (i : ι) (ns : List Nat) : Prop := ∀ n, t.holder n = some i ↔ n ∈ ns

/-- What a step of thread `i` may do. -/
structure Interferes (i : ι) (t t' : Pages ι ω) : Prop where
  held : Held t'.version t'.holder
  live_le : t.live ≤ t'.live
  version_le : ∀ n < t.live, t.version n ≤ t'.version n
  view : ∀ n < t.live, t.holder n ≠ some i → t'.view n = t.view n
  holder : ∀ n j, j ≠ i → (t'.holder n = some j ↔ t.holder n = some j)

theorem Interferes.refl (i : ι) (h : Held t.version t.holder) : Interferes i t t :=
  ⟨h, le_rfl, fun _ _ => le_rfl, fun _ _ _ => rfl, fun _ _ _ => Iff.rfl⟩

/-- The lock of a page whose version stands is free. -/
theorem Held.holder_eq_none {version : Nat → Nat} {holder : Nat → Option ι}
    (h : Held version holder) (hv : isLocked (version n) = false) : holder n = none := by
  by_contra hne
  rw [(h n).mpr hne] at hv
  exact absurd hv (by simp)

theorem Knows.mono (h : Knows t n v P) (hPQ : P (t.view n) → Q (t.view n)) : Knows t n v Q :=
  ⟨h.lt, h.snapshot.mono fun _ => hPQ⟩

theorem Owns.mono (h : Owns t i n P) (hPQ : P (t.view n) → Q (t.view n)) : Owns t i n Q :=
  ⟨h.lt, h.holder, hPQ h.holds⟩

/-- What is seen of a free page is known. -/
theorem knows_of_view (hlt : n < t.live) (hfree : isLocked (t.version n) = false)
    (hP : P (t.view n)) : Knows t n (t.version n) P :=
  ⟨hlt, le_rfl, hfree, fun _ => hP⟩

/-- What is seen of a page after its version was read. -/
theorem Knows.look (h : Knows t n v P) (hQ : t.version n = v → P (t.view n) → Q (t.view n)) :
    Knows t n v Q :=
  ⟨h.lt, h.snapshot.mono hQ⟩

/-- A page of a version that stands is as the thread knows it. -/
theorem Knows.of_agrees {w : Nat} (h : Knows t n v P) (hv : agrees w (t.version n) v = true)
    (hw : t.version n < v + w) : t.version n = v ∧ P (t.view n) := by
  have hle := h.snapshot.le
  have heq : t.version n = v := by
    have hmod : (t.version n - v) % w = 0 := Nat.sub_mod_eq_zero_of_mod_eq (of_decide_eq_true hv)
    rw [Nat.mod_eq_of_lt (by omega)] at hmod
    omega
  exact ⟨heq, h.snapshot.valid heq⟩

theorem Knows.interferes (h : Knows t n v P) (hheld : Held t.version t.holder)
    (hs : Interferes i t t') : Knows t' n v P := by
  obtain ⟨hlt, hle, hfree, hvalid⟩ := h
  have hmove := hs.version_le n hlt
  refine ⟨lt_of_lt_of_le hlt hs.live_le, hle.trans hmove, hfree, fun he => ?_⟩
  have heq : t.version n = v := by omega
  rw [hs.view n hlt (by simp [hheld.holder_eq_none (n := n) (by rw [heq]; exact hfree)])]
  exact hvalid heq

theorem Owns.interferes (h : Owns t j n P) (hs : Interferes i t t') (hj : j ≠ i) :
    Owns t' j n P := by
  obtain ⟨hlt, hhold, hP⟩ := h
  refine ⟨lt_of_lt_of_le hlt hs.live_le, (hs.holder n j hj).mpr hhold, ?_⟩
  rw [hs.view n hlt fun hi => hj (Option.some.inj (hhold.symm.trans hi))]
  exact hP

theorem Locks.interferes {ns : List Nat} (h : Locks t j ns) (hs : Interferes i t t') (hj : j ≠ i) :
    Locks t' j ns :=
  fun n => (hs.holder n j hj).trans (h n)

/-! ## Taking and giving back a lock -/

def Pages.lock (t : Pages ι ω) (n : Nat) (i : ι) : Pages ι ω :=
  { t with version := store t.version n (t.version n + 2), holder := store t.holder n (some i) }

def Pages.unlock (t : Pages ι ω) (n : Nat) : Pages ι ω :=
  { t with version := store t.version n (t.version n + 2), holder := store t.holder n none }

theorem version_le_store (m : Nat) : t.version m ≤ store t.version n (t.version n + 2) m := by
  by_cases hm : m = n
  · rw [hm, store_self]
    exact Nat.le_add_right _ _
  · rw [store_of_ne _ _ hm]

theorem interferes_lock (h : Held t.version t.holder) (hn : isLocked (t.version n) = false) :
    Interferes i t (t.lock n i) := by
  refine ⟨h.acquire i hn, le_rfl, fun m _ => version_le_store m, fun _ _ _ => rfl,
    fun m j hj => ?_⟩
  show store t.holder n (some i) m = some j ↔ _
  by_cases hm : m = n
  · rw [hm, store_self, h.holder_eq_none hn]
    simp [Ne.symm hj]
  · rw [store_of_ne _ _ hm]

theorem interferes_unlock (h : Held t.version t.holder) (hn : t.holder n = some i) :
    Interferes i t (t.unlock n) := by
  refine ⟨h.release hn, le_rfl, fun m _ => version_le_store m, fun _ _ _ => rfl,
    fun m j hj => ?_⟩
  show store t.holder n none m = some j ↔ _
  by_cases hm : m = n
  · rw [hm, store_self, hn]
    simp [Ne.symm hj]
  · rw [store_of_ne _ _ hm]

theorem Locks.lock {ns : List Nat} (h : Locks t i ns) (n : Nat) :
    Locks (t.lock n i) i (n :: ns) := by
  intro m
  show store t.holder n (some i) m = some i ↔ _
  by_cases hm : m = n
  · rw [hm, store_self]
    exact iff_of_true rfl (List.mem_cons_self ..)
  · rw [store_of_ne _ _ hm, h m]
    simp [hm]

theorem Locks.unlock {ns : List Nat} (h : Locks t i (n :: ns)) (hn : n ∉ ns) :
    Locks (t.unlock n) i ns := by
  intro m
  show store t.holder n none m = some i ↔ _
  by_cases hm : m = n
  · rw [hm, store_self]
    exact iff_of_false (by simp) hn
  · rw [store_of_ne _ _ hm, h m]
    simp [hm]

/-- A lock taken from the version the thread knows. -/
theorem Knows.lock {w : Nat} (h : Knows t n v P) (hv : agrees w (t.version n) v = true)
    (hw : t.version n < v + w) :
    isLocked (t.version n) = false ∧ Owns (t.lock n i) i n P := by
  obtain ⟨heq, hP⟩ := h.of_agrees hv hw
  exact ⟨by rw [heq]; exact h.snapshot.free, h.lt, store_self _ _ _, hP⟩

theorem Knows.lock_other (h : Knows t m v P) (n : Nat) (i : ι) : Knows (t.lock n i) m v P :=
  ⟨h.lt, h.snapshot.move n⟩

theorem Owns.lock_other (h : Owns t i m P) (n : Nat) : Owns (t.lock n i) i m P := by
  refine ⟨h.lt, ?_, h.holds⟩
  show store t.holder n (some i) m = some i
  by_cases hm : m = n
  · rw [hm, store_self]
  · rw [store_of_ne _ _ hm]
    exact h.holder

theorem Owns.unlock_other (h : Owns t i m P) (hm : m ≠ n) : Owns (t.unlock n) i m P := by
  refine ⟨h.lt, ?_, h.holds⟩
  show store t.holder n none m = some i
  rw [store_of_ne _ _ hm]
  exact h.holder

end VersionLock
