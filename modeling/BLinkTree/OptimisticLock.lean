import BLinkTree.Lib.Interleaving
import BLinkTree.Lib.VersionLock

/-! # The optimistic lock

`optimistic_lock.h`, every atomic operation on the version as a step. The counter that the
trees use for a node is the number behind the 32 bits: two for every `lock` and `unlock`.
Calls may come in any order; only `unlock` needs the lock.
-/

namespace BLinkTree.OptimisticLock

open Interleaving

variable {ι : Type}

/-- `is_locked`. -/
def isLocked (version : BitVec 32) : Bool := version &&& 0b10 == 0b10

/-- Where a thread is: `reading` is the loop of `read_valid`, `validating` is about to load for
`is_valid`, `loading` is the `read_valid` of `try_lock` and `swapping` its compare-exchange.
`again` is set in `lock`, which tries until it succeeds. -/
inductive Pc where
  | ready
  | reading
  | validating (version : BitVec 32)
  | loading (again : Bool)
  | swapping (again : Bool) (version : BitVec 32)
  | unlocking

structure Thread where
  holds : Bool
  pc : Pc

inductive Act where
  | readValid
  | isValid (version : BitVec 32)
  | tryLock
  | lock
  | unlock
  | go

/-- What a call gives back. -/
inductive Event where
  | read (version : BitVec 32)
  | valid (version : BitVec 32) (result : Bool)
  | acquired
  | refused
  | released
  deriving DecidableEq

def next : Program (BitVec 32) Thread Act Event
  | s, ⟨h, .ready⟩, .readValid => some (s, ⟨h, .reading⟩, none)
  | s, ⟨h, .ready⟩, .isValid v => some (s, ⟨h, .validating v⟩, none)
  | s, ⟨h, .ready⟩, .tryLock => some (s, ⟨h, .loading false⟩, none)
  | s, ⟨h, .ready⟩, .lock => some (s, ⟨h, .loading true⟩, none)
  | s, ⟨true, .ready⟩, .unlock => some (s, ⟨true, .unlocking⟩, none)
  | s, ⟨h, .reading⟩, .go =>
      if isLocked s then some (s, ⟨h, .reading⟩, none) else some (s, ⟨h, .ready⟩, some (.read s))
  | s, ⟨h, .validating v⟩, .go => some (s, ⟨h, .ready⟩, some (.valid v (v == s)))
  | s, ⟨h, .loading again⟩, .go =>
      if isLocked s then some (s, ⟨h, .loading again⟩, none)
      else some (s, ⟨h, .swapping again s⟩, none)
  | s, ⟨h, .swapping again v⟩, .go =>
      if s = v then some (v + 0b10, ⟨true, .ready⟩, some .acquired)
      else if again then some (s, ⟨h, .loading true⟩, none)
      else some (s, ⟨h, .ready⟩, some .refused)
  | s, ⟨_, .unlocking⟩, .go => some (s + 0b10, ⟨false, .ready⟩, some .released)
  | _, _, _ => none

def init (ι : Type) : World ι (BitVec 32) Thread Event where
  shared := 0b100
  thread := fun _ => ⟨false, .ready⟩
  history := []

/-! ## The counter behind the version -/

def acquisitions (h : List (ι × Event)) : Nat := h.countP fun e => e.2 = .acquired

def releases (h : List (ι × Event)) : Nat := h.countP fun e => e.2 = .released

/-- The version without the bound of 32 bits. -/
def counter (h : List (ι × Event)) : Nat := 4 + 2 * (acquisitions h + releases h)

theorem isLocked_eq (b : BitVec 32) : isLocked b = b.getLsbD 1 := by
  have hmask : (0b10 : BitVec 32) = BitVec.twoPow 32 1 := by decide
  rw [isLocked, hmask, BitVec.and_twoPow]
  cases b.getLsbD 1 with
  | true => simp
  | false => decide

theorem isLocked_ofNat (v : Nat) : isLocked (BitVec.ofNat 32 v) = VersionLock.isLocked v := by
  rw [isLocked_eq, BitVec.getLsbD_ofNat, Nat.testBit_eq_decide_div_mod_eq]
  simp [VersionLock.isLocked]

theorem ofNat_eq_iff (a b : Nat) :
    BitVec.ofNat 32 a = BitVec.ofNat 32 b ↔ VersionLock.isValid a b = true := by
  rw [← BitVec.toNat_inj, BitVec.toNat_ofNat, BitVec.toNat_ofNat, VersionLock.isValid,
    decide_eq_true_eq]

theorem ofNat_add_two (v : Nat) : BitVec.ofNat 32 (v + 2) = BitVec.ofNat 32 v + 0b10 := by
  rw [BitVec.ofNat_add]
  rfl

section Counter

variable {i : ι} {h : List (ι × Event)}

@[simp] theorem acquisitions_cons (e : Event) :
    acquisitions ((i, e) :: h) = acquisitions h + if e = .acquired then 1 else 0 := by
  simp [acquisitions, List.countP_cons]

@[simp] theorem releases_cons (e : Event) :
    releases ((i, e) :: h) = releases h + if e = .released then 1 else 0 := by
  simp [releases, List.countP_cons]

theorem counter_acquired : counter ((i, .acquired) :: h) = counter h + 2 := by
  simp [counter]
  omega

theorem counter_quiet {e : Event} (ha : e ≠ .acquired) (hr : e ≠ .released) :
    counter ((i, e) :: h) = counter h := by
  simp [counter, ha, hr]

theorem counter_released : counter ((i, .released) :: h) = counter h + 2 := by
  simp [counter]
  omega

end Counter

/-- Every version in the history is the version of its moment; a version that `read_valid` gave
back was free, and so was the lock before each acquisition and only then. -/
def Recorded : List (ι × Event) → Prop
  | [] => True
  | (_, .read v) :: h => (v = BitVec.ofNat 32 (counter h) ∧ isLocked v = false) ∧ Recorded h
  | (_, .valid v b) :: h => (b = true → v = BitVec.ofNat 32 (counter h)) ∧ Recorded h
  | (_, .acquired) :: h => VersionLock.isLocked (counter h) = false ∧ Recorded h
  | (_, .refused) :: h => True ∧ Recorded h
  | (_, .released) :: h => VersionLock.isLocked (counter h) = true ∧ Recorded h

theorem Recorded.suffix {h h' : List (ι × Event)} (hr : Recorded (h ++ h')) : Recorded h' := by
  induction h with
  | nil => exact hr
  | cons e h ih =>
      rcases e with ⟨i, e⟩
      cases e <;> exact ih hr.2

/-- The two low bits of the counter. -/
theorem counter_mod_four {h : List (ι × Event)} (hr : Recorded h) :
    counter h = 4 + 4 * releases h + if VersionLock.isLocked (counter h) then 2 else 0 := by
  induction h with
  | nil => simp [counter, acquisitions, releases, VersionLock.isLocked]
  | cons e h ih =>
      rcases e with ⟨i, e⟩
      have hquiet : e ≠ .acquired → e ≠ .released → Recorded h → counter ((i, e) :: h) =
          4 + 4 * releases ((i, e) :: h) +
            if VersionLock.isLocked (counter ((i, e) :: h)) then 2 else 0 := by
        intro h1 h2 h3
        rw [counter_quiet h1 h2, releases_cons, if_neg h2]
        exact ih h3
      cases e with
      | acquired =>
          have ih := ih hr.2
          rw [hr.1] at ih
          rw [counter_acquired, VersionLock.isLocked_add_two hr.1, ih]
          simp
      | released =>
          have ih := ih hr.2
          rw [hr.1] at ih
          rw [counter_released, VersionLock.isLocked_add_two_of_locked hr.1, ih]
          simp
          omega
      | read v => exact hquiet (by simp) (by simp) hr.2
      | valid v b => exact hquiet (by simp) (by simp) hr.2
      | refused => exact hquiet (by simp) (by simp) hr.2

/-- A valid version is the version that was read, unless the 32 bits have come around. -/
theorem Recorded.acquisitions_eq_zero {middle earlier : List (ι × Event)} {i j : ι}
    {v : BitVec 32}
    (hr : Recorded ((j, .valid v true) :: (middle ++ (i, .read v) :: earlier)))
    (hm : acquisitions middle < 2 ^ 30) : acquisitions middle = 0 := by
  rcases hr with ⟨hlast, hr⟩
  have hlast := hlast rfl
  have hall := counter_mod_four hr
  rcases Recorded.suffix hr with ⟨⟨hfirst, hfree⟩, hr'⟩
  have hbefore := counter_mod_four hr'
  have hsum : acquisitions (middle ++ (i, .read v) :: earlier) =
      acquisitions middle + acquisitions earlier := by
    simp [acquisitions, List.countP_append]
  -- the lock is free at both moments
  have hfree1 : VersionLock.isLocked (counter earlier) = false := by
    rw [← isLocked_ofNat, ← hfirst]
    exact hfree
  have hfree2 : VersionLock.isLocked (counter (middle ++ (i, .read v) :: earlier)) = false := by
    rw [← isLocked_ofNat, ← hlast]
    exact hfree
  have hsame : VersionLock.isValid (counter (middle ++ (i, .read v) :: earlier))
      (counter earlier) = true := by
    rw [← ofNat_eq_iff, ← hlast, ← hfirst]
  simp only [VersionLock.isValid, decide_eq_true_eq] at hsame
  simp only [hfree1, hfree2, Bool.false_eq_true, if_false, Nat.add_zero] at hall hbefore
  unfold counter at hall hbefore hsame
  omega

/-! ## Runs -/

/-- A version on its way into the compare-exchange is free, and only a holder unlocks. -/
structure Thread.Fair (x : Thread) : Prop where
  swapping : ∀ again v, x.pc = .swapping again v → isLocked v = false
  unlocking : x.pc = .unlocking → x.holds = true

theorem fair_of_ne {x : Thread} (hs : ∀ again v, x.pc ≠ .swapping again v) (hu : x.pc ≠ .unlocking) :
    x.Fair :=
  ⟨fun again v hpc => absurd hpc (hs again v), fun hpc => absurd hpc hu⟩

/-- The version is the counter and the holder has its bit. -/
structure Sound (w : World ι (BitVec 32) Thread Event) (holder : Option ι) : Prop where
  version_eq : w.shared = BitVec.ofNat 32 (counter w.history)
  recorded : Recorded w.history
  locked_iff : isLocked w.shared = true ↔ holder ≠ none
  holds_iff : ∀ i, (w.thread i).holds = true ↔ holder = some i
  fair : ∀ i, (w.thread i).Fair

theorem sound_init : Sound (init ι) none where
  version_eq := rfl
  recorded := trivial
  locked_iff := by simp [init, isLocked]
  holds_iff := fun i => by simp [init]
  fair := fun _ => fair_of_ne (by simp [init]) (by simp [init])

variable [DecidableEq ι]

/-- The assertions about the threads after thread `i` moved without taking or giving back the
lock. -/
theorem Sound.quiet {w : World ι (BitVec 32) Thread Event} {holder : Option ι} (h : Sound w holder)
    {i : ι} {x : Thread} {e : Option Event} (hx : x.holds = (w.thread i).holds)
    (hpc : x.Fair)
    (he : ∀ y, e = some y → counter ((i, y) :: w.history) = counter w.history ∧
      Recorded ((i, y) :: w.history)) :
    Sound ⟨w.shared, Function.update w.thread i x, (e.map fun e => (i, e)).toList ++ w.history⟩
      holder := by
  refine ⟨?_, ?_, h.locked_iff, ?_, ?_⟩
  · cases e with
    | none => exact h.version_eq
    | some y =>
        show w.shared = BitVec.ofNat 32 (counter ((i, y) :: w.history))
        rw [(he y rfl).1]
        exact h.version_eq
  · cases e with
    | none => exact h.recorded
    | some y => exact (he y rfl).2
  · refine forall_update (A := fun j (y : Thread) => y.holds = true ↔ holder = some j) ?_
      fun j _ => h.holds_iff j
    rw [hx]
    exact h.holds_iff i
  · exact forall_update (A := fun _ (y : Thread) => y.Fair) hpc fun j _ => h.fair j

/-- A successful compare-exchange. -/
theorem Sound.acquire {w : World ι (BitVec 32) Thread Event} {holder : Option ι}
    (h : Sound w holder) {i : ι} (hfree : isLocked w.shared = false) :
    Sound ⟨w.shared + 0b10, Function.update w.thread i ⟨true, .ready⟩,
      (i, .acquired) :: w.history⟩ (some i) := by
  have hlow : VersionLock.isLocked (counter w.history) = false := by
    rw [← isLocked_ofNat, ← h.version_eq]
    exact hfree
  have hnew : w.shared + 0b10 = BitVec.ofNat 32 (counter ((i, Event.acquired) :: w.history)) := by
    rw [counter_acquired, ofNat_add_two, ← h.version_eq]
  have hnone : holder = none := by
    by_contra hne
    rw [h.locked_iff.mpr hne] at hfree
    exact absurd hfree (by decide)
  refine ⟨hnew, ⟨hlow, h.recorded⟩, ?_, ?_, ?_⟩
  · show isLocked (w.shared + 0b10) = true ↔ _
    rw [hnew, isLocked_ofNat, counter_acquired, VersionLock.isLocked_add_two hlow]
    simp
  · refine forall_update (A := fun j (y : Thread) => y.holds = true ↔ some i = some j) (by simp)
      fun j hj => ?_
    rw [h.holds_iff j, hnone]
    simp [Ne.symm hj]
  · exact forall_update (A := fun _ (y : Thread) => y.Fair) (fair_of_ne (by simp) (by simp))
      fun j _ => h.fair j

theorem Sound.release {w : World ι (BitVec 32) Thread Event} {holder : Option ι}
    (h : Sound w holder) {i : ι} (hi : (w.thread i).holds = true) :
    Sound ⟨w.shared + 0b10, Function.update w.thread i ⟨false, .ready⟩,
      (i, .released) :: w.history⟩ none := by
  have hholder : holder = some i := (h.holds_iff i).mp hi
  have hlow : VersionLock.isLocked (counter w.history) = true := by
    rw [← isLocked_ofNat, ← h.version_eq, h.locked_iff, hholder]
    simp
  have hnew : w.shared + 0b10 = BitVec.ofNat 32 (counter ((i, Event.released) :: w.history)) := by
    rw [counter_released, ofNat_add_two, ← h.version_eq]
  refine ⟨hnew, ⟨hlow, h.recorded⟩, ?_, ?_, ?_⟩
  · show isLocked (w.shared + 0b10) = true ↔ _
    rw [hnew, isLocked_ofNat, counter_released, VersionLock.isLocked_add_two_of_locked hlow]
    simp
  · refine forall_update (A := fun j (y : Thread) => y.holds = true ↔ none = some j) (by simp)
      fun j hj => ?_
    rw [h.holds_iff j, hholder]
    simp [Ne.symm hj]
  · exact forall_update (A := fun _ (y : Thread) => y.Fair) (fair_of_ne (by simp) (by simp))
      fun j _ => h.fair j

/-- A step that gives nothing back. -/
theorem Sound.silent {w : World ι (BitVec 32) Thread Event} {holder : Option ι}
    (h : Sound w holder) {i : ι} {x : Thread} (hx : x.holds = (w.thread i).holds) (hpc : x.Fair) :
    Sound ⟨w.shared, Function.update w.thread i x, w.history⟩ holder :=
  h.quiet (e := none) hx hpc (by simp)

/-- One step. -/
theorem Sound.step {w w' : World ι (BitVec 32) Thread Event} {holder : Option ι} {i : ι} {a : Act}
    (h : Sound w holder) (hs : step next w i a = some w') : ∃ holder', Sound w' holder' := by
  rcases step_eq_some hs with ⟨s', x, e, hn, rfl⟩
  rcases hx : w.thread i with ⟨holds, pc⟩
  rw [hx] at hn
  have hholds : holds = (w.thread i).holds := by rw [hx]
  cases a with
  | go =>
      cases pc with
      | ready => simp [next] at hn
      | reading =>
          simp only [next] at hn
          split at hn <;> simp only [Option.some.injEq, Prod.mk.injEq] at hn <;>
            rcases hn with ⟨rfl, rfl, rfl⟩
          · exact ⟨holder, h.silent hholds (fair_of_ne (by simp) (by simp))⟩
          next hfree =>
            rw [Bool.not_eq_true] at hfree
            refine ⟨holder, h.quiet hholds (fair_of_ne (by simp) (by simp)) fun y hy => ?_⟩
            rw [← Option.some.inj hy]
            exact ⟨counter_quiet (by simp) (by simp), ⟨h.version_eq, hfree⟩, h.recorded⟩
      | validating v =>
          simp only [next, Option.some.injEq, Prod.mk.injEq] at hn
          rcases hn with ⟨rfl, rfl, rfl⟩
          refine ⟨holder, h.quiet hholds (fair_of_ne (by simp) (by simp)) fun y hy => ?_⟩
          rw [← Option.some.inj hy]
          refine ⟨counter_quiet (by simp) (by simp), fun hv => ?_, h.recorded⟩
          rw [← h.version_eq]
          exact beq_iff_eq.mp hv
      | loading again =>
          simp only [next] at hn
          split at hn <;> simp only [Option.some.injEq, Prod.mk.injEq] at hn <;>
            rcases hn with ⟨rfl, rfl, rfl⟩
          · exact ⟨holder, h.silent hholds (fair_of_ne (by simp) (by simp))⟩
          next hfree =>
            rw [Bool.not_eq_true] at hfree
            refine ⟨holder, h.silent hholds ⟨fun _ v hv => ?_, by simp⟩⟩
            simp only [Pc.swapping.injEq] at hv
            rw [← hv.2]
            exact hfree
      | swapping again v =>
          simp only [next] at hn
          split at hn
          next heq =>
            simp only [Option.some.injEq, Prod.mk.injEq] at hn
            rcases hn with ⟨rfl, rfl, rfl⟩
            have hfree : isLocked w.shared = false := by
              rw [heq]
              exact (h.fair i).swapping again v (by rw [hx])
            rw [← heq]
            exact ⟨some i, h.acquire hfree⟩
          · split at hn <;> simp only [Option.some.injEq, Prod.mk.injEq] at hn <;>
              rcases hn with ⟨rfl, rfl, rfl⟩
            · exact ⟨holder, h.silent hholds (fair_of_ne (by simp) (by simp))⟩
            · refine ⟨holder, h.quiet hholds (fair_of_ne (by simp) (by simp)) fun y hy => ?_⟩
              rw [← Option.some.inj hy]
              exact ⟨counter_quiet (by simp) (by simp), trivial, h.recorded⟩
      | unlocking =>
          simp only [next, Option.some.injEq, Prod.mk.injEq] at hn
          rcases hn with ⟨rfl, rfl, rfl⟩
          exact ⟨none, h.release ((h.fair i).unlocking (by rw [hx]))⟩
  | unlock =>
      cases pc with
      | ready =>
          cases holds with
          | false => simp [next] at hn
          | true =>
              simp only [next, Option.some.injEq, Prod.mk.injEq] at hn
              rcases hn with ⟨rfl, rfl, rfl⟩
              exact ⟨holder, h.silent hholds ⟨by simp, fun _ => rfl⟩⟩
      | _ => simp [next] at hn
  | _ =>
      cases pc with
      | ready =>
          simp only [next, Option.some.injEq, Prod.mk.injEq] at hn
          rcases hn with ⟨rfl, rfl, rfl⟩
          exact ⟨holder, h.silent hholds (fair_of_ne (by simp) (by simp))⟩
      | _ => simp [next] at hn

/-- In every run at most one thread holds the lock, the second bit of the version says whether
one does and the first one is never set, and a version that `is_valid` accepts has seen no
acquisition since `read_valid`, if there were fewer than `2 ^ 30`. -/
theorem sequence_lock (w : World ι (BitVec 32) Thread Event)
    (hw : Reachable next (fun _ _ _ => True) (init ι) w) :
    (∀ i j, (w.thread i).holds = true → (w.thread j).holds = true → i = j) ∧
      (w.shared.getLsbD 0 = false ∧
        (w.shared.getLsbD 1 = true ↔ ∃ i, (w.thread i).holds = true)) ∧
      ∀ later middle earlier i v,
        w.history = later ++ (i, .valid v true) :: (middle ++ (i, .read v) :: earlier) →
        acquisitions middle < 2 ^ 30 → acquisitions middle = 0 := by
  have hsound : ∃ holder, Sound w holder :=
    hw.invariant (P := fun w => ∃ holder, Sound w holder) ⟨none, sound_init⟩
      fun _ _ _ _ hP _ hs => hP.elim fun _ h => h.step hs
  rcases hsound with ⟨holder, h⟩
  refine ⟨fun i j hi hj => ?_, ⟨?_, ?_⟩, ?_⟩
  · rw [h.holds_iff] at hi hj
    exact Option.some.inj (hi.symm.trans hj)
  · have hcounter := counter_mod_four h.recorded
    rw [h.version_eq, BitVec.getLsbD_ofNat, Nat.testBit_eq_decide_div_mod_eq, hcounter]
    split <;> simp <;> omega
  · rw [← isLocked_eq, h.locked_iff]
    simp only [h.holds_iff]
    exact Option.ne_none_iff_exists'
  · intro later middle earlier i v hhist hm
    have hr := h.recorded
    rw [hhist] at hr
    exact hr.suffix.acquisitions_eq_zero hm

/-- Thread 2 loads the version before thread 0 acquires and releases for the first time, so that its
compare-exchange fails between the `read_valid` of thread 1 and the `is_valid` that succeeds. The
other `is_valid` of thread 1 comes after the second acquisition. -/
def readAround : List (Nat × Act) :=
  [(2, .tryLock), (2, .go), (0, .lock), (0, .go), (0, .go), (0, .unlock), (0, .go),
    (1, .readValid), (1, .go), (2, .go), (1, .isValid 8), (1, .go),
    (0, .lock), (0, .go), (0, .go), (0, .unlock), (0, .go), (1, .isValid 8), (1, .go)]

theorem sequence_lock_read_around :
    ∃ w : World Nat (BitVec 32) Thread Event,
      run next (fun _ _ _ => True) (init Nat) readAround = some w ∧
      w.history = [(1, .valid 8 false), (0, .released), (0, .acquired)] ++ (1, .valid 8 true) ::
        ([(2, .refused)] ++ (1, .read 8) :: [(0, .released), (0, .acquired)]) ∧
      acquisitions [((2 : Nat), Event.refused)] = 0 ∧ w.shared.getLsbD 0 = false ∧
      ∀ i j, (w.thread i).holds = true → (w.thread j).holds = true → i = j := by
  have hrun : (run next (fun _ _ _ => True) (init Nat) readAround).map (fun w => w.history) =
      some ([(1, .valid 8 false), (0, .released), (0, .acquired)] ++ (1, .valid 8 true) ::
        ([(2, .refused)] ++ (1, .read 8) :: [(0, .released), (0, .acquired)])) := by decide
  rcases Option.map_eq_some_iff.mp hrun with ⟨w, hw, hhist⟩
  rcases sequence_lock w (Reachable.start.of_run hw) with ⟨hone, ⟨hbit, _⟩, hvalid⟩
  exact ⟨w, hw, hhist, hvalid _ _ _ _ _ hhist (by decide), hbit, hone⟩

end BLinkTree.OptimisticLock
