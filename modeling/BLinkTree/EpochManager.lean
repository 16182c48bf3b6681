import BLinkTree.Lib.Interleaving
import BLinkTree.Lib.Slots

/-! # Epoch based reclamation

`epoch_manager.h` and `epoch_manager.cpp`: threads join and leave epochs and retire nodes, and
the epoch thread frees what was retired before the oldest epoch that a thread is in. Each load and
each store of an epoch is a step, and so is every access to the garbage queue. The epoch
thread may find the queue empty while a push is in progress, so `pop_front` may give
null at any time.
-/

namespace BLinkTree.EpochManager

open Interleaving

/-- `std::numeric_limits<epoch_t>::max()`, the local epoch of a thread outside. -/
def outside : Nat := 2 ^ 32 - 1

/-- The epochs, the field `remove_epoch` of every node and the garbage queue. -/
structure Epochs where
  globalEpoch : Nat
  localEpoch : Nat → Nat
  removeEpoch : Nat → Nat
  garbage : List Nat

/-- Where a registered thread is: `joining` and `storing` are `join_epoch`, `adding` and `pushing`
are `add_to_garbage`. -/
inductive WorkerPc where
  | ready
  | joining
  | storing (epoch : Nat)
  | adding (node : Nat)
  | pushing (node : Nat)

/-- Where the epoch thread is: `first` and `load` are `min_local_epoch`, with the minimum so far. -/
inductive EpochPc where
  | start
  | first
  | load (next minEpoch : Nat)
  | pop (minEpoch : Nat) (deferred : List Nat)
  | requeue (deferred : List Nat)

/-- A registered thread with its number, in or outside of an epoch, or the epoch thread. -/
inductive Thread where
  | worker (id : Nat) (inside : Bool) (pc : WorkerPc)
  | epoch (pc : EpochPc)

inductive Act where
  | join
  | leave
  | add (node : Nat)
  | null
  | go
  deriving DecidableEq

inductive Event where
  | joined
  | left
  | retired (node : Nat)
  | freed (node : Nat)
  deriving DecidableEq

def next (countThreads : Nat) : Program Epochs Thread Act Event
  | s, .worker id false .ready, .join => some (s, .worker id false .joining, none)
  | s, .worker id false .joining, .go =>
      some (s, .worker id false (.storing s.globalEpoch), none)
  | s, .worker id false (.storing e), .go =>
      some ({ s with localEpoch := Slots.store s.localEpoch id e }, .worker id true .ready,
        some .joined)
  | s, .worker id true .ready, .leave =>
      some ({ s with localEpoch := Slots.store s.localEpoch id outside }, .worker id false .ready,
        some .left)
  | s, .worker id b .ready, .add n => some (s, .worker id b (.adding n), some (.retired n))
  | s, .worker id b (.adding n), .go =>
      some ({ s with removeEpoch := Slots.store s.removeEpoch n s.globalEpoch },
        .worker id b (.pushing n), none)
  | s, .worker id b (.pushing n), .go =>
      some ({ s with garbage := s.garbage ++ [n] }, .worker id b .ready, none)
  | s, .epoch .start, .go =>
      some ({ s with globalEpoch := s.globalEpoch + 1 }, .epoch .first, none)
  | s, .epoch .first, .go => some (s, .epoch (.load 1 (s.localEpoch 0)), none)
  | s, .epoch (.load i m), .go =>
      if i < countThreads then some (s, .epoch (.load (i + 1) (min m (s.localEpoch i))), none)
      else some (s, .epoch (.pop m []), none)
  | s, .epoch (.pop m d), .go =>
      match s.garbage with
      | [] => some (s, .epoch (.requeue d), none)
      | n :: q =>
          if s.removeEpoch n < m then
            some ({ s with garbage := q }, .epoch (.pop m d), some (.freed n))
          else some ({ s with garbage := q }, .epoch (.pop m (d ++ [n])), none)
  | s, .epoch (.pop _ d), .null => some (s, .epoch (.requeue d), none)
  | s, .epoch (.requeue d), .go => some ({ s with garbage := s.garbage ++ d }, .epoch .start, none)
  | _, _, _ => none

abbrev History := List (Option Nat × Event)

/-- Thread `some id` has the number `id`, and `none` is the epoch thread. -/
abbrev World := Interleaving.World (Option Nat) Epochs Thread Event

def init : World where
  shared := ⟨0, fun _ => 0, fun _ => 0, []⟩
  thread := fun i =>
    match i with
    | some id => .worker id false .ready
    | none => .epoch .start
  history := []

/-! ## What the history says -/

/-- Thread `i` has joined and not left since. -/
def Inside (i : Option Nat) : History → Prop
  | [] => False
  | (j, .joined) :: h => j = i ∨ Inside i h
  | (j, .left) :: h => j ≠ i ∧ Inside i h
  | _ :: h => Inside i h

/-- Thread `i` was inside when node `n` was retired, and has not left since. -/
def Held (n : Nat) (i : Option Nat) (h : History) : Prop :=
  ∃ later j earlier, h = later ++ (j, .retired n) :: earlier ∧ Inside i earlier ∧
    (i, .left) ∉ later

def Retired (n : Nat) (h : History) : Prop := ∃ j, (j, Event.retired n) ∈ h

/-- No node is freed while a thread is inside that was inside when the node was retired. -/
def Safe (h : History) : Prop :=
  ∀ later j n earlier, h = later ++ (j, .freed n) :: earlier → ∀ i, ¬ Held n i earlier

/-- The rules for the callers: at most `count_threads` threads, no node is retired twice, and the
global epoch does not wrap around. -/
def Allowed (countThreads : Nat) (w : World) (i : Option Nat) (a : Act) : Prop :=
  match w.thread i, a with
  | .worker id _ _, .add n => id < countThreads ∧ ¬ ∃ e ∈ w.history, e.2 = .retired n
  | .worker id _ _, _ => id < countThreads
  | .epoch .start, _ => w.shared.globalEpoch < outside
  | .epoch _, _ => True

/-- The minimum so far, if it was taken over the epoch of thread `id`. -/
def EpochPc.minimum (id : Nat) : EpochPc → Option Nat
  | load i m => if id < i then some m else none
  | pop m _ => some m
  | _ => none

def EpochPc.deferred : EpochPc → List Nat
  | pop _ d => d
  | requeue d => d
  | _ => []

def Thread.inside : Thread → Bool
  | worker _ b _ => b
  | epoch _ => false

/-- No node is retired while a thread is inside whose epoch the minimum of a running
reclamation was not taken over. -/
def Timely (countThreads : Nat) (w : World) (a : Act) : Prop :=
  match a, w.thread none with
  | .add _, .epoch pc => ∀ id < countThreads, (w.thread (some id)).inside = true →
      ∀ m ∈ pc.minimum id, m ≤ w.shared.localEpoch id
  | _, _ => True

instance (countThreads : Nat) (w : World) (i : Option Nat) (a : Act) :
    Decidable (Allowed countThreads w i a) := by
  unfold Allowed
  split <;> infer_instance

instance (countThreads : Nat) (w : World) (a : Act) : Decidable (Timely countThreads w a) := by
  unfold Timely
  split <;> infer_instance

section History

variable {n m : Nat} {i j : Option Nat} {h h' : History}

theorem held_cons {e : Event} : Held n i ((j, e) :: h) ↔
    (e = .retired n ∧ Inside i h) ∨ (Held n i h ∧ (j, e) ≠ (i, .left)) := by
  constructor
  · rintro ⟨later, k, earlier, heq, hin, hleft⟩
    cases later with
    | nil =>
        simp only [List.nil_append, List.cons.injEq, Prod.mk.injEq] at heq
        rcases heq with ⟨⟨_, rfl⟩, rfl⟩
        exact Or.inl ⟨rfl, hin⟩
    | cons x later =>
        simp only [List.cons_append, List.cons.injEq] at heq
        rcases heq with ⟨rfl, rfl⟩
        rw [List.mem_cons, not_or] at hleft
        exact Or.inr ⟨⟨later, k, earlier, rfl, hin, hleft.2⟩, Ne.symm hleft.1⟩
  · rintro (⟨rfl, hin⟩ | ⟨⟨later, k, earlier, rfl, hin, hleft⟩, hne⟩)
    · exact ⟨[], j, h, rfl, hin, by simp⟩
    · refine ⟨(j, e) :: later, k, earlier, rfl, hin, ?_⟩
      rw [List.mem_cons, not_or]
      exact ⟨Ne.symm hne, hleft⟩

@[simp] theorem held_joined : Held n i ((j, .joined) :: h) ↔ Held n i h := by simp [held_cons]

@[simp] theorem held_freed : Held n i ((j, .freed m) :: h) ↔ Held n i h := by simp [held_cons]

@[simp] theorem held_left : Held n i ((j, .left) :: h) ↔ Held n i h ∧ j ≠ i := by simp [held_cons]

@[simp] theorem held_retired :
    Held n i ((j, .retired m) :: h) ↔ (m = n ∧ Inside i h) ∨ Held n i h := by simp [held_cons]

/-- Who holds a node is inside. -/
theorem Held.inside (hh : Held n i h) : Inside i h := by
  induction h with
  | nil =>
      rcases hh with ⟨later, k, earlier, heq, _⟩
      exact absurd heq (by simp)
  | cons x h ih =>
      rcases x with ⟨j, e⟩
      cases e with
      | joined => exact Or.inr (ih (held_joined.mp hh))
      | left =>
          rcases held_left.mp hh with ⟨h1, h2⟩
          exact ⟨h2, ih h1⟩
      | retired m =>
          rcases held_retired.mp hh with ⟨_, hin⟩ | h1
          · exact hin
          · exact ih h1
      | freed m => exact ih (held_freed.mp hh)

theorem Held.retired (hh : Held n i h) : Retired n h := by
  rcases hh with ⟨later, k, earlier, rfl, _⟩
  exact ⟨k, by simp⟩

theorem Retired.cons {x : Option Nat × Event} (hr : Retired n h) : Retired n (x :: h) := by
  rcases hr with ⟨k, hk⟩
  exact ⟨k, List.mem_cons_of_mem _ hk⟩

theorem Safe.cons {e : Event} (hs : Safe h) (he : ∀ m, e = .freed m → ∀ k, ¬ Held m k h) :
    Safe ((j, e) :: h) := by
  intro later k n earlier heq
  cases later with
  | nil =>
      simp only [List.nil_append, List.cons.injEq, Prod.mk.injEq] at heq
      rcases heq with ⟨⟨_, rfl⟩, rfl⟩
      exact he n rfl
  | cons x later =>
      simp only [List.cons_append, List.cons.injEq] at heq
      exact hs later k n earlier heq.2

end History

/-! ## Assertions -/

/-- Node `n` has its `remove_epoch`, which is not older than the epochs of the threads that hold
it. -/
def Ready (s : Epochs) (h : History) (n : Nat) : Prop :=
  Retired n h ∧ ∀ id, Held n (some id) h → s.localEpoch id ≤ s.removeEpoch n

def WorkerPc.Fits (s : Epochs) (h : History) (b : Bool) : WorkerPc → Prop
  | ready => True
  | joining => b = false
  | storing e => b = false ∧ e ≤ s.globalEpoch
  | adding n => Retired n h
  | pushing n => Ready s h n

/-- The minimum is not above the epochs of the threads that hold a node. -/
def Bounds (s : Epochs) (h : History) (pc : EpochPc) : Prop :=
  ∀ n id, Held n (some id) h → ∀ m ∈ pc.minimum id, m ≤ s.localEpoch id

def Asserts (countThreads : Nat) (s : Epochs) (h : History) (i : Option Nat) : Thread → Prop
  | .worker id b pc => i = some id ∧ (b = true ↔ Inside i h) ∧
      (b = true → id < countThreads ∧ s.localEpoch id ≤ s.globalEpoch) ∧ pc.Fits s h b
  | .epoch pc => i = none ∧ ¬ Inside i h ∧ (∀ n ∈ pc.deferred, Ready s h n) ∧ Bounds s h pc

structure Sound (countThreads : Nat) (w : World) : Prop where
  garbage : ∀ n ∈ w.shared.garbage, Ready w.shared w.history n
  thread : ∀ i, Asserts countThreads w.shared w.history i (w.thread i)
  safe : Safe w.history

/-- What a step of thread `i` leaves to the others, `pc` being the place of the epoch thread. -/
structure Keeps (i : Option Nat) (pc : EpochPc) (s : Epochs) (h : History) (s' : Epochs)
    (h' : History) : Prop where
  retired : ∀ n, Retired n h → Retired n h'
  inside : ∀ j, j ≠ i → (Inside j h' ↔ Inside j h)
  global_le : s.globalEpoch ≤ s'.globalEpoch
  local_eq : ∀ id, some id ≠ i → s'.localEpoch id = s.localEpoch id
  ready : ∀ n, Ready s h n → Ready s' h' n
  bounds : Bounds s h pc → Bounds s' h' pc

variable {countThreads : Nat} {s s' : Epochs} {h h' : History} {i j : Option Nat} {pc : EpochPc}

theorem Asserts.keeps {x : Thread} (ha : Asserts countThreads s h j x)
    (hk : Keeps i pc s h s' h') (hj : j ≠ i) (hpc : ∀ q, x = .epoch q → q = pc) :
    Asserts countThreads s' h' j x := by
  cases x with
  | worker id b q =>
      rcases ha with ⟨hid, hin, hlocal, hfits⟩
      refine ⟨hid, ?_, fun hb => ?_, ?_⟩
      · rw [hk.inside j hj]
        exact hin
      · have hne : some id ≠ i := by
          rw [← hid]
          exact hj
        rw [hk.local_eq id hne]
        exact ⟨(hlocal hb).1, le_trans (hlocal hb).2 hk.global_le⟩
      · cases q with
        | ready => trivial
        | joining => exact hfits
        | storing e => exact ⟨hfits.1, le_trans hfits.2 hk.global_le⟩
        | adding n => exact hk.retired n hfits
        | pushing n => exact hk.ready n hfits
  | epoch q =>
      rcases ha with ⟨hid, hin, hdef, hbounds⟩
      rw [hpc q rfl] at hdef hbounds ⊢
      refine ⟨hid, ?_, fun n hn => hk.ready n (hdef n hn), hk.bounds hbounds⟩
      rw [hk.inside j hj]
      exact hin

/-- Nobody comes to hold a node, and no epoch changes under a holder. -/
theorem keeps_of_held (hret : ∀ n, Retired n h → Retired n h')
    (hin : ∀ j, j ≠ i → (Inside j h' ↔ Inside j h)) (hglobal : s.globalEpoch ≤ s'.globalEpoch)
    (hlocal : ∀ id, some id ≠ i → s'.localEpoch id = s.localEpoch id)
    (hheld : ∀ n id, Held n (some id) h' →
      Held n (some id) h ∧ s'.localEpoch id = s.localEpoch id)
    (hremove : ∀ n id, Held n (some id) h → s.localEpoch id ≤ s.removeEpoch n →
      s.localEpoch id ≤ s'.removeEpoch n) : Keeps i pc s h s' h' where
  retired := hret
  inside := hin
  global_le := hglobal
  local_eq := hlocal
  ready := by
    rintro n ⟨hr, hle⟩
    refine ⟨hret n hr, fun id hid => ?_⟩
    rcases hheld n id hid with ⟨hold, heq⟩
    rw [heq]
    exact hremove n id hold (hle id hold)
  bounds := by
    intro hb n id hid m hm
    rcases hheld n id hid with ⟨hold, heq⟩
    rw [heq]
    exact hb n id hold m hm

/-- A step that changes the garbage queue at most. -/
theorem keeps_of_epochs (hglobal : s.globalEpoch ≤ s'.globalEpoch)
    (hlocal : s'.localEpoch = s.localEpoch) (hremove : s'.removeEpoch = s.removeEpoch) :
    Keeps i pc s h s' h := by
  refine keeps_of_held (fun _ hr => hr) (fun _ _ => Iff.rfl) hglobal (fun id _ => ?_)
    (fun n id hid => ⟨hid, ?_⟩) fun n id _ hle => ?_
  · rw [hlocal]
  · rw [hlocal]
  · rw [hremove]
    exact hle

theorem keeps_of_freed (n : Nat) (hglobal : s'.globalEpoch = s.globalEpoch)
    (hlocal : s'.localEpoch = s.localEpoch) (hremove : s'.removeEpoch = s.removeEpoch) :
    Keeps i pc s h s' ((i, .freed n) :: h) := by
  refine keeps_of_held (fun _ hr => hr.cons) (fun _ _ => Iff.rfl) hglobal.ge (fun id _ => ?_)
    (fun n id hid => ⟨held_freed.mp hid, ?_⟩) fun n id _ hle => ?_
  · rw [hlocal]
  · rw [hlocal]
  · rw [hremove]
    exact hle

theorem localEpoch_store (s : Epochs) {id e : Nat} (k : Nat) (hk : some k ≠ some id) :
    Slots.store s.localEpoch id e k = s.localEpoch k :=
  Slots.store_of_ne _ _ fun hc => hk (congrArg some hc)

/-- Joining and leaving: the thread holds no node before, or none after. -/
theorem keeps_of_join {id e : Nat} (hout : ¬ Inside (some id) h) :
    Keeps (some id) pc s h { s with localEpoch := Slots.store s.localEpoch id e }
      ((some id, .joined) :: h) := by
  refine keeps_of_held (fun _ hr => hr.cons) (fun j hj => ?_) le_rfl (localEpoch_store s)
    (fun n k hk => ?_) fun n k _ hle => hle
  · show some id = j ∨ Inside j h ↔ Inside j h
    simp [Ne.symm hj]
  · rw [held_joined] at hk
    refine ⟨hk, localEpoch_store s k ?_⟩
    rintro hc
    rw [hc] at hk
    exact hout hk.inside

theorem keeps_of_leave {id e : Nat} :
    Keeps (some id) pc s h { s with localEpoch := Slots.store s.localEpoch id e }
      ((some id, .left) :: h) := by
  refine keeps_of_held (fun _ hr => hr.cons) (fun j hj => ?_) le_rfl (localEpoch_store s)
    (fun n k hk => ?_) fun n k _ hle => hle
  · show some id ≠ j ∧ Inside j h ↔ Inside j h
    simp [Ne.symm hj]
  · rw [held_left] at hk
    exact ⟨hk.1, localEpoch_store s k (Ne.symm hk.2)⟩

/-- `remove_epoch` becomes the current epoch. -/
theorem keeps_of_stamp {n : Nat}
    (hle : ∀ id, Inside (some id) h → s.localEpoch id ≤ s.globalEpoch) :
    Keeps i pc s h { s with removeEpoch := Slots.store s.removeEpoch n s.globalEpoch } h := by
  refine keeps_of_held (fun _ hr => hr) (fun _ _ => Iff.rfl) le_rfl (fun _ _ => rfl)
    (fun _ _ hid => ⟨hid, rfl⟩) fun m id hid hm => ?_
  show s.localEpoch id ≤ Slots.store s.removeEpoch n s.globalEpoch m
  by_cases hmn : m = n
  · rw [hmn, Slots.store_self]
    exact hle id hid.inside
  · rw [Slots.store_of_ne _ _ hmn]
    exact hm

/-- The threads that are inside come to hold the node. -/
theorem keeps_of_retire {n : Nat} (hfresh : ¬ Retired n h)
    (htimely : ∀ id, Inside (some id) h → ∀ m ∈ pc.minimum id, m ≤ s.localEpoch id) :
    Keeps i pc s h s ((i, .retired n) :: h) where
  retired := fun _ hr => hr.cons
  inside := fun _ _ => Iff.rfl
  global_le := le_rfl
  local_eq := fun _ _ => rfl
  ready := by
    rintro m ⟨hr, hle⟩
    refine ⟨hr.cons, fun id hid => ?_⟩
    rcases held_retired.mp hid with ⟨rfl, _⟩ | hid
    · exact absurd hr hfresh
    · exact hle id hid
  bounds := by
    intro hb m id hid
    rcases held_retired.mp hid with ⟨_, hin⟩ | hid
    · exact htimely id hin
    · exact hb m id hid

/-! ## Runs -/

theorem sound_init : Sound countThreads init where
  garbage := by simp [init]
  thread := by
    intro i
    cases i with
    | none => exact ⟨rfl, fun hc => hc, by simp [EpochPc.deferred], fun n id _ m hm => by
        simp [EpochPc.minimum] at hm⟩
    | some id => exact ⟨rfl, by simp [Inside, init], by simp, trivial⟩
  safe := by
    intro later j n earlier heq
    exact absurd heq (by simp [init])

theorem Sound.exists_epoch {w : World} (hw : Sound countThreads w) :
    ∃ q, w.thread none = .epoch q := by
  have ha := hw.thread none
  cases hx : w.thread none with
  | epoch q => exact ⟨q, rfl⟩
  | worker id b q =>
      rw [hx] at ha
      exact absurd ha.1 (by simp)

/-- The step of one thread from what it leaves to the others. -/
theorem Sound.move {w : World} (hw : Sound countThreads w) (hpc : w.thread none = .epoch pc)
    (hk : Keeps i pc w.shared w.history s' h') {x : Thread}
    (hx : Asserts countThreads s' h' i x)
    (hgarbage : ∀ n ∈ s'.garbage, n ∈ w.shared.garbage ∨ Ready s' h' n) (hsafe : Safe h') :
    Sound countThreads ⟨s', Function.update w.thread i x, h'⟩ where
  garbage := by
    intro n hn
    rcases hgarbage n hn with hold | hready
    · exact hk.ready n (hw.garbage n hold)
    · exact hready
  thread := by
    refine forall_update (A := Asserts countThreads s' h') hx fun j hj => ?_
    refine (hw.thread j).keeps hk hj fun q hq => ?_
    have ha := hw.thread j
    rw [hq] at ha
    have hnone : j = none := ha.1
    rw [hnone, hpc] at hq
    exact (Thread.epoch.inj hq).symm
  safe := hsafe

theorem Sound.local_le {w : World} (hw : Sound countThreads w) (id : Nat)
    (hin : Inside (some id) w.history) :
    (w.thread (some id)).inside = true ∧ id < countThreads ∧
      w.shared.localEpoch id ≤ w.shared.globalEpoch := by
  have ha := hw.thread (some id)
  cases hx : w.thread (some id) with
  | epoch q =>
      rw [hx] at ha
      exact absurd ha.1 (by simp)
  | worker k b q =>
      rw [hx] at ha
      rcases ha with ⟨hid, hiff, hlocal, _⟩
      rw [Option.some.injEq] at hid
      rw [hid]
      have hb := hiff.mpr hin
      exact ⟨hb, hlocal hb⟩

/-- A step of a registered thread. -/
theorem Sound.worker {w w' : World} (hw : Sound countThreads w) {a : Act} {id : Nat} {b : Bool}
    {q : WorkerPc} (hx : w.thread i = .worker id b q) (hok : Allowed countThreads w i a)
    (htimely : Timely countThreads w a) (hs : step (next countThreads) w i a = some w') :
    Sound countThreads w' := by
  rcases step_eq_some hs with ⟨s', x, e, hn, rfl⟩
  rcases hw.exists_epoch with ⟨pc, hpc⟩
  have ha := hw.thread i
  rw [hx] at hn ha
  rcases ha with ⟨rfl, hiff, hlocal, hfits⟩
  have hid : id < countThreads := by
    unfold Allowed at hok
    rw [hx] at hok
    cases a with
    | add n => exact hok.1
    | _ => exact hok
  cases q with
  | ready =>
      cases a with
      | join =>
          cases b with
          | true => simp [next] at hn
          | false =>
              simp only [next, Option.some.injEq, Prod.mk.injEq] at hn
              rcases hn with ⟨rfl, rfl, rfl⟩
              exact hw.move hpc (keeps_of_epochs le_rfl rfl rfl) ⟨rfl, hiff, hlocal, rfl⟩
                (fun n hn => Or.inl hn) hw.safe
      | leave =>
          cases b with
          | false => simp [next] at hn
          | true =>
              simp only [next, Option.some.injEq, Prod.mk.injEq] at hn
              rcases hn with ⟨rfl, rfl, rfl⟩
              refine hw.move hpc keeps_of_leave ⟨rfl, ?_, by simp, trivial⟩
                (fun n hn => Or.inl hn) (hw.safe.cons (by simp))
              show false = true ↔ some id ≠ some id ∧ _
              simp
      | add n =>
          have hret : some (w.shared, Thread.worker id b (.adding n), some (Event.retired n)) =
              some (s', x, e) := by
            cases b <;> exact hn
          simp only [Option.some.injEq, Prod.mk.injEq] at hret
          rcases hret with ⟨rfl, rfl, rfl⟩
          have hfresh : ¬ Retired n w.history := by
            unfold Allowed at hok
            rw [hx] at hok
            rintro ⟨k, hk⟩
            exact hok.2 ⟨_, hk, rfl⟩
          have hmin : ∀ k, Inside (some k) w.history → ∀ m ∈ pc.minimum k,
              m ≤ w.shared.localEpoch k := by
            intro k hk
            unfold Timely at htimely
            rw [hpc] at htimely
            rcases hw.local_le k hk with ⟨h1, h2, _⟩
            exact htimely k h2 h1
          exact hw.move hpc (keeps_of_retire hfresh hmin)
            ⟨rfl, hiff, hlocal, some id, List.mem_cons_self ..⟩ (fun n hn => Or.inl hn)
            (hw.safe.cons (by simp))
      | null => cases b <;> simp [next] at hn
      | go => cases b <;> simp [next] at hn
  | joining =>
      have hb : b = false := hfits
      subst hb
      cases a with
      | go =>
          simp only [next, Option.some.injEq, Prod.mk.injEq] at hn
          rcases hn with ⟨rfl, rfl, rfl⟩
          exact hw.move hpc (keeps_of_epochs le_rfl rfl rfl) ⟨rfl, hiff, hlocal, rfl, le_rfl⟩
            (fun n hn => Or.inl hn) hw.safe
      | _ => simp [next] at hn
  | storing epoch =>
      rcases hfits with ⟨hb, hle⟩
      subst hb
      have hout : ¬ Inside (some id) w.history := fun hc => absurd (hiff.mpr hc) (by simp)
      cases a with
      | go =>
          simp only [next, Option.some.injEq, Prod.mk.injEq] at hn
          rcases hn with ⟨rfl, rfl, rfl⟩
          refine hw.move hpc (keeps_of_join hout) ⟨rfl, ?_, fun _ => ⟨hid, ?_⟩, trivial⟩
            (fun n hn => Or.inl hn) (hw.safe.cons (by simp))
          · show true = true ↔ some id = some id ∨ _
            simp
          · show Slots.store w.shared.localEpoch id epoch id ≤ w.shared.globalEpoch
            rw [Slots.store_self]
            exact hle
      | _ => simp [next] at hn
  | adding n =>
      have hstamp : Ready { w.shared with
          removeEpoch := Slots.store w.shared.removeEpoch n w.shared.globalEpoch } w.history n := by
        refine ⟨hfits, fun k hk => ?_⟩
        show _ ≤ Slots.store w.shared.removeEpoch n w.shared.globalEpoch n
        rw [Slots.store_self]
        exact (hw.local_le k hk.inside).2.2
      cases a with
      | go =>
          have hret : some ({ w.shared with
              removeEpoch := Slots.store w.shared.removeEpoch n w.shared.globalEpoch },
              Thread.worker id b (.pushing n), none) = some (s', x, e) := by
            cases b <;> exact hn
          simp only [Option.some.injEq, Prod.mk.injEq] at hret
          rcases hret with ⟨rfl, rfl, rfl⟩
          exact hw.move hpc (keeps_of_stamp fun k hk => (hw.local_le k hk).2.2)
            ⟨rfl, hiff, hlocal, hstamp⟩ (fun n hn => Or.inl hn) hw.safe
      | _ => cases b <;> simp [next] at hn
  | pushing n =>
      cases a with
      | go =>
          have hret : some ({ w.shared with garbage := w.shared.garbage ++ [n] },
              Thread.worker id b .ready, none) = some (s', x, e) := by
            cases b <;> exact hn
          simp only [Option.some.injEq, Prod.mk.injEq] at hret
          rcases hret with ⟨rfl, rfl, rfl⟩
          have hnew : Asserts countThreads { w.shared with garbage := w.shared.garbage ++ [n] }
              w.history (some id) (.worker id b .ready) := ⟨rfl, hiff, hlocal, trivial⟩
          have hkeeps : Keeps (some id) pc w.shared w.history
              { w.shared with garbage := w.shared.garbage ++ [n] } w.history :=
            keeps_of_epochs le_rfl rfl rfl
          refine hw.move hpc hkeeps hnew (fun m hm => ?_) hw.safe
          rcases List.mem_append.mp hm with hm | hm
          · exact Or.inl hm
          · rw [List.mem_singleton.mp hm]
            exact Or.inr hfits
      | _ => cases b <;> simp [next] at hn

/-- A step of the epoch thread. -/
theorem Sound.epoch {w w' : World} (hw : Sound countThreads w) {a : Act}
    (hx : w.thread i = .epoch pc) (hs : step (next countThreads) w i a = some w') :
    Sound countThreads w' := by
  rcases step_eq_some hs with ⟨s', x, e, hn, rfl⟩
  have ha := hw.thread i
  rw [hx] at hn ha
  rcases ha with ⟨rfl, hout, hdef, hbounds⟩
  cases pc with
  | start =>
      cases a with
      | go =>
          simp only [next, Option.some.injEq, Prod.mk.injEq] at hn
          rcases hn with ⟨rfl, rfl, rfl⟩
          have hnew : Asserts countThreads
              { w.shared with globalEpoch := w.shared.globalEpoch + 1 } w.history none
              (.epoch .first) :=
            ⟨rfl, hout, by simp [EpochPc.deferred], fun n id _ m hm => by
              simp [EpochPc.minimum] at hm⟩
          have hkeeps : Keeps none .start w.shared w.history
              { w.shared with globalEpoch := w.shared.globalEpoch + 1 } w.history :=
            keeps_of_epochs (Nat.le_succ _) rfl rfl
          exact hw.move hx hkeeps hnew (fun n hn => Or.inl hn) hw.safe
      | _ => simp [next] at hn
  | first =>
      cases a with
      | go =>
          simp only [next, Option.some.injEq, Prod.mk.injEq] at hn
          rcases hn with ⟨rfl, rfl, rfl⟩
          refine hw.move hx (keeps_of_epochs le_rfl rfl rfl)
            ⟨rfl, hout, by simp [EpochPc.deferred], fun n id _ m hm => ?_⟩
            (fun n hn => Or.inl hn) hw.safe
          simp only [EpochPc.minimum, Option.mem_def] at hm
          split at hm
          next hlt =>
            rw [Option.some.injEq] at hm
            rw [← hm, Nat.lt_one_iff.mp hlt]
          · simp at hm
      | _ => simp [next] at hn
  | load k m =>
      cases a with
      | go =>
          simp only [next] at hn
          split at hn <;> simp only [Option.some.injEq, Prod.mk.injEq] at hn <;>
            rcases hn with ⟨rfl, rfl, rfl⟩
          · refine hw.move hx (keeps_of_epochs le_rfl rfl rfl)
              ⟨rfl, hout, by simp [EpochPc.deferred], fun n id hid m' hm => ?_⟩
              (fun n hn => Or.inl hn) hw.safe
            have hold := hbounds n id hid
            simp only [EpochPc.minimum, Option.mem_def] at hm hold
            split at hm
            next hlt =>
              rw [Option.some.injEq] at hm
              rw [← hm]
              by_cases hk : id < k
              · rw [if_pos hk] at hold
                exact le_trans (min_le_left _ _) (hold m rfl)
              · have hidk : id = k := by omega
                rw [hidk]
                exact min_le_right _ _
            · simp at hm
          next hk =>
            -- all threads that hold a node have a number below the count
            refine hw.move hx (keeps_of_epochs le_rfl rfl rfl)
              ⟨rfl, hout, by simp [EpochPc.deferred], fun n id hid m' hm => ?_⟩
              (fun n hn => Or.inl hn) hw.safe
            have hlt := (hw.local_le id hid.inside).2.1
            have hold := hbounds n id hid
            simp only [EpochPc.minimum, Option.mem_def, Option.some.injEq] at hm hold
            rw [if_pos (by omega)] at hold
            exact hold m' (by rw [hm])
      | _ => simp [next] at hn
  | pop m d =>
      have hrequeue : Asserts countThreads w.shared w.history none (.epoch (.requeue d)) :=
        ⟨rfl, hout, hdef, fun n id _ m hm => by simp [EpochPc.minimum] at hm⟩
      cases a with
      | go =>
          simp only [next] at hn
          split at hn
          · simp only [Option.some.injEq, Prod.mk.injEq] at hn
            rcases hn with ⟨rfl, rfl, rfl⟩
            exact hw.move hx (keeps_of_epochs le_rfl rfl rfl) hrequeue (fun n hn => Or.inl hn)
              hw.safe
          next n q hq =>
            have hready := hw.garbage n (by simp [hq])
            have hrest : ∀ k ∈ q, k ∈ w.shared.garbage := fun k hk => by simp [hq, hk]
            split at hn <;> simp only [Option.some.injEq, Prod.mk.injEq] at hn <;>
              rcases hn with ⟨rfl, rfl, rfl⟩
            next hlt =>
              have hfree : ∀ k, ¬ Held n k w.history := by
                intro k hk
                cases k with
                | none => exact hout hk.inside
                | some id =>
                    have h1 := hready.2 id hk
                    have h2 := hbounds n id hk m rfl
                    omega
              have hkeeps : Keeps none (.pop m d) w.shared w.history { w.shared with garbage := q }
                  ((none, .freed n) :: w.history) := keeps_of_freed n rfl rfl rfl
              refine hw.move hx hkeeps ⟨rfl, hout, fun k hk => hkeeps.ready k (hdef k hk),
                hkeeps.bounds hbounds⟩ (fun k hk => Or.inl (hrest k hk)) (hw.safe.cons ?_)
              intro k hk
              rw [← Event.freed.inj hk]
              exact hfree
            · have hnew : Asserts countThreads { w.shared with garbage := q } w.history none
                  (.epoch (.pop m (d ++ [n]))) := by
                refine ⟨rfl, hout, fun k hk => ?_, hbounds⟩
                rcases List.mem_append.mp hk with hk | hk
                · exact hdef k hk
                · rw [List.mem_singleton.mp hk]
                  exact hready
              have hkeeps : Keeps none (.pop m d) w.shared w.history
                  { w.shared with garbage := q } w.history := keeps_of_epochs le_rfl rfl rfl
              exact hw.move hx hkeeps hnew (fun k hk => Or.inl (hrest k hk)) hw.safe
      | null =>
          simp only [next, Option.some.injEq, Prod.mk.injEq] at hn
          rcases hn with ⟨rfl, rfl, rfl⟩
          exact hw.move hx (keeps_of_epochs le_rfl rfl rfl) hrequeue (fun n hn => Or.inl hn) hw.safe
      | _ => simp [next] at hn
  | requeue d =>
      cases a with
      | go =>
          simp only [next, Option.some.injEq, Prod.mk.injEq] at hn
          rcases hn with ⟨rfl, rfl, rfl⟩
          have hnew : Asserts countThreads { w.shared with garbage := w.shared.garbage ++ d }
              w.history none (.epoch .start) :=
            ⟨rfl, hout, by simp [EpochPc.deferred], fun n id _ m hm => by
              simp [EpochPc.minimum] at hm⟩
          have hkeeps : Keeps none (.requeue d) w.shared w.history
              { w.shared with garbage := w.shared.garbage ++ d } w.history :=
            keeps_of_epochs le_rfl rfl rfl
          refine hw.move hx hkeeps hnew (fun n hn => ?_) hw.safe
          rcases List.mem_append.mp hn with hn | hn
          · exact Or.inl hn
          · exact Or.inr (hdef n hn)
      | _ => simp [next] at hn

/-- In every run in which no node is retired under a thread that the running reclamation
has missed, no node is freed while somebody may still hold it. -/
theorem safe_of_timely (countThreads : Nat) (w : World)
    (hw : Reachable (next countThreads)
      (fun w i a => Allowed countThreads w i a ∧ Timely countThreads w a) init w) :
    Safe w.history := by
  have hsound : Sound countThreads w := by
    refine hw.invariant sound_init fun w i a w' h hok hs => ?_
    cases hx : w.thread i with
    | worker id b q => exact h.worker hx hok.1 hok.2 hs
    | epoch pc => exact h.epoch hx hs
  exact hsound.safe

/-- Both threads are inside when the epoch thread takes the minimum over their epochs. Then thread 1
retires node 7, which this reclamation puts back into the queue since thread 0 may hold it. The
next one frees it, after both have left. -/
def retireBetween : List (Option Nat × Act) :=
  [(some 0, .join), (some 0, .go), (some 0, .go), (some 1, .join), (some 1, .go), (some 1, .go),
    (none, .go), (none, .go), (none, .go),
    (some 1, .add 7), (some 1, .go), (some 1, .go), (some 1, .leave),
    (none, .go), (none, .go), (none, .go), (none, .go), (some 0, .leave),
    (none, .go), (none, .go), (none, .go), (none, .go), (none, .go)]

theorem safe_of_timely_retire_between :
    ∃ w, run (next 2) (fun w i a => Allowed 2 w i a ∧ Timely 2 w a) init retireBetween = some w ∧
      w.history = [(none, .freed 7), (some 0, .left), (some 1, .left), (some 1, .retired 7),
        (some 1, .joined), (some 0, .joined)] ∧ Safe w.history := by
  have hrun : (run (next 2) (fun w i a => Allowed 2 w i a ∧ Timely 2 w a) init retireBetween).map
      (fun w => w.history) = some [(none, .freed 7), (some 0, .left), (some 1, .left),
        (some 1, .retired 7), (some 1, .joined), (some 0, .joined)] := by decide
  rcases Option.map_eq_some_iff.mp hrun with ⟨w, hw, hhist⟩
  exact ⟨w, hw, hhist, safe_of_timely 2 w (Reachable.start.of_run hw)⟩

/-- Both threads are outside when the epoch thread takes the minimum. Then thread 0 joins, and
thread 1 joins and retires node 7, which the epoch thread frees at once. -/
def retireLate : List (Option Nat × Act) :=
  [(some 0, .join), (some 0, .go), (some 0, .go), (some 0, .leave),
    (some 1, .join), (some 1, .go), (some 1, .go), (some 1, .leave),
    (none, .go), (none, .go), (none, .go), (none, .go),
    (some 0, .join), (some 0, .go), (some 0, .go),
    (some 1, .join), (some 1, .go), (some 1, .go), (some 1, .add 7), (some 1, .go), (some 1, .go),
    (none, .go)]

theorem freed_while_held :
    ∃ w, Reachable (next 2) (Allowed 2) init w ∧ ¬ Safe w.history := by
  have hrun : (run (next 2) (Allowed 2) init retireLate).map (fun w => w.history) =
      some [(none, .freed 7), (some 1, .retired 7), (some 1, .joined), (some 0, .joined),
        (some 1, .left), (some 1, .joined), (some 0, .left), (some 0, .joined)] := by decide
  rcases Option.map_eq_some_iff.mp hrun with ⟨w, hw, hhist⟩
  refine ⟨w, Reachable.start.of_run hw, fun hsafe => ?_⟩
  rw [hhist] at hsafe
  refine hsafe [] none 7 _ rfl (some 0) ⟨[], some 1, _, rfl, ?_, by simp⟩
  simp [Inside]

end BLinkTree.EpochManager
