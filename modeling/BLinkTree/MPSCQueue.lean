import BLinkTree.Lib.Interleaving
import BLinkTree.Lib.OpenChain

/-! # The queue of many producers and one consumer

`util/mpsc_queue.h` and `util/mpsc_queue.cpp`, each load, store and exchange as a step. Thread 0
is the consumer, all the others are producers. Producers may also link items that nobody
has in a queue, to push them as a batch.
-/

namespace BLinkTree.MPSCQueue

open Interleaving OpenChain

/-- The dummy item `_stub`, to which `_end` points. All other numbers are items. -/
def stub : Nat := 0

/-- The field `_next` of every item, `_head` and `_tail`. -/
structure Queue where
  next : Nat → Option Nat
  head : Nat
  tail : Nat

/-- The items from `begin` to `end` in the order of their links. -/
structure Batch where
  first : Nat
  rest : List Nat
  deriving DecidableEq

def Batch.items (b : Batch) : List Nat := b.first :: b.rest

def Batch.last (b : Batch) : Nat := b.rest.getLastD b.first

/-- Where a thread is. The first four are the producers in `push_back`. The consumer in `pop_front`
is about to load `_tail` and the item behind it, to store `_tail` past the stub and to load
the next item there; `take` is about to store `_tail` and return the old one. From `loadHead` on
it has found one item only and pushes the stub behind it. -/
inductive Pc where
  | idle
  | clearNext (b : Batch)
  | exchange (b : Batch)
  | linkPrev (b : Batch) (prev : Nat)
  | waiting
  | loadTail
  | loadNext (tail : Nat)
  | skipStub (next : Nat)
  | loadSecond (tail : Nat)
  | take (tail next : Nat)
  | loadHead (tail : Nat)
  | clearStub (tail : Nat)
  | exchangeStub (tail : Nat)
  | linkStub (tail prev : Nat)
  | loadAgain (tail : Nat)
  deriving DecidableEq

inductive Act where
  | link (item next : Nat)
  | push (b : Batch)
  | pop
  | go
  deriving DecidableEq

inductive Event where
  | pushed (items : List Nat)
  | stubbed
  | skipped
  | popped (item : Nat)
  | empty
  deriving DecidableEq

/-- Return the first item or null behind the last load of the next item. -/
def takeOr (s : Queue) (tail : Nat) (pc : Pc) (e : Option Event) :
    Option (Queue × Pc × Option Event) :=
  match s.next tail with
  | some n => some (s, .take tail n, none)
  | none => some (s, pc, e)

def next : Program Queue Pc Act Event
  | s, .idle, .link x y => some ({ s with next := Function.update s.next x (some y) }, .idle, none)
  | s, .idle, .push b => some (s, .clearNext b, none)
  | s, .clearNext b, .go =>
      some ({ s with next := Function.update s.next b.last none }, .exchange b, none)
  | s, .exchange b, .go =>
      some ({ s with head := b.last }, .linkPrev b s.head, some (.pushed b.items))
  | s, .linkPrev b prev, .go =>
      some ({ s with next := Function.update s.next prev (some b.first) }, .idle, none)
  | s, .waiting, .pop => some (s, .loadTail, none)
  | s, .loadTail, .go => some (s, .loadNext s.tail, none)
  | s, .loadNext t, .go =>
      if t = stub then
        match s.next t with
        | none => some (s, .waiting, some .empty)
        | some n => some (s, .skipStub n, none)
      else takeOr s t (.loadHead t) none
  | s, .skipStub n, .go => some ({ s with tail := n }, .loadSecond n, some .skipped)
  | s, .loadSecond t, .go => takeOr s t (.loadHead t) none
  | s, .take t n, .go => some ({ s with tail := n }, .waiting, some (.popped t))
  | s, .loadHead t, .go =>
      if t = s.head then some (s, .clearStub t, none) else some (s, .waiting, some .empty)
  | s, .clearStub t, .go =>
      some ({ s with next := Function.update s.next stub none }, .exchangeStub t, none)
  | s, .exchangeStub t, .go =>
      some ({ s with head := stub }, .linkStub t s.head, some .stubbed)
  | s, .linkStub t prev, .go =>
      some ({ s with next := Function.update s.next prev (some stub) }, .loadAgain t, none)
  | s, .loadAgain t, .go => takeOr s t .waiting (some .empty)
  | _, _, _ => none

abbrev History := List (Nat × Event)

abbrev World := Interleaving.World Nat Queue Pc Event

def init : World where
  shared := ⟨fun _ => none, stub, stub⟩
  thread := fun i => if i = 0 then .waiting else .idle
  history := []

/-! ## What the history says -/

/-- The items in the order of the exchanges. -/
def pushed : History → List Nat
  | [] => []
  | (_, .pushed items) :: h => pushed h ++ items
  | _ :: h => pushed h

/-- The results of `pop_front` that are not null. -/
def results : History → List Nat
  | [] => []
  | (_, .popped x) :: h => results h ++ [x]
  | _ :: h => results h

/-- All nodes that were exchanged into the queue, the stub included. -/
def entered : History → List Nat
  | [] => [stub]
  | (_, .pushed items) :: h => entered h ++ items
  | (_, .stubbed) :: h => entered h ++ [stub]
  | _ :: h => entered h

/-- All nodes that `_tail` has left behind. -/
def passed : History → List Nat
  | [] => []
  | (_, .popped x) :: h => passed h ++ [x]
  | (_, .skipped) :: h => passed h ++ [stub]
  | _ :: h => passed h

/-- The nodes in the queue. -/
def live (h : History) : List Nat := (entered h).drop (passed h).length

/-- The items that a thread is about to push. -/
def Pc.items : Pc → List Nat
  | clearNext b => b.items
  | exchange b => b.items
  | _ => []

/-- Nobody has the item in the queue or is about to push it. -/
def Spare (w : World) (x : Nat) : Prop :=
  x ≠ stub ∧ x ∉ live w.history ∧ ∀ i, x ∉ (w.thread i).items

/-- The rules for the producers. -/
def Allowed (w : World) (_ : Nat) : Act → Prop
  | .link x _ => Spare w x
  | .push b => b.items.Nodup ∧ (∀ x ∈ b.items, Spare w x) ∧
      ∀ x y, Adjacent x y b.items → w.shared.next x = some y
  | _ => True

/-- One call of `pop_front` while no other thread moves. -/
def popFront : Nat → Queue → Pc → Option (Queue × Option Nat)
  | 0, _, _ => none
  | fuel + 1, s, pc =>
      match next s pc .go with
      | some (s', _, some (.popped x)) => some (s', some x)
      | some (s', _, some .empty) => some (s', none)
      | some (s', pc', _) => popFront fuel s' pc'
      | none => none

/-- Call `pop_front` until it returns null. -/
def drain : Nat → Queue → Option (List Nat)
  | 0, _ => none
  | fuel + 1, s =>
      match popFront 10 s .loadTail with
      | some (s', some x) => (drain fuel s').map (x :: ·)
      | some (_, none) => some []
      | none => none

/-! ## Assertions -/

/-- Auxiliary state: the nodes in the queue, the thread that has to store the pointer of a
node in the queue, and the thread that is about to push an item. -/
structure Ghost where
  live : List Nat
  linker : Nat → Option Nat
  owner : Nat → Option Nat

/-- The pointer that a thread is about to store. -/
def Pc.gap : Pc → Option (Nat × Nat)
  | linkPrev b prev => some (prev, b.first)
  | linkStub _ prev => some (prev, stub)
  | _ => none

def Pc.IsConsumer : Pc → Prop
  | idle => False
  | clearNext _ => False
  | exchange _ => False
  | linkPrev _ _ => False
  | _ => True

/-- What the consumer knows about the queue. -/
def Pc.Place (s : Queue) (live : List Nat) : Pc → Prop
  | loadNext t => t = s.tail
  | skipStub n => s.tail = stub ∧ s.next stub = some n
  | loadSecond t => t = s.tail ∧ t ≠ stub
  | take t n => t = s.tail ∧ t ≠ stub ∧ s.next t = some n
  | loadHead t => t = s.tail ∧ t ≠ stub
  | clearStub t => t = s.tail ∧ t ≠ stub ∧ stub ∉ live
  | exchangeStub t => t = s.tail ∧ t ≠ stub ∧ stub ∉ live ∧ s.next stub = none
  | linkStub t _ => t = s.tail ∧ t ≠ stub
  | loadAgain t => t = s.tail ∧ t ≠ stub
  | _ => True

structure Shared (s : Queue) (h : History) (g : Ghost) : Prop where
  entered_eq : entered h = passed h ++ g.live
  pushed_eq : pushed h = (entered h).filter (· ≠ stub)
  results_eq : results h = (passed h).filter (· ≠ stub)
  chain : Chain s.next g.linker g.live
  head_eq : g.live.getLast? = some s.head
  tail_eq : g.live.head? = some s.tail
  owner_spec : ∀ x, g.owner x ≠ none → x ≠ stub ∧ x ∉ g.live

structure Asserts (i : Nat) (s : Queue) (g : Ghost) (pc : Pc) : Prop where
  linker_iff : ∀ a, g.linker a = some i ↔ ∃ b, pc.gap = some (a, b)
  gap : ∀ a b, pc.gap = some (a, b) → Adjacent a b g.live
  owner_iff : ∀ x, g.owner x = some i ↔ x ∈ pc.items
  nodup : pc.items.Nodup
  linked : ∀ x y, Adjacent x y pc.items → s.next x = some y
  cleared : ∀ b, pc = .exchange b → s.next b.last = none
  consumer_iff : pc.IsConsumer ↔ i = 0
  place : pc.Place s g.live

structure Sound (w : World) (g : Ghost) : Prop where
  shared : Shared w.shared w.history g
  thread : ∀ i, Asserts i w.shared g (w.thread i)

/-- What a step of thread `i` leaves to the others. -/
structure Keeps (i : Nat) (s : Queue) (g : Ghost) (s' : Queue) (g' : Ghost) : Prop where
  linker : ∀ j, j ≠ i → ∀ a, g'.linker a = some j ↔ g.linker a = some j
  owner : ∀ j, j ≠ i → ∀ x, g'.owner x = some j ↔ g.owner x = some j
  adjacent : ∀ a b, g.linker a ≠ none → Adjacent a b g.live → Adjacent a b g'.live
  next_eq : ∀ j, j ≠ i → ∀ x, g.owner x = some j → s'.next x = s.next x
  place : i ≠ 0 → ∀ pc : Pc, pc.Place s g.live → pc.Place s' g'.live

variable {s s' : Queue} {h h' : History} {g g' : Ghost} {i j : Nat} {pc pc' : Pc}

theorem Batch.getLast?_items (b : Batch) : b.items.getLast? = some b.last := by
  rw [Batch.items, Batch.last, List.getLast?_cons, List.getLastD_eq_getLast?]

theorem Batch.last_mem (b : Batch) : b.last ∈ b.items := List.mem_of_mem_getLast? b.getLast?_items

theorem Asserts.keeps (ha : Asserts j s g pc) (hk : Keeps i s g s' g') (hj : j ≠ i)
    (hrole : i = 0 → ¬ pc.IsConsumer) : Asserts j s' g' pc where
  linker_iff := fun a => by
    rw [hk.linker j hj]
    exact ha.linker_iff a
  gap := by
    intro a b hab
    have hlink : g.linker a = some j := (ha.linker_iff a).mpr ⟨b, hab⟩
    exact hk.adjacent a b (by simp [hlink]) (ha.gap a b hab)
  owner_iff := fun x => by
    rw [hk.owner j hj]
    exact ha.owner_iff x
  nodup := ha.nodup
  linked := by
    intro x y hxy
    rw [hk.next_eq j hj x ((ha.owner_iff x).mpr hxy.mem_left)]
    exact ha.linked x y hxy
  cleared := by
    rintro b rfl
    rw [hk.next_eq j hj _ ((ha.owner_iff _).mpr b.last_mem)]
    exact ha.cleared b rfl
  consumer_iff := ha.consumer_iff
  place := by
    by_cases hi : i = 0
    · have hnot := hrole hi
      cases pc with
      | idle => trivial
      | clearNext b => trivial
      | exchange b => trivial
      | linkPrev b prev => trivial
      | _ => exact absurd trivial hnot
    · exact hk.place hi pc ha.place

/-- The step of one thread from what it leaves to the others. -/
theorem Sound.move {w : World} (hw : Sound w g) (hs : Shared s' h' g')
    (hk : Keeps i w.shared g s' g') (hx : Asserts i s' g' pc') :
    Sound ⟨s', Function.update w.thread i pc', h'⟩ g' where
  shared := hs
  thread := by
    refine forall_update (A := fun j => Asserts j s' g') hx fun j hj => ?_
    refine (hw.thread j).keeps hk hj fun hi hc => ?_
    exact hj (((hw.thread j).consumer_iff.mp hc).trans hi.symm)

/-! ## What the steps leave to the others -/

theorem Keeps.refl (i : Nat) (s : Queue) (g : Ghost) : Keeps i s g s g where
  linker := fun _ _ _ => Iff.rfl
  owner := fun _ _ _ => Iff.rfl
  adjacent := fun _ _ _ hab => hab
  next_eq := fun _ _ _ _ => rfl
  place := fun _ _ hp => hp

/-- The consumer knows the same when `_tail` and the pointers that it has read stand. -/
theorem Pc.Place.of_next {live live' : List Nat} (hp : pc.Place s live) (htail : s'.tail = s.tail)
    (hnext : ∀ n, s.next s.tail = some n → s'.next s.tail = some n)
    (hstub : stub ∉ live → stub ∉ live' ∧ (s.next stub = none → s'.next stub = none)) :
    pc.Place s' live' := by
  cases pc with
  | loadNext t => exact hp.trans htail.symm
  | skipStub n =>
      rcases hp with ⟨h1, h2⟩
      rw [← h1] at h2
      have h3 := hnext n h2
      rw [h1] at h3
      exact ⟨htail.trans h1, h3⟩
  | loadSecond t => exact ⟨hp.1.trans htail.symm, hp.2⟩
  | take t n =>
      rcases hp with ⟨h1, h2, h3⟩
      rw [h1] at h3
      have h4 := hnext n h3
      rw [← h1] at h4
      exact ⟨h1.trans htail.symm, h2, h4⟩
  | loadHead t => exact ⟨hp.1.trans htail.symm, hp.2⟩
  | clearStub t => exact ⟨hp.1.trans htail.symm, hp.2.1, (hstub hp.2.2).1⟩
  | exchangeStub t =>
      exact ⟨hp.1.trans htail.symm, hp.2.1, (hstub hp.2.2.1).1, (hstub hp.2.2.1).2 hp.2.2.2⟩
  | linkStub t prev => exact ⟨hp.1.trans htail.symm, hp.2⟩
  | loadAgain t => exact ⟨hp.1.trans htail.symm, hp.2⟩
  | _ => trivial

theorem Shared.tail_mem (hs : Shared s h g) : s.tail ∈ g.live := List.mem_of_mem_head? hs.tail_eq

theorem Shared.owner_stub (hs : Shared s h g) : g.owner stub = none := by
  by_contra hne
  exact (hs.owner_spec stub hne).1 rfl

/-- A store to a node outside the queue that no other thread is about to push. -/
theorem keeps_of_store (hs : Shared s h g) {x : Nat} {v : Option Nat} (hx : x ∉ g.live)
    (hown : ∀ j, j ≠ i → g.owner x ≠ some j) (hstub : x = stub → v = none) :
    Keeps i s g { s with next := Function.update s.next x v } g where
  linker := fun _ _ _ => Iff.rfl
  owner := fun _ _ _ => Iff.rfl
  adjacent := fun _ _ _ hab => hab
  next_eq := by
    intro j hj y hy
    have hne : y ≠ x := by
      rintro rfl
      exact hown j hj hy
    exact Function.update_of_ne hne _ _
  place := by
    intro _ pc hp
    refine hp.of_next rfl (fun n hn => ?_) fun hlive => ⟨hlive, fun hnone => ?_⟩
    · have hne : s.tail ≠ x := fun hc => hx (hc ▸ hs.tail_mem)
      show Function.update s.next x v s.tail = some n
      rw [Function.update_of_ne hne]
      exact hn
    · show Function.update s.next x v stub = none
      by_cases hc : stub = x
      · rw [hc, Function.update_self]
        exact hstub hc.symm
      · rw [Function.update_of_ne hc]
        exact hnone

theorem Shared.store (hs : Shared s h g) {x : Nat} {v : Option Nat} (hx : x ∉ g.live) :
    Shared { s with next := Function.update s.next x v } h g where
  entered_eq := hs.entered_eq
  pushed_eq := hs.pushed_eq
  results_eq := hs.results_eq
  chain := hs.chain.frame fun _ ha => Function.update_of_ne (ne_of_mem_of_not_mem ha hx) _ _
  head_eq := hs.head_eq
  tail_eq := hs.tail_eq
  owner_spec := hs.owner_spec

/-- The thread takes items that are spare. -/
def Ghost.claim (g : Ghost) (i : Nat) (items : List Nat) : Ghost :=
  { g with owner := fun x => if x ∈ items then some i else g.owner x }

theorem keeps_of_claim {items : List Nat} (hspare : ∀ x ∈ items, g.owner x = none) :
    Keeps i s g s (g.claim i items) where
  linker := fun _ _ _ => Iff.rfl
  owner := by
    intro j hj x
    show (if x ∈ items then some i else g.owner x) = some j ↔ _
    split
    next hx =>
      rw [hspare x hx]
      simp [Ne.symm hj]
    · exact Iff.rfl
  adjacent := fun _ _ _ hab => hab
  next_eq := fun _ _ _ _ => rfl
  place := fun _ _ hp => hp

theorem Shared.claim {items : List Nat} (hs : Shared s h g) (i : Nat)
    (hspare : ∀ x ∈ items, x ≠ stub ∧ x ∉ g.live) : Shared s h (g.claim i items) where
  entered_eq := hs.entered_eq
  pushed_eq := hs.pushed_eq
  results_eq := hs.results_eq
  chain := hs.chain
  head_eq := hs.head_eq
  tail_eq := hs.tail_eq
  owner_spec := by
    intro x hx
    by_cases hmem : x ∈ items
    · exact hspare x hmem
    · refine hs.owner_spec x ?_
      have heq : (g.claim i items).owner x = g.owner x := if_neg hmem
      rw [← heq]
      exact hx

/-- The nodes are in the queue, and the thread has to link them. -/
def Ghost.enter (g : Ghost) (i head : Nat) (nodes : List Nat) : Ghost where
  live := g.live ++ nodes
  linker := Function.update g.linker head (some i)
  owner := fun x => if x ∈ nodes then none else g.owner x

theorem keeps_of_enter {nodes : List Nat} {last : Nat} (hs : Shared s h g)
    (hown : ∀ x ∈ nodes, ∀ j, j ≠ i → g.owner x ≠ some j) (hstub : i ≠ 0 → stub ∉ nodes) :
    Keeps i s g { s with head := last } (g.enter i s.head nodes) where
  linker := by
    intro j hj a
    show Function.update g.linker s.head (some i) a = some j ↔ _
    by_cases ha : a = s.head
    · rw [ha, Function.update_self, hs.chain.linker_last hs.head_eq]
      simp [Ne.symm hj]
    · rw [Function.update_of_ne ha]
  owner := by
    intro j hj x
    show (if x ∈ nodes then none else g.owner x) = some j ↔ _
    split
    next hx => exact iff_of_false (by simp) (hown x hx j hj)
    · exact Iff.rfl
  adjacent := fun a b _ hab => adjacent_append.mpr (Or.inl hab)
  next_eq := fun _ _ _ _ => rfl
  place := by
    intro hi pc hp
    refine hp.of_next rfl (fun _ hn => hn) fun hlive => ⟨fun hc => ?_, fun hnone => hnone⟩
    rcases List.mem_append.mp hc with hc | hc
    · exact hlive hc
    · exact hstub hi hc

/-- The pointer is stored. -/
def Ghost.fill (g : Ghost) (a : Nat) : Ghost := { g with linker := Function.update g.linker a none }

theorem keeps_of_fill {a b : Nat} (hs : Shared s h g) (ha : g.linker a = some i)
    (hab : Adjacent a b g.live) :
    Keeps i s g { s with next := Function.update s.next a (some b) } (g.fill a) where
  linker := by
    intro j hj c
    show Function.update g.linker a none c = some j ↔ _
    by_cases hc : c = a
    · rw [hc, Function.update_self, ha]
      simp [Ne.symm hj]
    · rw [Function.update_of_ne hc]
  owner := fun _ _ _ => Iff.rfl
  adjacent := fun _ _ _ hab => hab
  next_eq := by
    intro j _ x hx
    have hne : x ≠ a := by
      rintro rfl
      exact (hs.owner_spec x (by simp [hx])).2 hab.mem_left
    exact Function.update_of_ne hne _ _
  place := by
    intro _ pc hp
    have hnone : s.next a = none := by
      rcases hs.chain.succ a b hab with ⟨_, hc⟩ | ⟨hn, _⟩
      · rw [hc] at ha
        exact absurd ha (by simp)
      · exact hn
    refine hp.of_next rfl (fun n hn => ?_) fun hlive => ⟨hlive, fun hstub => ?_⟩
    · have hne : s.tail ≠ a := by
        intro hc
        rw [hc, hnone] at hn
        exact absurd hn (by simp)
      show Function.update s.next a (some b) s.tail = some n
      rw [Function.update_of_ne hne]
      exact hn
    · have hne : stub ≠ a := fun hc => hlive (hc ▸ hab.mem_left)
      show Function.update s.next a (some b) stub = none
      rw [Function.update_of_ne hne]
      exact hstub

theorem Shared.fill {a b : Nat} (hs : Shared s h g) (ha : g.linker a = some i)
    (hab : Adjacent a b g.live) :
    Shared { s with next := Function.update s.next a (some b) } h (g.fill a) where
  entered_eq := hs.entered_eq
  pushed_eq := hs.pushed_eq
  results_eq := hs.results_eq
  chain := hs.chain.fill (by simp [ha]) hab
  head_eq := hs.head_eq
  tail_eq := hs.tail_eq
  owner_spec := hs.owner_spec

/-- Nodes are exchanged into the queue. -/
theorem Shared.enter {nodes : List Nat} {last : Nat} (hs : Shared s h g) (i : Nat)
    (hlast : nodes.getLast? = some last) (hnodup : nodes.Nodup) (hdisj : ∀ x ∈ nodes, x ∉ g.live)
    (hlink : ∀ x y, Adjacent x y nodes → s.next x = some y) (hclear : s.next last = none)
    (hentered : entered h' = entered h ++ nodes) (hpassed : passed h' = passed h)
    (hpushed : pushed h' = pushed h ++ nodes.filter (· ≠ stub))
    (hresults : results h' = results h) :
    Shared { s with head := last } h' (g.enter i s.head nodes) where
  entered_eq := by
    rw [hentered, hpassed, hs.entered_eq, List.append_assoc]
    rfl
  pushed_eq := by rw [hpushed, hentered, List.filter_append, hs.pushed_eq]
  results_eq := by rw [hresults, hpassed, hs.results_eq]
  chain := by
    have hne : nodes ≠ [] := by
      rintro rfl
      simp at hlast
    refine hs.chain.append i hs.head_eq hne hnodup hdisj hlink fun x hx => ?_
    rw [hlast, Option.some.injEq] at hx
    rw [← hx]
    exact hclear
  head_eq := by
    have hne : nodes ≠ [] := by
      rintro rfl
      simp at hlast
    show (g.live ++ nodes).getLast? = some last
    rw [List.getLast?_append_of_ne_nil _ hne]
    exact hlast
  tail_eq := by
    show (g.live ++ nodes).head? = some s.tail
    rw [List.head?_append, hs.tail_eq]
    rfl
  owner_spec := by
    intro x hx
    have hnot : x ∉ nodes := fun hc => hx (if_pos hc)
    have heq : (g.enter i s.head nodes).owner x = g.owner x := if_neg hnot
    rw [heq] at hx
    refine ⟨(hs.owner_spec x hx).1, fun hc => ?_⟩
    rcases List.mem_append.mp hc with hc | hc
    · exact (hs.owner_spec x hx).2 hc
    · exact hnot hc

/-- `_tail` leaves its node behind. -/
def Ghost.leave (g : Ghost) : Ghost := { g with live := g.live.tail }

theorem Shared.live_eq (hs : Shared s h g) : g.live = s.tail :: g.live.tail := by
  have htail := hs.tail_eq
  cases hl : g.live with
  | nil => simp [hl] at htail
  | cons x l =>
      rw [hl, List.head?_cons, Option.some.injEq] at htail
      rw [htail, List.tail_cons]

/-- The only node of the queue is its last one. -/
theorem Shared.live_eq_singleton (hs : Shared s h g) (heq : s.tail = s.head) :
    g.live = [s.tail] := by
  have hlive := hs.live_eq
  have hnodup := hs.chain.nodup
  have hlast := hs.head_eq
  cases hr : g.live.tail with
  | nil => rw [hlive, hr]
  | cons y r =>
      rw [hlive, hr, List.getLast?_cons_cons] at hlast
      rw [hlive, hr, List.nodup_cons, heq] at hnodup
      exact absurd (List.mem_of_mem_getLast? hlast) hnodup.1

theorem Shared.leave {n : Nat} (hs : Shared s h g) (hn : s.next s.tail = some n)
    (hentered : entered h' = entered h) (hpassed : passed h' = passed h ++ [s.tail])
    (hpushed : pushed h' = pushed h)
    (hresults : results h' = results h ++ [s.tail].filter (· ≠ stub)) :
    Shared { s with tail := n } h' g.leave := by
  have hlive := hs.live_eq
  have hchain := hs.chain
  rw [hlive] at hchain
  rcases hchain.second hn with ⟨r, hr⟩
  refine ⟨?_, ?_, ?_, hchain.tail hn, ?_, ?_, ?_⟩
  · rw [hentered, hpassed, hs.entered_eq, List.append_assoc]
    congr 1
  · rw [hpushed, hentered, hs.pushed_eq]
  · rw [hresults, hpassed, List.filter_append, hs.results_eq]
  · show g.live.tail.getLast? = some s.head
    have hhead := hs.head_eq
    rw [hlive, hr, List.getLast?_cons_cons] at hhead
    rw [hr]
    exact hhead
  · show g.live.tail.head? = some n
    rw [hr]
    rfl
  · intro x hx
    refine ⟨(hs.owner_spec x hx).1, fun hc => (hs.owner_spec x hx).2 ?_⟩
    exact List.mem_of_mem_tail hc

theorem keeps_of_leave {n : Nat} (hs : Shared s h g) (hn : s.next s.tail = some n) :
    Keeps 0 s g { s with tail := n } g.leave where
  linker := fun _ _ _ => Iff.rfl
  owner := fun _ _ _ => Iff.rfl
  adjacent := by
    intro a b ha hab
    show Adjacent a b g.live.tail
    rw [hs.live_eq] at hab
    rcases hab with ⟨rfl, hb⟩ | hab
    · have hadj : Adjacent s.tail b g.live := by
        rw [hs.live_eq]
        exact Or.inl ⟨rfl, hb⟩
      rcases hs.chain.succ _ _ hadj with ⟨_, hc⟩ | ⟨hc, _⟩
      · exact absurd hc ha
      · rw [hc] at hn
        exact absurd hn (by simp)
    · exact hab
  next_eq := fun _ _ _ _ => rfl
  place := fun hi => absurd rfl hi

/-! ## Steps -/

/-- A thread that neither links nor pushes. -/
theorem asserts_of_none (hlinker : ∀ a, g.linker a ≠ some i) (howner : ∀ x, g.owner x ≠ some i)
    (hgap : pc.gap = none) (hitems : pc.items = []) (hrole : pc.IsConsumer ↔ i = 0)
    (hplace : pc.Place s g.live) : Asserts i s g pc where
  linker_iff := fun a => iff_of_false (hlinker a) (by simp [hgap])
  gap := fun a b hab => by simp [hgap] at hab
  owner_iff := fun x => iff_of_false (howner x) (by simp [hitems])
  nodup := by simp [hitems]
  linked := fun x y hxy => by
    rw [hitems] at hxy
    exact hxy.elim
  cleared := fun b hb => by
    rw [hb] at hitems
    exact absurd hitems (by simp [Pc.items, Batch.items])
  consumer_iff := hrole
  place := hplace

theorem Asserts.no_linker (ha : Asserts i s g pc) (hgap : pc.gap = none) (a : Nat) :
    g.linker a ≠ some i := by
  rw [ne_eq, ha.linker_iff, hgap]
  simp

theorem Asserts.no_owner (ha : Asserts i s g pc) (hitems : pc.items = []) (x : Nat) :
    g.owner x ≠ some i := by
  rw [ne_eq, ha.owner_iff, hitems]
  simp

/-- Behind an exchange the thread has one pointer to store. -/
theorem Asserts.linker_enter (ha : Asserts i s g pc) (hgap : pc.gap = none) {head b : Nat}
    (hgap' : pc'.gap = some (head, b)) (nodes : List Nat) (c : Nat) :
    (g.enter i head nodes).linker c = some i ↔ ∃ d, pc'.gap = some (c, d) := by
  show Function.update g.linker head (some i) c = some i ↔ _
  rw [hgap']
  by_cases hc : c = head
  · rw [hc, Function.update_self]
    exact iff_of_true rfl ⟨_, rfl⟩
  · rw [Function.update_of_ne hc]
    refine iff_of_false (ha.no_linker hgap c) ?_
    rintro ⟨d, hd⟩
    simp only [Option.some.injEq, Prod.mk.injEq] at hd
    exact hc hd.1.symm

theorem Asserts.linker_fill (ha : Asserts i s g pc) {a b : Nat} (hgap : pc.gap = some (a, b))
    (c : Nat) : (g.fill a).linker c ≠ some i := by
  show Function.update g.linker a none c ≠ some i
  by_cases hc : c = a
  · rw [hc, Function.update_self]
    simp
  · rw [Function.update_of_ne hc, ne_eq, ha.linker_iff, hgap]
    rintro ⟨d, hd⟩
    simp only [Option.some.injEq, Prod.mk.injEq] at hd
    exact hc hd.1.symm

theorem Shared.live_history (hs : Shared s h g) : live h = g.live := by
  rw [live, hs.entered_eq, List.drop_left]

/-- A spare item has no place in the auxiliary state. -/
theorem Sound.spare {w : World} (hw : Sound w g) {x : Nat} (hx : Spare w x) :
    x ≠ stub ∧ x ∉ g.live ∧ g.owner x = none := by
  rcases hx with ⟨h1, h2, h3⟩
  rw [hw.shared.live_history] at h2
  refine ⟨h1, h2, ?_⟩
  cases hown : g.owner x with
  | none => rfl
  | some j => exact absurd (((hw.thread j).owner_iff x).mp hown) (h3 j)

/-- A step of a producer. -/
theorem Sound.producer {w w' : World} {a : Act} (hw : Sound w g)
    (hpc : ¬ (w.thread i).IsConsumer) (hok : Allowed w i a) (hstep : step next w i a = some w') :
    ∃ g', Sound w' g' := by
  rcases step_eq_some hstep with ⟨s', pc', e, hn, rfl⟩
  have ha := hw.thread i
  have hi : i ≠ 0 := fun hc => hpc (ha.consumer_iff.mpr hc)
  have hidle : Pc.IsConsumer .idle ↔ i = 0 := iff_of_false (fun hc => hc) hi
  cases hx : w.thread i with
  | idle =>
      rw [hx] at hn ha
      cases a with
      | link x y =>
          simp only [next, Option.some.injEq, Prod.mk.injEq] at hn
          rcases hn with ⟨rfl, rfl, rfl⟩
          rcases hw.spare hok with ⟨h1, h2, h3⟩
          refine ⟨g, hw.move (hw.shared.store h2)
            (keeps_of_store hw.shared h2 (by simp [h3]) fun hc => absurd hc h1) ?_⟩
          exact asserts_of_none (ha.no_linker rfl) (ha.no_owner rfl) rfl rfl hidle trivial
      | push b =>
          simp only [next, Option.some.injEq, Prod.mk.injEq] at hn
          rcases hn with ⟨rfl, rfl, rfl⟩
          rcases hok with ⟨hnodup, hspare, hlinked⟩
          have hsp := fun x hx => hw.spare (hspare x hx)
          refine ⟨g.claim i b.items, hw.move (hw.shared.claim i fun x hx => ⟨(hsp x hx).1,
            (hsp x hx).2.1⟩) (keeps_of_claim fun x hx => (hsp x hx).2.2) ?_⟩
          refine ⟨fun a => ?_, fun a b hab => by simp [Pc.gap] at hab, fun x => ?_, hnodup, hlinked,
            by simp, iff_of_false (fun hc => hc) hi, trivial⟩
          · exact iff_of_false (ha.no_linker rfl a) (by simp [Pc.gap])
          · show (if x ∈ b.items then some i else g.owner x) = some i ↔ x ∈ b.items
            split
            next hx => exact iff_of_true rfl hx
            next hx => exact iff_of_false (ha.no_owner rfl x) hx
      | pop => simp [next] at hn
      | go => simp [next] at hn
  | clearNext b =>
      rw [hx] at hn ha
      cases a with
      | go =>
          simp only [next, Option.some.injEq, Prod.mk.injEq] at hn
          rcases hn with ⟨rfl, rfl, rfl⟩
          have hown : g.owner b.last = some i := (ha.owner_iff _).mpr b.last_mem
          rcases hw.shared.owner_spec b.last (by simp [hown]) with ⟨h1, h2⟩
          refine ⟨g, hw.move (hw.shared.store h2)
            (keeps_of_store hw.shared h2 (fun j hj => ?_) fun hc => absurd hc h1) ?_⟩
          · rw [hown]
            simp [Ne.symm hj]
          · refine ⟨ha.linker_iff, ha.gap, ha.owner_iff, ha.nodup, fun x y hxy => ?_, ?_,
              iff_of_false (fun hc => hc) hi, trivial⟩
            · have hne : x ≠ b.last := by
                rintro rfl
                exact hxy.ne_last ha.nodup b.getLast?_items
              show Function.update w.shared.next b.last none x = some y
              rw [Function.update_of_ne hne]
              exact ha.linked x y hxy
            · intro b' hb'
              rw [← Pc.exchange.inj hb']
              exact Function.update_self ..
      | _ => simp [next] at hn
  | exchange b =>
      rw [hx] at hn ha
      cases a with
      | go =>
          simp only [next, Option.some.injEq, Prod.mk.injEq] at hn
          rcases hn with ⟨rfl, rfl, rfl⟩
          have hown : ∀ x ∈ b.items, g.owner x = some i := fun x hx => (ha.owner_iff x).mpr hx
          have hspec : ∀ x ∈ b.items, x ≠ stub ∧ x ∉ g.live :=
            fun x hx => hw.shared.owner_spec x (by simp [hown x hx])
          have hfilter : b.items.filter (· ≠ stub) = b.items := by
            rw [List.filter_eq_self]
            intro x hx
            simpa using (hspec x hx).1
          have hshared : Shared { w.shared with head := b.last }
              ((i, .pushed b.items) :: w.history) (g.enter i w.shared.head b.items) := by
            refine hw.shared.enter i b.getLast?_items ha.nodup (fun x hx => (hspec x hx).2) ha.linked
              (ha.cleared b rfl) rfl rfl ?_ rfl
            rw [hfilter]
            rfl
          refine ⟨_, hw.move hshared (keeps_of_enter hw.shared (fun x hx j hj => ?_) fun _ hc => ?_)
            ⟨fun c => ?_, fun c d hcd => ?_, fun x => ?_, by simp [Pc.items], ?_, by simp,
              iff_of_false (fun hc => hc) hi, trivial⟩⟩
          · rw [hown x hx]
            simp [Ne.symm hj]
          · exact (hspec stub hc).1 rfl
          · exact ha.linker_enter rfl rfl _ c
          · simp only [Pc.gap, Option.some.injEq, Prod.mk.injEq] at hcd
            rcases hcd with ⟨rfl, rfl⟩
            exact adjacent_append.mpr (Or.inr (Or.inl ⟨hw.shared.head_eq, rfl⟩))
          · show (if x ∈ b.items then none else g.owner x) = some i ↔ _
            split
            · exact iff_of_false (by simp) (by simp [Pc.items])
            next hnot =>
              refine iff_of_false (fun hc => hnot ((ha.owner_iff x).mp hc)) (by simp [Pc.items])
          · intro x y hxy
            exact hxy.elim
      | _ => simp [next] at hn
  | linkPrev b prev =>
      rw [hx] at hn ha
      cases a with
      | go =>
          simp only [next, Option.some.injEq, Prod.mk.injEq] at hn
          rcases hn with ⟨rfl, rfl, rfl⟩
          have hlink : g.linker prev = some i := (ha.linker_iff prev).mpr ⟨_, rfl⟩
          have hadj := ha.gap prev b.first rfl
          exact ⟨g.fill prev, hw.move (hw.shared.fill hlink hadj)
            (keeps_of_fill hw.shared hlink hadj) (asserts_of_none (ha.linker_fill rfl)
              (ha.no_owner rfl) rfl rfl hidle trivial)⟩
      | _ => simp [next] at hn
  | _ =>
      rw [hx] at hpc
      exact absurd trivial hpc

/-- The consumer where it has no pointer to store. -/
structure Pc.Plain (pc : Pc) : Prop where
  gap : pc.gap = none
  items : pc.items = []
  consumer : pc.IsConsumer

/-- A step of the consumer that only reads. -/
theorem Sound.reads {w : World} (hw : Sound w g) (pc' : Pc) (hpc : (w.thread 0).Plain)
    (hpc' : pc'.Plain) (hplace : pc'.Place w.shared g.live) {e : Option Event}
    (he : e = none ∨ e = some .empty) :
    Sound ⟨w.shared, Function.update w.thread 0 pc',
      (e.map fun e => (0, e)).toList ++ w.history⟩ g := by
  have ha := hw.thread 0
  have hs := hw.shared
  refine hw.move ?_ (Keeps.refl 0 w.shared g)
    (asserts_of_none (ha.no_linker hpc.gap) (ha.no_owner hpc.items) hpc'.gap hpc'.items
      (iff_of_true hpc'.consumer rfl) hplace)
  rcases he with rfl | rfl
  · exact hs
  · exact ⟨hs.entered_eq, hs.pushed_eq, hs.results_eq, hs.chain, hs.head_eq, hs.tail_eq,
      hs.owner_spec⟩

/-- The last load of the next item: take the first item or go on. -/
theorem Sound.takeOr {w : World} (hw : Sound w g) {t : Nat} {s' : Queue} {e e' : Option Event}
    (pc : Pc) (hpc : (w.thread 0).Plain) (ht : t = w.shared.tail ∧ t ≠ stub) (hpc' : pc.Plain)
    (hplace : pc.Place w.shared g.live) (he : e = none ∨ e = some .empty)
    (hn : takeOr w.shared t pc e = some (s', pc', e')) :
    Sound ⟨s', Function.update w.thread 0 pc', (e'.map fun e => (0, e)).toList ++ w.history⟩ g := by
  unfold MPSCQueue.takeOr at hn
  split at hn <;> simp only [Option.some.injEq, Prod.mk.injEq] at hn <;>
    rcases hn with ⟨rfl, rfl, rfl⟩
  next n hnext =>
    exact hw.reads (.take t n) hpc ⟨rfl, rfl, trivial⟩ ⟨ht.1, ht.2, hnext⟩ (Or.inl rfl)
  · exact hw.reads pc hpc hpc' hplace he

/-- A step of the consumer. -/
theorem Sound.consumer {w w' : World} {a : Act} (hw : Sound w g)
    (hpc : (w.thread i).IsConsumer) (hstep : step next w i a = some w') : ∃ g', Sound w' g' := by
  rcases step_eq_some hstep with ⟨s', pc', e, hn, rfl⟩
  have ha := hw.thread i
  obtain rfl : i = 0 := ha.consumer_iff.mp hpc
  cases hx : w.thread 0 with
  | idle =>
      rw [hx] at hpc
      exact hpc.elim
  | clearNext b =>
      rw [hx] at hpc
      exact hpc.elim
  | exchange b =>
      rw [hx] at hpc
      exact hpc.elim
  | linkPrev b prev =>
      rw [hx] at hpc
      exact hpc.elim
  | waiting =>
      rw [hx] at hn
      cases a with
      | pop =>
          simp only [next, Option.some.injEq, Prod.mk.injEq] at hn
          rcases hn with ⟨rfl, rfl, rfl⟩
          exact ⟨g, hw.reads .loadTail (hx ▸ ⟨rfl, rfl, trivial⟩) ⟨rfl, rfl, trivial⟩ trivial
            (Or.inl rfl)⟩
      | _ => simp [next] at hn
  | loadTail =>
      rw [hx] at hn
      cases a with
      | go =>
          simp only [next, Option.some.injEq, Prod.mk.injEq] at hn
          rcases hn with ⟨rfl, rfl, rfl⟩
          exact ⟨g, hw.reads (.loadNext _) (hx ▸ ⟨rfl, rfl, trivial⟩) ⟨rfl, rfl, trivial⟩ rfl
            (Or.inl rfl)⟩
      | _ => simp [next] at hn
  | loadNext t =>
      rw [hx] at hn ha
      have ht : t = w.shared.tail := ha.place
      have hplain : (w.thread 0).Plain := hx ▸ ⟨rfl, rfl, trivial⟩
      cases a with
      | go =>
          simp only [next] at hn
          split at hn
          next hstub =>
            split at hn <;> simp only [Option.some.injEq, Prod.mk.injEq] at hn <;>
              rcases hn with ⟨rfl, rfl, rfl⟩
            · exact ⟨g, hw.reads .waiting hplain ⟨rfl, rfl, trivial⟩ trivial (Or.inr rfl)⟩
            next n hnext =>
              rw [hstub] at ht hnext
              exact ⟨g, hw.reads (.skipStub n) hplain ⟨rfl, rfl, trivial⟩ ⟨ht.symm, hnext⟩
                (Or.inl rfl)⟩
          next hstub =>
            exact ⟨g, hw.takeOr (.loadHead t) hplain ⟨ht, hstub⟩ ⟨rfl, rfl, trivial⟩ ⟨ht, hstub⟩
              (Or.inl rfl) hn⟩
      | _ => simp [next] at hn
  | loadSecond t =>
      rw [hx] at hn ha
      cases a with
      | go =>
          exact ⟨g, hw.takeOr (.loadHead t) (hx ▸ ⟨rfl, rfl, trivial⟩) ha.place
            ⟨rfl, rfl, trivial⟩ ha.place (Or.inl rfl) hn⟩
      | _ => simp [next] at hn
  | loadAgain t =>
      rw [hx] at hn ha
      cases a with
      | go =>
          exact ⟨g, hw.takeOr .waiting (hx ▸ ⟨rfl, rfl, trivial⟩) ha.place ⟨rfl, rfl, trivial⟩
            trivial (Or.inr rfl) hn⟩
      | _ => simp [next] at hn
  | skipStub n =>
      rw [hx] at hn ha
      rcases ha.place with ⟨htail, hnext⟩
      cases a with
      | go =>
          simp only [next, Option.some.injEq, Prod.mk.injEq] at hn
          rcases hn with ⟨rfl, rfl, rfl⟩
          have hnext' : w.shared.next w.shared.tail = some n := by rw [htail]; exact hnext
          have hshared : Shared { w.shared with tail := n } ((0, .skipped) :: w.history) g.leave := by
            refine hw.shared.leave hnext' rfl ?_ rfl ?_
            · rw [htail]
              rfl
            · rw [htail]
              simp [results]
          -- the stub is behind, so the second node is an item
          have hne : n ≠ stub := by
            have hnodup := hw.shared.chain.nodup
            have hmem := List.mem_of_mem_head? hshared.tail_eq
            rw [hw.shared.live_eq, List.nodup_cons, htail] at hnodup
            exact ne_of_mem_of_not_mem hmem hnodup.1
          exact ⟨g.leave, hw.move hshared (keeps_of_leave hw.shared hnext')
            (asserts_of_none (ha.no_linker rfl) (ha.no_owner rfl) rfl rfl (iff_of_true trivial rfl)
              ⟨rfl, hne⟩)⟩
      | _ => simp [next] at hn
  | take t n =>
      rw [hx] at hn ha
      rcases ha.place with ⟨rfl, hstub, hnext⟩
      cases a with
      | go =>
          simp only [next, Option.some.injEq, Prod.mk.injEq] at hn
          rcases hn with ⟨rfl, rfl, rfl⟩
          have hshared : Shared { w.shared with tail := n }
              ((0, .popped w.shared.tail) :: w.history) g.leave := by
            refine hw.shared.leave hnext rfl rfl rfl ?_
            simp [results, hstub]
          exact ⟨g.leave, hw.move hshared (keeps_of_leave hw.shared hnext)
            (asserts_of_none (ha.no_linker rfl) (ha.no_owner rfl) rfl rfl (iff_of_true trivial rfl)
              trivial)⟩
      | _ => simp [next] at hn
  | loadHead t =>
      rw [hx] at hn ha
      rcases ha.place with ⟨ht, hstub⟩
      have hplain : (w.thread 0).Plain := hx ▸ ⟨rfl, rfl, trivial⟩
      cases a with
      | go =>
          simp only [next] at hn
          split at hn <;> simp only [Option.some.injEq, Prod.mk.injEq] at hn <;>
            rcases hn with ⟨rfl, rfl, rfl⟩
          next hhead =>
            refine ⟨g, hw.reads (.clearStub t) hplain ⟨rfl, rfl, trivial⟩ ⟨ht, hstub, ?_⟩
              (Or.inl rfl)⟩
            rw [hw.shared.live_eq_singleton (ht.symm.trans hhead), ← ht, List.mem_singleton]
            exact Ne.symm hstub
          · exact ⟨g, hw.reads .waiting hplain ⟨rfl, rfl, trivial⟩ trivial (Or.inr rfl)⟩
      | _ => simp [next] at hn
  | clearStub t =>
      rw [hx] at hn ha
      rcases ha.place with ⟨ht, hstub, hlive⟩
      cases a with
      | go =>
          simp only [next, Option.some.injEq, Prod.mk.injEq] at hn
          rcases hn with ⟨rfl, rfl, rfl⟩
          have hown := hw.shared.owner_stub
          refine ⟨g, hw.move (hw.shared.store hlive)
            (keeps_of_store hw.shared hlive (by simp [hown]) fun _ => rfl)
            (asserts_of_none (ha.no_linker rfl) (ha.no_owner rfl) rfl rfl (iff_of_true trivial rfl)
              ⟨ht, hstub, hlive, ?_⟩)⟩
          show Function.update w.shared.next stub none stub = none
          exact Function.update_self _ _ _
      | _ => simp [next] at hn
  | exchangeStub t =>
      rw [hx] at hn ha
      rcases ha.place with ⟨ht, hstub, hlive, hclear⟩
      cases a with
      | go =>
          simp only [next, Option.some.injEq, Prod.mk.injEq] at hn
          rcases hn with ⟨rfl, rfl, rfl⟩
          have hown := hw.shared.owner_stub
          have hshared : Shared { w.shared with head := stub } ((0, .stubbed) :: w.history)
              (g.enter 0 w.shared.head [stub]) := by
            refine hw.shared.enter 0 rfl (List.nodup_singleton _) ?_ ?_ hclear rfl rfl ?_ rfl
            · intro x hx
              rw [List.mem_singleton.mp hx]
              exact hlive
            · intro x y hxy
              simp [Adjacent] at hxy
            · simp [pushed]
          refine ⟨_, hw.move hshared (keeps_of_enter hw.shared ?_ fun hi => absurd rfl hi)
            ⟨ha.linker_enter rfl rfl _, fun c d hcd => ?_, fun x => ?_, by simp [Pc.items], ?_,
              by simp, iff_of_true trivial rfl, ⟨ht, hstub⟩⟩⟩
          · intro x hx j _
            rw [List.mem_singleton.mp hx, hown]
            simp
          · simp only [Pc.gap, Option.some.injEq, Prod.mk.injEq] at hcd
            rcases hcd with ⟨rfl, rfl⟩
            exact adjacent_append.mpr (Or.inr (Or.inl ⟨hw.shared.head_eq, rfl⟩))
          · show (if x ∈ [stub] then none else g.owner x) = some 0 ↔ _
            split
            · exact iff_of_false (by simp) (by simp [Pc.items])
            · exact iff_of_false (ha.no_owner rfl x) (by simp [Pc.items])
          · intro x y hxy
            exact hxy.elim
      | _ => simp [next] at hn
  | linkStub t prev =>
      rw [hx] at hn ha
      cases a with
      | go =>
          simp only [next, Option.some.injEq, Prod.mk.injEq] at hn
          rcases hn with ⟨rfl, rfl, rfl⟩
          have hlink : g.linker prev = some 0 := (ha.linker_iff prev).mpr ⟨_, rfl⟩
          have hadj := ha.gap prev stub rfl
          exact ⟨g.fill prev, hw.move (hw.shared.fill hlink hadj)
            (keeps_of_fill hw.shared hlink hadj) (asserts_of_none (ha.linker_fill rfl)
              (ha.no_owner rfl) rfl rfl (iff_of_true trivial rfl) ha.place)⟩
      | _ => simp [next] at hn

theorem sound_init : Sound init ⟨[stub], fun _ => none, fun _ => none⟩ where
  shared := by
    refine ⟨rfl, by simp [init, pushed, entered], rfl, ⟨List.nodup_singleton _, ?_, ?_, ?_⟩, rfl, rfl,
      ?_⟩
    · intro a _
      rfl
    · intro a b hab
      simp [Adjacent] at hab
    · intro a ha
      exact absurd rfl ha
    · intro x hx
      exact absurd rfl hx
  thread := by
    intro i
    by_cases hi : i = 0
    · have hpc : init.thread i = .waiting := if_pos hi
      rw [hpc]
      exact asserts_of_none (by simp) (by simp) rfl rfl (iff_of_true trivial hi) trivial
    · have hpc : init.thread i = .idle := if_neg hi
      rw [hpc]
      exact asserts_of_none (by simp) (by simp) rfl rfl (iff_of_false (fun hc => hc) hi) trivial

theorem sound_of_reachable {w : World} (hw : Reachable next Allowed init w) : ∃ g, Sound w g := by
  have h0 : ∃ g, Sound init g := ⟨_, sound_init⟩
  refine hw.invariant (P := fun w => ∃ g, Sound w g) h0 fun w i a w' hg hok hs => ?_
  rcases hg with ⟨g, hg⟩
  by_cases hpc : (w.thread i).IsConsumer
  · exact hg.consumer hpc hs
  · exact hg.producer hpc hok hs

/-! ## The queue at rest -/

/-- No pointer is missing. -/
structure Quiet (s : Queue) (live : List Nat) : Prop where
  chain : Chain s.next (fun _ => (none : Option Nat)) live
  head_eq : live.getLast? = some s.head
  tail_eq : live.head? = some s.tail

theorem Sound.quiet {w : World} (hw : Sound w g) (hgap : ∀ i, (w.thread i).gap = none) :
    Quiet w.shared g.live := by
  have hlinker : g.linker = fun _ => none := by
    funext a
    cases ha : g.linker a with
    | none => rfl
    | some i => exact absurd ha ((hw.thread i).no_linker (hgap i) a)
  refine ⟨?_, hw.shared.head_eq, hw.shared.tail_eq⟩
  rw [← hlinker]
  exact hw.shared.chain

theorem Sound.quiet_of_rest {w : World} (hw : Sound w g) (hidle : ∀ i, i ≠ 0 → w.thread i = .idle)
    (hwait : w.thread 0 = .waiting) : Quiet w.shared g.live := by
  apply hw.quiet
  intro i
  by_cases hi : i = 0
  · rw [hi, hwait]
    rfl
  · rw [hidle i hi]
    rfl

theorem Quiet.next_eq {x y : Nat} {r : List Nat} (hq : Quiet s (x :: y :: r)) :
    s.next x = some y := by
  rcases hq.chain.succ x y (Or.inl ⟨rfl, rfl⟩) with ⟨hy, _⟩ | ⟨_, hc⟩
  · exact hy
  · exact absurd rfl hc

/-- `_tail` is past its node. -/
theorem Quiet.leave {x y : Nat} {r : List Nat} (hq : Quiet s (x :: y :: r)) :
    Quiet { s with tail := y } (y :: r) where
  chain := hq.chain.tail hq.next_eq
  head_eq := by
    have hhead := hq.head_eq
    rw [List.getLast?_cons_cons] at hhead
    exact hhead
  tail_eq := rfl

theorem popFront_goes {e : Option Event} (hn : next s pc .go = some (s', pc', e))
    (he : e = none ∨ e = some .stubbed ∨ e = some .skipped) (fuel : Nat) :
    popFront (fuel + 1) s pc = popFront fuel s' pc' := by
  rcases he with rfl | rfl | rfl <;> rw [popFront, hn]

theorem popFront_popped {x : Nat} (hn : next s pc .go = some (s', pc', some (.popped x)))
    (fuel : Nat) : popFront (fuel + 1) s pc = some (s', some x) := by
  rw [popFront, hn]

theorem popFront_empty (hn : next s pc .go = some (s', pc', some .empty)) (fuel : Nat) :
    popFront (fuel + 1) s pc = some (s', none) := by
  rw [popFront, hn]

/-- What a call that returns `x` leaves: the nodes behind `x` or the stub in the queue, and the
pointers of all other items as they were. -/
structure Popped (s : Queue) (x : Nat) (r : List Nat) (s' : Queue) (live' : List Nat) : Prop where
  quiet : Quiet s' live'
  items : live'.filter (· ≠ stub) = r.filter (· ≠ stub)
  notMem : x ∉ live'
  sub : ∀ y ∈ live', y = stub ∨ y ∈ r
  frame : ∀ y, y ≠ stub → y ≠ x → s'.next y = s.next y

/-- From the last load of the next item on, `pop_front` returns the first item. -/
theorem popFront_item {x : Nat} {r : List Nat} (hq : Quiet s (x :: r)) (hx : x ≠ stub)
    (hpc : next s pc .go = takeOr s x (.loadHead x) none) (fuel : Nat) :
    ∃ s' live', Popped s x r s' live' ∧ popFront (fuel + 7) s pc = some (s', some x) := by
  cases r with
  | cons y r =>
      have htake : next s pc .go = some (s, .take x y, none) := by
        rw [hpc, takeOr, hq.next_eq]
      refine ⟨{ s with tail := y }, y :: r, ⟨hq.leave, rfl, ?_, fun z hz => Or.inr hz,
        fun _ _ _ => rfl⟩, ?_⟩
      · exact (List.nodup_cons.mp hq.chain.nodup).1
      rw [popFront_goes htake (Or.inl rfl)]
      exact popFront_popped rfl _
  | nil =>
      have hnone : s.next x = none := hq.chain.last x rfl
      have hhead : s.head = x := (Option.some.inj hq.head_eq).symm
      -- the stub comes behind the only item, so that `_tail` can leave it
      refine ⟨⟨Function.update (Function.update s.next stub none) x (some stub), stub, stub⟩, [stub],
        ⟨⟨⟨List.nodup_singleton _, ?_, ?_, ?_⟩, rfl, rfl⟩, rfl, ?_, ?_, ?_⟩, ?_⟩
      · intro a ha
        rw [← Option.some.inj ha]
        show Function.update (Function.update s.next stub none) x (some stub) stub = none
        rw [Function.update_of_ne (Ne.symm hx), Function.update_self]
      · intro a b hab
        simp [Adjacent] at hab
      · intro a ha
        exact absurd rfl ha
      · rw [List.mem_singleton]
        exact hx
      · intro y hy
        exact Or.inl (List.mem_singleton.mp hy)
      · intro y hy hyx
        show Function.update (Function.update s.next stub none) x (some stub) y = s.next y
        rw [Function.update_of_ne hyx, Function.update_of_ne hy]
      · have hload : next s pc .go = some (s, .loadHead x, none) := by
          rw [hpc, takeOr, hnone]
        have hlast : next s (.loadHead x) .go = some (s, .clearStub x, none) := if_pos hhead.symm
        rw [popFront_goes hload (Or.inl rfl), popFront_goes hlast (Or.inl rfl),
          popFront_goes rfl (Or.inl rfl), popFront_goes rfl (Or.inr (Or.inl rfl)), hhead,
          popFront_goes rfl (Or.inl rfl)]
        have htake : next ⟨Function.update (Function.update s.next stub none) x (some stub), stub,
            s.tail⟩ (.loadAgain x) .go =
            some (⟨Function.update (Function.update s.next stub none) x (some stub), stub, s.tail⟩,
              .take x stub, none) := by
          simp [next, takeOr]
        rw [popFront_goes htake (Or.inl rfl)]
        exact popFront_popped rfl _

/-- Without items the queue is the stub, and `pop_front` returns null; else it returns the
first item. -/
theorem popFront_spec {live : List Nat} (hq : Quiet s live) :
    (live = [stub] ∧ popFront 10 s .loadTail = some (s, none)) ∨
    ∃ x r s' live', x ≠ stub ∧ x ∈ live ∧ live.filter (· ≠ stub) = x :: r.filter (· ≠ stub) ∧
      (∀ y ∈ r, y ∈ live) ∧ Popped s x r s' live' ∧
      popFront 10 s .loadTail = some (s', some x) := by
  cases live with
  | nil => exact absurd hq.tail_eq (by simp)
  | cons t r =>
      have htail : s.tail = t := (Option.some.inj hq.tail_eq).symm
      by_cases hstub : t = stub
      · subst hstub
        cases r with
        | nil =>
            have hnone : s.next stub = none := hq.chain.last stub rfl
            have hempty : next s (.loadNext stub) .go = some (s, .waiting, some .empty) := by
              simp [next, hnone]
            refine Or.inl ⟨rfl, ?_⟩
            rw [popFront_goes rfl (Or.inl rfl), htail]
            exact popFront_empty hempty _
        | cons x r =>
            have hx : x ≠ stub := by
              rintro rfl
              have hnodup := hq.chain.nodup
              simp at hnodup
            have hpc : next { s with tail := x } (.loadSecond x) .go =
                takeOr { s with tail := x } x (.loadHead x) none := rfl
            rcases popFront_item hq.leave hx hpc 0 with ⟨s', live', h1, h2⟩
            have hskip : next s (.loadNext stub) .go = some (s, .skipStub x, none) := by
              simp [next, hq.next_eq]
            refine Or.inr ⟨x, r, s', live', hx, by simp, by simp [hx], fun y hy => by simp [hy],
              ⟨h1.quiet, h1.items, h1.notMem, h1.sub, h1.frame⟩, ?_⟩
            rw [popFront_goes rfl (Or.inl rfl), htail, popFront_goes hskip (Or.inl rfl),
              popFront_goes rfl (Or.inr (Or.inr rfl))]
            exact h2
      · have hpc : next s (.loadNext t) .go = takeOr s t (.loadHead t) none := if_neg hstub
        rcases popFront_item hq hstub hpc 2 with ⟨s', live', h1, h2⟩
        refine Or.inr ⟨t, r, s', live', hstub, by simp, by simp [hstub], fun y hy => by simp [hy], h1,
          ?_⟩
        rw [popFront_goes rfl (Or.inl rfl), htail]
        exact h2

theorem drain_eq {live : List Nat} {fuel : Nat} (hq : Quiet s live)
    (hfuel : (live.filter (· ≠ stub)).length < fuel) :
    drain fuel s = some (live.filter (· ≠ stub)) := by
  induction fuel generalizing s live with
  | zero => exact absurd hfuel (by omega)
  | succ fuel ih =>
      rcases popFront_spec hq with ⟨rfl, hpop⟩ | ⟨x, r, s', live', _, _, hcons, _, hp, hpop⟩
      · rw [drain, hpop]
        rfl
      · rw [hcons, List.length_cons, ← hp.items] at hfuel
        rw [drain, hpop, hcons, ← hp.items]
        simp only [ih hp.quiet (by omega), Option.map_some]

/-! ## Nothing is lost, repeated or reordered -/

structure Fifo (w : World) : Prop where
  order : results w.history <+: pushed w.history
  no_stub : stub ∉ results w.history
  stub_once : (live w.history).count stub ≤ 1
  stub_linked_once : ∀ a ∈ live w.history, ∀ b ∈ live w.history,
    w.shared.next a = some stub → w.shared.next b = some stub → a = b
  remaining : (∀ i, i ≠ 0 → w.thread i = .idle) → w.thread 0 = .waiting →
    ∃ fuel, ∀ fuel', fuel ≤ fuel' →
      drain fuel' w.shared = some ((pushed w.history).drop (results w.history).length)

/-- The items behind the results are the ones in the queue. -/
theorem Shared.pushed_append (hs : Shared s h g) :
    pushed h = results h ++ g.live.filter (· ≠ stub) := by
  rw [hs.pushed_eq, hs.entered_eq, List.filter_append, hs.results_eq]

theorem fifo_of_reachable (w : World) (hw : Reachable next Allowed init w) : Fifo w := by
  rcases sound_of_reachable hw with ⟨g, hg⟩
  have happend := hg.shared.pushed_append
  have hlive := hg.shared.live_history
  have hchain := hg.shared.chain
  refine ⟨⟨_, happend.symm⟩, ?_, ?_, ?_, ?_⟩
  · rw [hg.shared.results_eq]
    simp
  · rw [hlive]
    exact List.nodup_iff_count_le_one.mp hchain.nodup stub
  · intro a ha b hb hna hnb
    rw [hlive] at ha hb
    exact (hchain.adjacent_of_next ha hna).unique_left hchain.nodup (hchain.adjacent_of_next hb hnb)
  · intro hidle hwait
    have hquiet := hg.quiet_of_rest hidle hwait
    refine ⟨(g.live.filter (· ≠ stub)).length + 1, fun fuel' hfuel => ?_⟩
    rw [drain_eq hquiet (by omega), happend, List.drop_left]

/-- Producer 1 has linked items 5 and 6. -/
def linked : World where
  shared := ⟨Function.update init.shared.next 5 (some 6), stub, stub⟩
  thread := Function.update init.thread 1 .idle
  history := []

/-- It is about to push them. -/
def pushing : World := { linked with thread := Function.update linked.thread 1 (.clearNext ⟨5, [6]⟩) }

theorem pushing_reachable : Reachable next Allowed init pushing := by
  have hitems : ∀ i, (init.thread i).items = [] := by
    intro i
    by_cases hi : i = 0 <;> simp [init, hi, Pc.items]
  have hitems' : ∀ i, (linked.thread i).items = [] :=
    forall_update (A := fun _ (pc : Pc) => pc.items = []) rfl fun i _ => hitems i
  have hlink : Allowed init 1 (.link 5 6) :=
    ⟨by decide, by decide, fun i => by simp [hitems i]⟩
  have hpush : Allowed linked 1 (.push ⟨5, [6]⟩) := by
    refine ⟨by decide, fun x hx => ?_, fun x y hxy => ?_⟩
    · have hne : x ≠ stub := by
        rintro rfl
        exact absurd hx (by decide)
      exact ⟨hne, by simpa [linked, live, entered, passed] using hne, fun i => by simp [hitems' i]⟩
    · simp only [Batch.items, Adjacent, List.head?_cons, List.head?_nil, Option.some.injEq,
        reduceCtorEq, and_false, or_false] at hxy
      rw [← hxy.1, ← hxy.2]
      rfl
  have h1 : step next init 1 (.link 5 6) = some linked := rfl
  have h2 : step next linked 1 (.push ⟨5, [6]⟩) = some pushing := rfl
  exact (Reachable.start.move hlink h1).move hpush h2

/-- The consumer finds the queue empty before the items are linked to it; then it pops one. -/
def oneBatch : List (Nat × Act) :=
  [(1, .go), (1, .go), (0, .pop), (0, .go), (0, .go), (1, .go), (0, .pop), (0, .go), (0, .go),
    (0, .go), (0, .go), (0, .go)]

theorem fifo_of_reachable_one_batch :
    ∃ w, pushed w.history = [5, 6] ∧ results w.history = [5] ∧ Fifo w ∧
      ∃ fuel, ∀ fuel', fuel ≤ fuel' → drain fuel' w.shared = some [6] := by
  have hrun : (run next (fun _ _ a => a = .go ∨ a = .pop) pushing oneBatch).map
      (fun w => (pushed w.history, results w.history, w.thread 0, w.thread 1)) =
      some ([5, 6], [5], .waiting, .idle) := by decide
  rcases Option.map_eq_some_iff.mp hrun with ⟨w, hw, hinfo⟩
  simp only [Prod.mk.injEq] at hinfo
  rcases hinfo with ⟨hpushed, hresults, hwait, hone⟩
  have hreach : Reachable next Allowed init w := by
    refine pushing_reachable.of_run_imp ?_ hw
    rintro w i a (rfl | rfl) <;> trivial
  have hfifo := fifo_of_reachable w hreach
  have hidle : ∀ i, i ≠ 0 → w.thread i = .idle
    | 0, h0 => absurd rfl h0
    | 1, _ => hone
    | i + 2, _ => by
        have hsched : ∀ e ∈ oneBatch, e.1 < 2 := by decide
        rw [run_thread_of_notMem (fun e he => (lt_of_lt_of_le (hsched e he) (by omega)).ne) hw]
        rfl
  refine ⟨w, hpushed, hresults, hfifo, ?_⟩
  have hrest := hfifo.remaining hidle hwait
  rw [hpushed, hresults] at hrest
  exact hrest

end BLinkTree.MPSCQueue
