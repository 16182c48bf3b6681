import Mathlib.Logic.Function.Basic
import Mathlib.Algebra.Order.Ring.Int

/-! # Interleaved threads over a shared state

A program is the atomic step of one thread. A world holds the shared state, the
local state of every thread and the events so far, the newest first. The condition
on the steps of a run is a parameter, so that a result may be stated for all runs or
for the runs that avoid some step.
-/

namespace Interleaving

variable {ι σ τ α ε ρ : Type}

/-- The atomic step of a thread; `none` when the thread cannot move now. -/
abbrev Program (σ τ α ε : Type) := σ → τ → α → Option (σ × τ × Option ε)

structure World (ι σ τ ε : Type) where
  shared : σ
  thread : ι → τ
  history : List (ι × ε)

variable [DecidableEq ι]

/-- Thread `i` takes a step. -/
def step (p : Program σ τ α ε) (w : World ι σ τ ε) (i : ι) (a : α) : Option (World ι σ τ ε) :=
  (p w.shared (w.thread i) a).map fun r =>
    { shared := r.1
      thread := Function.update w.thread i r.2.1
      history := (r.2.2.map fun e => (i, e)).toList ++ w.history }

/-- Follow a schedule as long as its steps meet `ok`. -/
def run (p : Program σ τ α ε) (ok : World ι σ τ ε → ι → α → Prop)
    [∀ w i a, Decidable (ok w i a)] (w : World ι σ τ ε) : List (ι × α) → Option (World ι σ τ ε)
  | [] => some w
  | (i, a) :: l => if ok w i a then (step p w i a).bind fun w' => run p ok w' l else none

/-- The sum of `f` over the steps of a schedule. -/
def tally (p : Program σ τ α ε) (f : World ι σ τ ε → ι → α → Nat) (w : World ι σ τ ε) :
    List (ι × α) → Nat
  | [] => 0
  | (i, a) :: l => f w i a + ((step p w i a).map fun w' => tally p f w' l).getD 0

/-- The worlds of the runs from `w₀` whose steps all meet `ok`. -/
inductive Reachable (p : Program σ τ α ε) (ok : World ι σ τ ε → ι → α → Prop)
    (w₀ : World ι σ τ ε) : World ι σ τ ε → Prop
  | start : Reachable p ok w₀ w₀
  | move {w w' : World ι σ τ ε} {i : ι} {a : α} : Reachable p ok w₀ w → ok w i a →
      step p w i a = some w' → Reachable p ok w₀ w'

/-- The worlds of a run from `w₀`, the last one first. -/
inductive Visits (p : Program σ τ α ε) (ok : World ι σ τ ε → ι → α → Prop)
    (w₀ : World ι σ τ ε) : List (World ι σ τ ε) → Prop
  | start : Visits p ok w₀ [w₀]
  | move {w w' : World ι σ τ ε} {ws : List (World ι σ τ ε)} {i : ι} {a : α} :
      Visits p ok w₀ (w :: ws) → ok w i a → step p w i a = some w' →
      Visits p ok w₀ (w' :: w :: ws)

/-- Follow a schedule and collect the worlds. -/
def worlds (p : Program σ τ α ε) (ok : World ι σ τ ε → ι → α → Prop)
    [∀ w i a, Decidable (ok w i a)] (ws : List (World ι σ τ ε)) (w : World ι σ τ ε) :
    List (ι × α) → Option (List (World ι σ τ ε))
  | [] => some (w :: ws)
  | (i, a) :: l =>
      if ok w i a then (step p w i a).bind fun w' => worlds p ok (w :: ws) w' l else none

/-- Run one thread alone until it has a result. -/
def solo (p : Program σ τ α ε) (result : τ → Option ρ) (a : α) : Nat → σ → τ → Option (σ × ρ)
  | 0, _, _ => none
  | fuel + 1, s, x =>
      match result x with
      | some r => some (s, r)
      | none => (p s x a).bind fun r => solo p result a fuel r.1 r.2.1

/-- Where one thread alone gets before it has a result. -/
inductive Walks (p : Program σ τ α ε) (result : τ → Option ρ) (a : α) : σ → τ → σ → τ → Prop
  | refl {s : σ} {x : τ} : Walks p result a s x s x
  | head {s s₁ s' : σ} {x x₁ x' : τ} {e : Option ε} : result x = none →
      p s x a = some (s₁, x₁, e) → Walks p result a s₁ x₁ s' x' → Walks p result a s x s' x'

variable {p : Program σ τ α ε} {ok : World ι σ τ ε → ι → α → Prop} {w₀ w w' : World ι σ τ ε}
  {i : ι} {a : α}

theorem step_eq_some (h : step p w i a = some w') :
    ∃ s x e, p w.shared (w.thread i) a = some (s, x, e) ∧
      w' = ⟨s, Function.update w.thread i x, (e.map fun e => (i, e)).toList ++ w.history⟩ := by
  unfold step at h
  cases hp : p w.shared (w.thread i) a with
  | none => simp [hp] at h
  | some r =>
      obtain ⟨s, x, e⟩ := r
      refine ⟨s, x, e, rfl, ?_⟩
      simpa [hp] using h.symm

theorem exists_step {r : σ × τ × Option ε} (h : p w.shared (w.thread i) a = some r) :
    ∃ w', step p w i a = some w' := by
  unfold step
  rw [h]
  exact ⟨_, rfl⟩

/-- What holds at the start and survives every step holds in every run. -/
theorem Reachable.invariant {P : World ι σ τ ε → Prop} (h : Reachable p ok w₀ w) (h0 : P w₀)
    (hstep : ∀ w i a w', P w → ok w i a → step p w i a = some w' → P w') : P w := by
  induction h with
  | start => exact h0
  | move _ hok hs ih => exact hstep _ _ _ _ ih hok hs

/-- Every world of a run from a reachable world is reachable. -/
theorem Visits.reachable {w₁ : World ι σ τ ε} {ws : List (World ι σ τ ε)}
    (h : Visits p ok w₁ ws) (h0 : Reachable p ok w₀ w₁) : ∀ w ∈ ws, Reachable p ok w₀ w := by
  induction h with
  | start =>
      intro w hw
      rw [List.mem_singleton.mp hw]
      exact h0
  | move _ hok hs ih =>
      intro w hw
      rcases List.mem_cons.mp hw with rfl | hw
      · exact (ih _ (List.mem_cons_self ..)).move hok hs
      · exact ih w hw

/-- A schedule whose steps meet a stronger condition. -/
theorem Reachable.of_run_imp {ok' : World ι σ τ ε → ι → α → Prop}
    [∀ w i a, Decidable (ok' w i a)] {l : List (ι × α)} (himp : ∀ w i a, ok' w i a → ok w i a)
    (hw : Reachable p ok w₀ w) (h : run p ok' w l = some w') : Reachable p ok w₀ w' := by
  induction l generalizing w with
  | nil =>
      have heq : w = w' := by simpa [run] using h
      exact heq ▸ hw
  | cons e l ih =>
      rcases e with ⟨i, a⟩
      simp only [run] at h
      split at h
      next hok =>
        rcases Option.bind_eq_some_iff.mp h with ⟨w1, h1, h2⟩
        exact ih (hw.move (himp _ _ _ hok) h1) h2
      · simp at h

theorem Reachable.of_run [∀ w i a, Decidable (ok w i a)] {l : List (ι × α)}
    (hw : Reachable p ok w₀ w) (h : run p ok w l = some w') : Reachable p ok w₀ w' :=
  hw.of_run_imp (fun _ _ _ hok => hok) h

/-- A schedule in two parts, with what is read off the world between them and the last one. -/
theorem Reachable.of_run_run [∀ w i a, Decidable (ok w i a)] {β γ : Type} {f : World ι σ τ ε → β}
    {f' : World ι σ τ ε → γ} {b : β} {b' : γ} {l l' : List (ι × α)}
    (h : (run p ok w₀ l).map f = some b)
    (h' : (run p ok w₀ l).bind (fun w => (run p ok w l').map f') = some b') :
    ∃ w w', Reachable p ok w₀ w ∧ f w = b ∧ run p ok w l' = some w' ∧ f' w' = b' := by
  rcases Option.map_eq_some_iff.mp h with ⟨w, hw, hstate⟩
  rw [hw, Option.bind_some] at h'
  rcases Option.map_eq_some_iff.mp h' with ⟨w', hw', hend⟩
  exact ⟨w, w', Reachable.start.of_run hw, hstate, hw', hend⟩

/-- An invariant about the world and what has been counted so far. -/
theorem run_counted [∀ w i a, Decidable (ok w i a)] {κ : Type}
    {f : κ → World ι σ τ ε → ι → α → Nat} {P : World ι σ τ ε → (κ → Nat) → Prop}
    (hstep : ∀ w i a w' m, P w m → ok w i a → step p w i a = some w' →
      P w' fun k => m k + f k w i a)
    {l : List (ι × α)} {m : κ → Nat} (h0 : P w m) (h : run p ok w l = some w') :
    P w' fun k => m k + tally p (f k) w l := by
  induction l generalizing w m with
  | nil =>
      have heq : w = w' := by simpa [run] using h
      simpa [tally, heq] using h0
  | cons e l ih =>
      rcases e with ⟨i, a⟩
      simp only [run] at h
      split at h
      next hok =>
        rcases Option.bind_eq_some_iff.mp h with ⟨w1, h1, h2⟩
        have hrest := ih (hstep w i a w1 m h0 hok h1) h2
        simpa [tally, h1, Nat.add_assoc] using hrest
      · simp at h

theorem run_thread_of_notMem [∀ w i a, Decidable (ok w i a)] {l : List (ι × α)} {j : ι}
    (hj : ∀ e ∈ l, e.1 ≠ j) (h : run p ok w l = some w') : w'.thread j = w.thread j := by
  induction l generalizing w with
  | nil =>
      have heq : w = w' := by simpa [run] using h
      rw [heq]
  | cons e l ih =>
      rcases e with ⟨i, a⟩
      simp only [run] at h
      split at h
      · rcases Option.bind_eq_some_iff.mp h with ⟨w1, h1, h2⟩
        rcases step_eq_some h1 with ⟨s, x, e, _, rfl⟩
        have hij : j ≠ i := (hj _ (List.mem_cons_self ..)).symm
        rw [ih (fun e he => hj e (List.mem_cons_of_mem _ he)) h2]
        exact Function.update_of_ne hij _ _
      · simp at h

/-- Two threads are back where all the others have stayed. -/
theorem thread_of_run_pair {p : Program σ τ α ε} {ok : World Nat σ τ ε → Nat → α → Prop}
    [∀ w i a, Decidable (ok w i a)] {w w' : World Nat σ τ ε} {l : List (Nat × α)} {x : τ}
    (h0 : ∀ i, w.thread i = x) (hl : ∀ e ∈ l, e.1 < 2) (h : run p ok w l = some w')
    (hzero : w'.thread 0 = x) (hone : w'.thread 1 = x) : ∀ i, w'.thread i = x
  | 0 => hzero
  | 1 => hone
  | i + 2 => by
      have hstay : ∀ e ∈ l, e.1 ≠ i + 2 := fun e he => (lt_of_lt_of_le (hl e he) (by omega)).ne
      rw [run_thread_of_notMem hstay h]
      exact h0 (i + 2)

/-! ## Conditions between two threads -/

/-- The step meets `V` itself and `S` against every other thread. -/
def Apart (V : σ → τ → α → Prop) (S : σ → τ → α → τ → Prop) (w : World ι σ τ ε) (i : ι) (a : α) :
    Prop :=
  V w.shared (w.thread i) a ∧ ∀ j, j ≠ i → S w.shared (w.thread i) a (w.thread j)

/-- The same for the first threads only. -/
def ApartBelow (V : σ → τ → α → Prop) (S : σ → τ → α → τ → Prop) (bound : Nat)
    (w : World Nat σ τ ε) (i : Nat) (a : α) : Prop :=
  i < bound ∧ V w.shared (w.thread i) a ∧
    ∀ j < bound, j ≠ i → S w.shared (w.thread i) a (w.thread j)

instance (V : σ → τ → α → Prop) (S : σ → τ → α → τ → Prop) [∀ s x a, Decidable (V s x a)]
    [∀ s x a y, Decidable (S s x a y)] (bound : Nat) (w : World Nat σ τ ε) (i : Nat) (a : α) :
    Decidable (ApartBelow V S bound w i a) :=
  inferInstanceAs (Decidable (_ ∧ _ ∧ _))

section ApartBelow

variable {V : σ → τ → α → Prop} {S : σ → τ → α → τ → Prop} {idle : τ} {bound : Nat}
  {w₀ w w' : World Nat σ τ ε} {i : Nat}

theorem ApartBelow.apart (hidle : ∀ s x a, S s x a idle)
    (hj : ∀ j, bound ≤ j → w.thread j = idle) (h : ApartBelow V S bound w i a) :
    Apart V S w i a := by
  rcases h with ⟨_, hV, hS⟩
  refine ⟨hV, fun j hne => ?_⟩
  by_cases hjb : j < bound
  · exact hS j hjb hne
  · rw [hj j (not_lt.mp hjb)]
    exact hidle _ _ _

theorem ApartBelow.stays (h : ApartBelow V S bound w i a) (hj : ∀ j, bound ≤ j → w.thread j = idle)
    (hs : step p w i a = some w') : ∀ j, bound ≤ j → w'.thread j = idle := by
  intro j hjb
  rcases step_eq_some hs with ⟨s, x, e, _, rfl⟩
  have hne : j ≠ i := (lt_of_lt_of_le h.1 hjb).ne'
  exact (Function.update_of_ne hne _ _).trans (hj j hjb)

/-- A schedule of the first threads only; the others have not started. -/
theorem Reachable.of_run_apart [∀ s x a, Decidable (V s x a)] [∀ s x a y, Decidable (S s x a y)]
    (idle : τ) (hidle : ∀ s x a, S s x a idle) (h0 : ∀ j, bound ≤ j → w₀.thread j = idle)
    {l : List (Nat × α)} (h : run p (ApartBelow V S bound) w₀ l = some w) :
    Reachable p (Apart V S) w₀ w := by
  have hw := Reachable.start.of_run h
  clear h
  have hboth : (∀ j, bound ≤ j → w.thread j = idle) ∧ Reachable p (Apart V S) w₀ w := by
    induction hw with
    | start => exact ⟨h0, .start⟩
    | move _ hok hs ih =>
        rcases ih with ⟨hj, hr⟩
        exact ⟨hok.stays hj hs, hr.move (hok.apart hidle hj) hs⟩
  exact hboth.2

/-- The same for the worlds on the way. -/
theorem Visits.of_worlds_apart [∀ s x a, Decidable (V s x a)] [∀ s x a y, Decidable (S s x a y)]
    (idle : τ) (hidle : ∀ s x a, S s x a idle) {ws ws' : List (World Nat σ τ ε)}
    (hj : ∀ j, bound ≤ j → w.thread j = idle) (hv : Visits p (Apart V S) w₀ (w :: ws))
    {l : List (Nat × α)} (h : worlds p (ApartBelow V S bound) ws w l = some ws') :
    Visits p (Apart V S) w₀ ws' := by
  induction l generalizing w ws with
  | nil =>
      obtain rfl := Option.some.inj h
      exact hv
  | cons e l ih =>
      rcases e with ⟨i, a⟩
      simp only [worlds] at h
      split at h
      next hok =>
        rcases Option.bind_eq_some_iff.mp h with ⟨w1, h1, h2⟩
        exact ih (hok.stays hj h1) (hv.move (hok.apart hidle hj) h1) h2
      · simp at h

end ApartBelow

theorem solo_of_step {result : τ → Option ρ} {s s' : σ} {x x' : τ} {e : Option ε}
    (hx : result x = none) (hs : p s x a = some (s', x', e)) {r : σ × ρ}
    (h : ∃ fuel, solo p result a fuel s' x' = some r) :
    ∃ fuel, solo p result a fuel s x = some r := by
  obtain ⟨fuel, h⟩ := h
  exact ⟨fuel + 1, by simp [solo, hx, hs, h]⟩

theorem Walks.trans {result : τ → Option ρ} {s s₁ s' : σ} {x x₁ x' : τ}
    (h : Walks p result a s x s₁ x₁) (h' : Walks p result a s₁ x₁ s' x') :
    Walks p result a s x s' x' := by
  induction h with
  | refl => exact h'
  | head hr hs _ ih => exact .head hr hs (ih h')

/-- A walk to a result. -/
theorem Walks.solo {result : τ → Option ρ} {s s' : σ} {x x' : τ} {r : ρ}
    (h : Walks p result a s x s' x') (hr : result x' = some r) :
    ∃ fuel, solo p result a fuel s x = some (s', r) := by
  induction h with
  | refl => exact ⟨1, by simp [Interleaving.solo, hr]⟩
  | head hx hs _ ih => exact solo_of_step hx hs (ih hr)

/-- A call that ends does not come to a place from which it cannot move. -/
theorem not_walks_of_solo {result : τ → Option ρ} {fuel : Nat} {s s' : σ} {x x' : τ} {r : σ × ρ}
    (h : Interleaving.solo p result a fuel s x = some r) (hr : result x' = none)
    (hs : p s' x' a = none) : ¬ Walks p result a s x s' x' := by
  intro hw
  induction hw generalizing fuel with
  | refl =>
      cases fuel with
      | zero => simp [Interleaving.solo] at h
      | succ fuel => simp [Interleaving.solo, hr, hs] at h
  | head hx hstep _ ih =>
      cases fuel with
      | zero => simp [Interleaving.solo] at h
      | succ fuel =>
          simp only [Interleaving.solo, hx, hstep, Option.bind_some] at h
          exact ih h hr hs

/-- What every step keeps holds where a call that runs alone ends. -/
theorem solo_invariant {result : τ → Option ρ} {P : σ → τ → Prop}
    (hstep : ∀ s x s' x' e, P s x → result x = none → p s x a = some (s', x', e) → P s' x')
    {fuel : Nat} {s s' : σ} {x : τ} {r : ρ} (h0 : P s x)
    (h : solo p result a fuel s x = some (s', r)) : ∃ x', P s' x' ∧ result x' = some r := by
  induction fuel generalizing s x with
  | zero => simp [solo] at h
  | succ fuel ih =>
      simp only [solo] at h
      cases hr : result x with
      | some y =>
          simp only [hr, Option.some.injEq, Prod.mk.injEq] at h
          rcases h with ⟨rfl, rfl⟩
          exact ⟨x, h0, hr⟩
      | none =>
          simp only [hr, Option.bind_eq_some_iff] at h
          rcases h with ⟨⟨s1, x1, e⟩, h1, h2⟩
          exact ih (hstep _ _ _ _ _ h0 hr h1) h2

/-- An assertion about every thread, after thread `i` moved. -/
theorem forall_update {A : ι → τ → Prop} {f : ι → τ} {x : τ} (hi : A i x)
    (hj : ∀ j, j ≠ i → A j (f j)) (j : ι) : A j (Function.update f i x j) := by
  by_cases h : j = i
  · subst h
    rw [Function.update_self]
    exact hi
  · rw [Function.update_of_ne h]
    exact hj j h

/-- A shared invariant with auxiliary state and an assertion for every thread: a step has to
give the new assertion of its thread and to keep the assertions of the others. -/
theorem Reachable.asserts {γ : Type} {I : σ → γ → Prop} {A : ι → σ → γ → τ → Prop}
    (h : Reachable p ok w₀ w) {g₀ : γ} (h0 : I w₀.shared g₀)
    (h0' : ∀ i, A i w₀.shared g₀ (w₀.thread i))
    (hstep : ∀ w i a s x e g, ok w i a → p w.shared (w.thread i) a = some (s, x, e) →
      I w.shared g → (∀ j, A j w.shared g (w.thread j)) →
      ∃ g', I s g' ∧ A i s g' x ∧ ∀ j, j ≠ i → A j s g' (w.thread j)) :
    ∃ g, I w.shared g ∧ ∀ i, A i w.shared g (w.thread i) := by
  induction h with
  | start => exact ⟨g₀, h0, h0'⟩
  | @move w w' i a _ hok hs ih =>
      rcases ih with ⟨g, hI, hA⟩
      rcases step_eq_some hs with ⟨s, x, e, hp, rfl⟩
      rcases hstep w i a s x e g hok hp hI hA with ⟨g', hI', hi, hj⟩
      refine ⟨g', hI', fun j => ?_⟩
      exact forall_update (A := fun j y => A j s g' y) hi hj j

/-- More fuel does not change the result. -/
theorem solo_mono {result : τ → Option ρ} {fuel : Nat} {s : σ} {x : τ} {r : σ × ρ}
    (h : solo p result a fuel s x = some r) {fuel' : Nat} (hf : fuel ≤ fuel') :
    solo p result a fuel' s x = some r := by
  induction fuel generalizing s x fuel' with
  | zero => simp [solo] at h
  | succ fuel ih =>
      obtain ⟨fuel', rfl⟩ : ∃ f, fuel' = f + 1 := ⟨fuel' - 1, by omega⟩
      simp only [solo] at h ⊢
      cases hr : result x with
      | some y => simpa only [hr] using h
      | none =>
          simp only [hr, Option.bind_eq_some_iff] at h ⊢
          obtain ⟨y, h1, h2⟩ := h
          exact ⟨y, h1, ih h2 (by omega)⟩

end Interleaving
