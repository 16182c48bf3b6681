import BLinkTree.Lib.Interleaving
import BLinkTree.Lib.Linearization

/-! # Threads that implement an atomic object

The proof rule for a program whose threads implement an object. There is an invariant
of the shared state with some auxiliary value, an assertion for every thread about it,
and every step keeps the invariant and all assertions and simulates the object.
-/

namespace Linearization

open Interleaving

variable {ι σ τ α op ρ μ γ : Type} [DecidableEq ι] {p : Program σ τ α (Event op ρ)}
  {ok : World ι σ τ (Event op ρ) → ι → α → Prop} {w₀ w w' : World ι σ τ (Event op ρ)}

/-- The invariant of a world with the content `m` and the call status `x` of the threads. -/
def Safe (O : Object μ op ρ) (m : σ → μ) (x : τ → Status op ρ) (I : σ → γ → Prop)
    (A : σ → γ → ι → τ → Prop) (w : World ι σ τ (Event op ρ)) : Prop :=
  ∃ g, I w.shared g ∧ (∀ i, A w.shared g i (w.thread i)) ∧
    Tracks O w.history (m w.shared) fun i => x (w.thread i)

variable {O : Object μ op ρ} {m : σ → μ} {x : τ → Status op ρ} {I : σ → γ → Prop}
  {A : σ → γ → ι → τ → Prop}

/-- What a step of thread `i` has to keep. -/
def Keeps (O : Object μ op ρ) (m : σ → μ) (x : τ → Status op ρ) (I : σ → γ → Prop)
    (A : σ → γ → ι → τ → Prop) (w : World ι σ τ (Event op ρ)) (i : ι) (s : σ) (y : τ)
    (e : Option (Event op ρ)) : Prop :=
  ∃ g, I s g ∧ A s g i y ∧ (∀ j, j ≠ i → A s g j (w.thread j)) ∧
    Simulates O (m w.shared) (m s) (x (w.thread i)) (x y) e

theorem safe_step {i : ι} {a : α} (h : Safe O m x I A w)
    (hkeep : ∀ g s y e, I w.shared g → (∀ j, A w.shared g j (w.thread j)) →
      p w.shared (w.thread i) a = some (s, y, e) → Keeps O m x I A w i s y e)
    (hs : step p w i a = some w') : Safe O m x I A w' := by
  obtain ⟨g, hI, hA, ht⟩ := h
  obtain ⟨s, y, e, hp, rfl⟩ := step_eq_some hs
  obtain ⟨g', h1, h2, h3, h4⟩ := hkeep g s y e hI hA hp
  refine ⟨g', h1, forall_update h2 h3, ?_⟩
  have hst : (fun j => x (Function.update w.thread i y j)) =
      Function.update (fun j => x (w.thread j)) i (x y) := Function.comp_update x w.thread i y
  rw [hst]
  exact ht.step h4

/-- A program whose steps keep invariant and assertions is safe in every run. -/
theorem safe_of_reachable (hw : Reachable p ok w₀ w) (h0 : Safe O m x I A w₀)
    (hkeep : ∀ w i a g s y e, ok w i a → I w.shared g → (∀ j, A w.shared g j (w.thread j)) →
      p w.shared (w.thread i) a = some (s, y, e) → Keeps O m x I A w i s y e) :
    Safe O m x I A w :=
  hw.invariant h0 fun w i a _ h hok hs => safe_step h (fun g s y e => hkeep w i a g s y e hok) hs

/-! ## Calls that run alone -/

/-- What is left to do for a thread, seen from the object. -/
def Finishes (O : Object μ op ρ) (b b' : μ) (r : ρ) : Status op ρ → Prop
  | .idle => True
  | .called o => b' = O.apply b o ∧ O.allows b o r
  | .applied _ r' => b' = b ∧ r = r'

theorem Finishes.simulates {b b' b'' : μ} {r : ρ} {y y' : Status op ρ} {e : Option (Event op ρ)}
    (hs : Simulates O b b' y y' e) (h : Finishes O b' b'' r y') (he : ∀ o r, e ≠ some (.ret o r)) :
    Finishes O b b'' r y := by
  cases e with
  | none =>
      rcases hs with ⟨rfl, rfl⟩
      exact h
  | some e =>
      cases e with
      | invoke o =>
          rcases hs with ⟨rfl, _, _⟩
          trivial
      | effect o r' =>
          rcases hs with ⟨⟨rfl, hallow⟩, rfl, rfl⟩
          rcases h with ⟨rfl, rfl⟩
          exact ⟨rfl, hallow⟩
      | ret o r' => exact absurd rfl (he o r')

/-- A call that runs alone and ends has done what the object asks for. -/
theorem solo_finishes {a : α} {result : τ → Option ρ} {P : σ → τ → Prop}
    (hstep : ∀ s y s' y' e, P s y → result y = none → p s y a = some (s', y', e) →
      P s' y' ∧ Simulates O (m s) (m s') (x y) (x y') e ∧ ∀ o r, e ≠ some (.ret o r))
    (hresult : ∀ y r, result y = some r → ∃ o, x y = .applied o r)
    {fuel : Nat} {s s' : σ} {y : τ} {r : ρ} (h0 : P s y)
    (hs : solo p result a fuel s y = some (s', r)) :
    ∃ y', P s' y' ∧ result y' = some r ∧ Finishes O (m s) (m s') r (x y) := by
  induction fuel generalizing s y with
  | zero => simp [solo] at hs
  | succ fuel ih =>
      simp only [solo] at hs
      cases hr : result y with
      | some r' =>
          simp only [hr, Option.some.injEq, Prod.mk.injEq] at hs
          rcases hs with ⟨rfl, rfl⟩
          rcases hresult y r' hr with ⟨o, ho⟩
          refine ⟨y, h0, hr, ?_⟩
          rw [ho]
          exact ⟨rfl, rfl⟩
      | none =>
          simp only [hr, Option.bind_eq_some_iff] at hs
          rcases hs with ⟨⟨s1, y1, e⟩, h1, h2⟩
          rcases hstep _ _ _ _ _ h0 hr h1 with ⟨k1, k2, k3⟩
          rcases ih k1 h2 with ⟨y', k4, k5, k6⟩
          exact ⟨y', k4, k5, k6.simulates k2 k3⟩

end Linearization
