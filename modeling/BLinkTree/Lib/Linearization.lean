import Mathlib.Logic.Function.Basic

/-! # Atomic objects and their histories

An object is a state with operations that happen at once. A history records when a
call starts, when it takes effect and when it returns. It is legal when every call
takes effect once between its start and its return, with a result the object allows
at that moment.
-/

namespace Linearization

variable {ι σ op ρ : Type}

structure Object (σ op ρ : Type) where
  init : σ
  apply : σ → op → σ
  allows : σ → op → ρ → Prop

inductive Event (op ρ : Type) where
  | invoke (o : op)
  | effect (o : op) (r : ρ)
  | ret (o : op) (r : ρ)
  deriving DecidableEq

/-- Where a thread is in its call. -/
inductive Status (op ρ : Type) where
  | idle
  | called (o : op)
  | applied (o : op) (r : ρ)

namespace Event

def after : Event op ρ → Status op ρ
  | invoke o => .called o
  | effect o r => .applied o r
  | ret _ _ => .idle

def act (O : Object σ op ρ) (s : σ) : Event op ρ → σ
  | effect o _ => O.apply s o
  | _ => s

/-- The thread may have this event now. -/
def Enabled (O : Object σ op ρ) (s : σ) (x : Status op ρ) : Event op ρ → Prop
  | invoke _ => x = .idle
  | effect o r => x = .called o ∧ O.allows s o r
  | ret o r => x = .applied o r

end Event

/-- The state of the object after a history. -/
def state (O : Object σ op ρ) : List (ι × Event op ρ) → σ
  | [] => O.init
  | (_, e) :: h => e.act O (state O h)

/-- What a call establishes and no call destroys holds ever after. -/
theorem persists {O : Object σ op ρ} {h : List (ι × Event op ρ)} {i : ι} {o : op} {r : ρ}
    {Q : σ → Prop} (hkeep : ∀ s o', Q s → Q (O.apply s o')) (hest : ∀ s, Q (O.apply s o))
    (hm : (i, Event.effect o r) ∈ h) : Q (state O h) := by
  induction h with
  | nil => simp at hm
  | cons a h ih =>
      obtain ⟨j, e⟩ := a
      rcases List.mem_cons.mp hm with heq | hold
      · obtain ⟨rfl, rfl⟩ := Prod.mk.inj heq
        exact hest _
      · have hq := ih hold
        cases e with
        | invoke o' => exact hq
        | effect o' r' => exact hkeep _ _ hq
        | ret o' r' => exact hq

variable [DecidableEq ι]

def status : List (ι × Event op ρ) → ι → Status op ρ
  | [], _ => .idle
  | (j, e) :: h, i => if j = i then e.after else status h i

def Legal (O : Object σ op ρ) : List (ι × Event op ρ) → Prop
  | [] => True
  | (i, e) :: h => e.Enabled O (state O h) (status h i) ∧ Legal O h

variable {O : Object σ op ρ} {h : List (ι × Event op ρ)} {i : ι} {o : op} {r : ρ}

theorem effect_mem_of_status (hs : status h i = .applied o r) : (i, Event.effect o r) ∈ h := by
  induction h with
  | nil => simp [status] at hs
  | cons a h ih =>
      obtain ⟨j, e⟩ := a
      by_cases hj : j = i
      · subst hj
        simp only [status, if_true] at hs
        cases e with
        | invoke o' => simp [Event.after] at hs
        | effect o' r' =>
            simp only [Event.after, Status.applied.injEq] at hs
            simp [hs.1, hs.2]
        | ret o' r' => simp [Event.after] at hs
      · simp only [status, if_neg hj] at hs
        exact List.mem_cons_of_mem _ (ih hs)

/-- A call that returned has taken effect. -/
theorem Legal.effect_of_ret (hl : Legal O h) (hm : (i, Event.ret o r) ∈ h) :
    (i, Event.effect o r) ∈ h := by
  induction h with
  | nil => simp at hm
  | cons a h ih =>
      obtain ⟨he, hl⟩ := hl
      rcases List.mem_cons.mp hm with rfl | hm
      · exact List.mem_cons_of_mem _ (effect_mem_of_status he)
      · exact List.mem_cons_of_mem _ (ih hl hm)

theorem Legal.suffix {h' : List (ι × Event op ρ)} (hl : Legal O (h' ++ h)) : Legal O h := by
  induction h' with
  | nil => exact hl
  | cons a h' ih => exact ih hl.2

/-! ## Implementations -/

/-- What a step of an implementation may do, seen from the object. -/
def Simulates (O : Object σ op ρ) (s s' : σ) (x x' : Status op ρ) : Option (Event op ρ) → Prop
  | none => s' = s ∧ x' = x
  | some e => e.Enabled O s x ∧ s' = e.act O s ∧ x' = e.after

/-- The history is legal and explains the implementation. -/
structure Tracks (O : Object σ op ρ) (h : List (ι × Event op ρ)) (s : σ)
    (x : ι → Status op ρ) : Prop where
  legal : Legal O h
  state_eq : state O h = s
  status_eq : ∀ i, status h i = x i

theorem Tracks.init : Tracks O [] O.init fun _ : ι => .idle :=
  ⟨trivial, rfl, fun _ => rfl⟩

/-- Steps that simulate the object keep the history legal. -/
theorem Tracks.step {s s' : σ} {x : ι → Status op ρ} {y : Status op ρ} {e : Option (Event op ρ)}
    (ht : Tracks O h s x) (hs : Simulates O s s' (x i) y e) :
    Tracks O ((e.map fun e => (i, e)).toList ++ h) s' (Function.update x i y) := by
  obtain ⟨h1, h2, h3⟩ := ht
  cases e with
  | none =>
      obtain ⟨rfl, rfl⟩ := hs
      rw [Function.update_eq_self]
      exact ⟨h1, h2, h3⟩
  | some e =>
      obtain ⟨he, rfl, rfl⟩ := hs
      refine ⟨⟨?_, h1⟩, ?_, ?_⟩
      · show e.Enabled O (state O h) (status h i)
        rw [h2, h3 i]
        exact he
      · exact congrArg (fun s => e.act O s) h2
      · intro j
        by_cases hj : j = i
        · subst hj
          simp [status]
        · rw [Function.update_of_ne hj, ← h3 j]
          exact if_neg (Ne.symm hj)

end Linearization
