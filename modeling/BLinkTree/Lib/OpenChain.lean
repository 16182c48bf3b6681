import Mathlib.Data.List.Nodup
import Mathlib.Logic.Function.Basic

/-! # Linked lists with open links

The nodes of a list are chained by next pointers that are stored after the nodes
have been appended: until then the link behind a node is open and belongs to one
linker. Links can be open at several places at once.
-/

namespace OpenChain

variable {α ι : Type}

/-- Node `b` comes right behind node `a`. -/
def Adjacent (a b : α) : List α → Prop
  | [] => False
  | x :: l => (x = a ∧ l.head? = some b) ∨ Adjacent a b l

theorem Adjacent.mem_left {a b : α} {l : List α} (h : Adjacent a b l) : a ∈ l := by
  induction l with
  | nil => exact h.elim
  | cons x l ih =>
      rcases h with ⟨rfl, _⟩ | h
      · exact List.mem_cons_self ..
      · exact List.mem_cons_of_mem _ (ih h)

theorem Adjacent.mem_right {a b : α} {l : List α} (h : Adjacent a b l) : b ∈ l := by
  induction l with
  | nil => exact h.elim
  | cons x l ih =>
      rcases h with ⟨_, h⟩ | h
      · exact List.mem_cons_of_mem _ (List.mem_of_mem_head? h)
      · exact List.mem_cons_of_mem _ (ih h)

theorem adjacent_append {a b : α} {l m : List α} : Adjacent a b (l ++ m) ↔
    Adjacent a b l ∨ (l.getLast? = some a ∧ m.head? = some b) ∨ Adjacent a b m := by
  induction l with
  | nil => simp [Adjacent]
  | cons x l ih =>
      cases l with
      | nil => simp [Adjacent]
      | cons y l =>
          rw [List.cons_append, Adjacent, ih, List.getLast?_cons_cons]
          simp only [List.cons_append, List.head?_cons, Adjacent]
          tauto

/-- The node behind `a` is unique. -/
theorem Adjacent.unique {a b c : α} {l : List α} (hl : l.Nodup) (hb : Adjacent a b l)
    (hc : Adjacent a c l) : b = c := by
  induction l with
  | nil => exact hb.elim
  | cons x l ih =>
      rw [List.nodup_cons] at hl
      rcases hb with ⟨rfl, hb⟩ | hb
      · rcases hc with ⟨_, hc⟩ | hc
        · exact Option.some.inj (hb.symm.trans hc)
        · exact absurd hc.mem_left hl.1
      · rcases hc with ⟨rfl, _⟩ | hc
        · exact absurd hb.mem_left hl.1
        · exact ih hl.2 hb hc

/-- The node in front of `b` is unique. -/
theorem Adjacent.unique_left {a b c : α} {l : List α} (hl : l.Nodup) (ha : Adjacent a c l)
    (hb : Adjacent b c l) : a = b := by
  induction l with
  | nil => exact ha.elim
  | cons x l ih =>
      rw [List.nodup_cons] at hl
      cases l with
      | nil => simp [Adjacent] at ha
      | cons y l =>
          -- the second node is nobody's successor behind it
          have hfirst : ∀ z, Adjacent z y (y :: l) → False := by
            rintro z (⟨_, hz⟩ | hz)
            · exact (List.nodup_cons.mp hl.2).1 (List.mem_of_mem_head? hz)
            · exact (List.nodup_cons.mp hl.2).1 hz.mem_right
          rcases ha with ⟨rfl, ha⟩ | ha
          · rw [List.head?_cons, Option.some.injEq] at ha
            rcases hb with ⟨rfl, _⟩ | hb
            · rfl
            · exact (hfirst b (ha ▸ hb)).elim
          · rcases hb with ⟨rfl, hb⟩ | hb
            · rw [List.head?_cons, Option.some.injEq] at hb
              exact (hfirst a (hb ▸ ha)).elim
            · exact ih hl.2 ha hb

theorem Adjacent.ne_last {a b : α} {l : List α} (hl : l.Nodup) (h : Adjacent a b l) :
    l.getLast? ≠ some a := by
  induction l with
  | nil => exact h.elim
  | cons x l ih =>
      rw [List.nodup_cons] at hl
      cases l with
      | nil => simp [Adjacent] at h
      | cons y l =>
          rw [List.getLast?_cons_cons]
          rcases h with ⟨rfl, _⟩ | h
          · exact fun hc => hl.1 (List.mem_of_mem_getLast? hc)
          · exact ih hl.2 h

/-- The pointers of `l` lead from each node to the next one, with a null pointer where the link
is open and behind the last node. -/
structure Chain (next : α → Option α) (linker : α → Option ι) (l : List α) : Prop where
  nodup : l.Nodup
  last : ∀ a, l.getLast? = some a → next a = none
  succ : ∀ a b, Adjacent a b l →
    (next a = some b ∧ linker a = none) ∨ (next a = none ∧ linker a ≠ none)
  linker_adjacent : ∀ a, linker a ≠ none → ∃ b, Adjacent a b l

variable {next next' : α → Option α} {linker : α → Option ι} {l m : List α} {a b : α}

theorem Chain.linker_eq_none (h : Chain next linker l) (ha : a ∉ l) : linker a = none := by
  by_contra hne
  rcases h.linker_adjacent a hne with ⟨b, hb⟩
  exact ha hb.mem_left

theorem Chain.linker_last (h : Chain next linker l) (ha : l.getLast? = some a) :
    linker a = none := by
  by_contra hne
  rcases h.linker_adjacent a hne with ⟨b, hb⟩
  exact hb.ne_last h.nodup ha

/-- Pointers of other nodes do not matter. -/
theorem Chain.frame (h : Chain next linker l) (hnext : ∀ a ∈ l, next' a = next a) :
    Chain next' linker l where
  nodup := h.nodup
  last := fun a ha => by rw [hnext a (List.mem_of_mem_getLast? ha), h.last a ha]
  succ := fun a b hab => by
    rw [hnext a hab.mem_left]
    exact h.succ a b hab
  linker_adjacent := h.linker_adjacent

/-- Every pointer out of a node is the link to the node behind it. -/
theorem Chain.adjacent_of_next (h : Chain next linker l) (ha : a ∈ l) (hb : next a = some b) :
    Adjacent a b l := by
  rcases List.append_of_mem ha with ⟨l₁, l₂, rfl⟩
  cases l₂ with
  | nil =>
      have hlast := h.last a (by simp)
      rw [hlast] at hb
      exact absurd hb (by simp)
  | cons y r =>
      have hadj : Adjacent a y (l₁ ++ a :: y :: r) :=
        adjacent_append.mpr (Or.inr (Or.inr (Or.inl ⟨rfl, rfl⟩)))
      rcases h.succ a y hadj with ⟨hy, _⟩ | ⟨hy, _⟩
      · rw [hy, Option.some.injEq] at hb
        exact hb ▸ hadj
      · rw [hy] at hb
        exact absurd hb (by simp)

/-- The only pointer out of the first node is the link to the second one. -/
theorem Chain.second (h : Chain next linker (a :: l)) (hb : next a = some b) :
    ∃ r, l = b :: r := by
  cases l with
  | nil => exact absurd (h.last a rfl) (by simp [hb])
  | cons y r =>
      rcases h.succ a y (Or.inl ⟨rfl, rfl⟩) with ⟨hy, _⟩ | ⟨hy, _⟩
      · rw [hy, Option.some.injEq] at hb
        exact ⟨r, by rw [hb]⟩
      · rw [hy] at hb
        exact absurd hb (by simp)

/-- Leave the first node behind. -/
theorem Chain.tail (h : Chain next linker (a :: l)) (hb : next a = some b) :
    Chain next linker l := by
  rcases h.second hb with ⟨r, rfl⟩
  have hnot := (List.nodup_cons.mp h.nodup).1
  refine ⟨(List.nodup_cons.mp h.nodup).2, fun c hc => ?_, fun c d hcd => ?_, fun c hc => ?_⟩
  · exact h.last c (by rw [List.getLast?_cons_cons]; exact hc)
  · exact h.succ c d (Or.inr hcd)
  · rcases h.linker_adjacent c hc with ⟨d, ⟨rfl, _⟩ | hd⟩
    · rcases h.succ a b (Or.inl ⟨rfl, rfl⟩) with ⟨_, hno⟩ | ⟨hno, _⟩
      · exact absurd hno hc
      · rw [hno] at hb
        exact absurd hb (by simp)
    · exact ⟨d, hd⟩

variable [DecidableEq α]

/-- Store an open link. -/
theorem Chain.fill (h : Chain next linker l) (ha : linker a ≠ none) (hab : Adjacent a b l) :
    Chain (Function.update next a (some b)) (Function.update linker a none) l where
  nodup := h.nodup
  last := by
    intro c hc
    have hne : c ≠ a := by
      rintro rfl
      exact hab.ne_last h.nodup hc
    rw [Function.update_of_ne hne]
    exact h.last c hc
  succ := by
    intro c d hcd
    by_cases hc : c = a
    · subst hc
      rw [Function.update_self, Function.update_self, hab.unique h.nodup hcd]
      exact Or.inl ⟨rfl, rfl⟩
    · rw [Function.update_of_ne hc, Function.update_of_ne hc]
      exact h.succ c d hcd
  linker_adjacent := by
    intro c hc
    by_cases hca : c = a
    · subst hca
      exact ⟨b, hab⟩
    · rw [Function.update_of_ne hca] at hc
      exact h.linker_adjacent c hc

/-- Append linked nodes; the link behind the old last node is open. -/
theorem Chain.append (h : Chain next linker l) (i : ι) (ha : l.getLast? = some a)
    (hm : m ≠ []) (hnodup : m.Nodup) (hdisj : ∀ x ∈ m, x ∉ l)
    (hlink : ∀ x y, Adjacent x y m → next x = some y)
    (hlast : ∀ x, m.getLast? = some x → next x = none) :
    Chain next (Function.update linker a (some i)) (l ++ m) where
  nodup := by
    rw [List.nodup_append]
    exact ⟨h.nodup, hnodup, fun x hx y hy hxy => hdisj y hy (hxy ▸ hx)⟩
  last := by
    intro c hc
    rw [List.getLast?_append_of_ne_nil _ hm] at hc
    exact hlast c hc
  succ := by
    intro c d hcd
    rcases adjacent_append.mp hcd with hcd | ⟨hc, hd⟩ | hcd
    · have hne : c ≠ a := by
        rintro rfl
        exact hcd.ne_last h.nodup ha
      rw [Function.update_of_ne hne]
      exact h.succ c d hcd
    · rw [ha, Option.some.injEq] at hc
      rw [← hc, Function.update_self]
      exact Or.inr ⟨h.last a ha, by simp⟩
    · have hcl : c ∉ l := hdisj c hcd.mem_left
      have hne : c ≠ a := by
        rintro rfl
        exact hcl (List.mem_of_mem_getLast? ha)
      rw [Function.update_of_ne hne]
      exact Or.inl ⟨hlink c d hcd, h.linker_eq_none hcl⟩
  linker_adjacent := by
    intro c hc
    by_cases hca : c = a
    · obtain ⟨b, hb⟩ : ∃ b, m.head? = some b := by
        cases m with
        | nil => exact absurd rfl hm
        | cons b m => exact ⟨b, rfl⟩
      exact ⟨b, adjacent_append.mpr (Or.inr (Or.inl ⟨hca ▸ ha, hb⟩))⟩
    · rw [Function.update_of_ne hca] at hc
      rcases h.linker_adjacent c hc with ⟨b, hb⟩
      exact ⟨b, adjacent_append.mpr (Or.inl hb)⟩

end OpenChain
