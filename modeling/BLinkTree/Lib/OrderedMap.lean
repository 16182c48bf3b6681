import Mathlib.Algebra.Order.Ring.Int
import Mathlib.Data.List.Basic
import Mathlib.Tactic.Common

/-! # Strictly ordered association lists

A finite map is kept as a list of bindings in strictly increasing key order.
Insertion either keeps a present key (`insertIfAbsent`) or places a new binding
in front of the first key that is not below it (`insertNew`). The localisation
lemmas say that an update of a concatenation is an update of the one block whose
neighbours lie strictly on the two sides of the key.
-/

namespace OrderedMap

variable {κ β : Type*} [LinearOrder κ]

/-- Strictly increasing in the key. -/
def Sorted (l : List (κ × β)) : Prop := l.Pairwise fun a b => a.1 < b.1

/-- The binding of `k`, if there is one. -/
def get? (k : κ) (l : List (κ × β)) : Option β :=
  (l.find? fun e => decide (e.1 = k)).map Prod.snd

/-- Place `(k, v)` in front of the first binding whose key is not below `k`. -/
def insertNew (k : κ) (v : β) : List (κ × β) → List (κ × β)
  | [] => [(k, v)]
  | e :: l => if e.1 < k then e :: insertNew k v l else (k, v) :: e :: l

/-- A present key keeps its binding. -/
def insertIfAbsent (k : κ) (v : β) (l : List (κ × β)) : List (κ × β) :=
  if k ∈ l.map Prod.fst then l else insertNew k v l

/-- Only the binding of `k` changes, and only when there is one. -/
def replace (k : κ) (v : β) (l : List (κ × β)) : List (κ × β) :=
  l.map fun e => if e.1 = k then (k, v) else e

/-! ## Membership -/

@[simp] theorem mem_insertNew {k : κ} {v : β} {l : List (κ × β)} {e : κ × β} :
    e ∈ insertNew k v l ↔ e = (k, v) ∨ e ∈ l := by
  induction l with
  | nil => simp [insertNew]
  | cons a l ih =>
      simp only [insertNew]
      split
      · simp only [List.mem_cons, ih]
        tauto
      · simp

@[simp] theorem length_insertNew (k : κ) (v : β) (l : List (κ × β)) :
    (insertNew k v l).length = l.length + 1 := by
  induction l with
  | nil => simp [insertNew]
  | cons a l ih =>
      simp only [insertNew]
      split <;> simp [ih]

@[simp] theorem map_fst_replace (k : κ) (v : β) (l : List (κ × β)) :
    (replace k v l).map Prod.fst = l.map Prod.fst := by
  induction l with
  | nil => rfl
  | cons a l ih =>
      simp only [replace, List.map_cons, List.cons.injEq] at ih ⊢
      refine ⟨?_, ih⟩
      split <;> simp_all

theorem replace_of_notMem {k : κ} {v : β} {l : List (κ × β)} (h : k ∉ l.map Prod.fst) :
    replace k v l = l := by
  induction l with
  | nil => rfl
  | cons a l ih =>
      simp only [List.map_cons, List.mem_cons, not_or] at h
      simp only [replace, List.map_cons, List.cons.injEq] at ih ⊢
      exact ⟨by rw [if_neg (fun e => h.1 e.symm)], ih h.2⟩

theorem replace_append (k : κ) (v : β) (l m : List (κ × β)) :
    replace k v (l ++ m) = replace k v l ++ replace k v m := by
  simp [replace]

/-! ## Order -/

theorem sorted_nil : Sorted ([] : List (κ × β)) := List.Pairwise.nil

theorem Sorted.append {l m : List (κ × β)} (hl : Sorted l) (hm : Sorted m)
    (h : ∀ a ∈ l, ∀ b ∈ m, a.1 < b.1) : Sorted (l ++ m) :=
  List.pairwise_append.mpr ⟨hl, hm, h⟩

theorem sorted_append {l m : List (κ × β)} :
    Sorted (l ++ m) ↔ Sorted l ∧ Sorted m ∧ ∀ a ∈ l, ∀ b ∈ m, a.1 < b.1 :=
  List.pairwise_append

theorem sorted_cons {e : κ × β} {l : List (κ × β)} :
    Sorted (e :: l) ↔ (∀ b ∈ l, e.1 < b.1) ∧ Sorted l :=
  List.pairwise_cons

theorem Sorted.insertNew {k : κ} {v : β} {l : List (κ × β)} (hl : Sorted l)
    (hk : k ∉ l.map Prod.fst) : Sorted (insertNew k v l) := by
  induction l with
  | nil => simp [OrderedMap.insertNew, Sorted]
  | cons a l ih =>
      obtain ⟨ha, hl⟩ := sorted_cons.mp hl
      simp only [List.map_cons, List.mem_cons, not_or] at hk
      simp only [OrderedMap.insertNew]
      split
      next hlt =>
        refine sorted_cons.mpr ⟨?_, ih hl hk.2⟩
        intro b hb
        rcases mem_insertNew.mp hb with rfl | hb
        · exact hlt
        · exact ha b hb
      next hlt =>
        have hka : k < a.1 := lt_of_le_of_ne (not_lt.mp hlt) hk.1
        refine sorted_cons.mpr ⟨?_, sorted_cons.mpr ⟨ha, hl⟩⟩
        intro b hb
        rcases List.mem_cons.mp hb with rfl | hb
        · exact hka
        · exact hka.trans (ha b hb)

theorem sublist_insertNew (k : κ) (v : β) (l : List (κ × β)) : l.Sublist (insertNew k v l) := by
  induction l with
  | nil => exact List.nil_sublist _
  | cons a l ih =>
      simp only [OrderedMap.insertNew]
      split
      · exact ih.cons_cons a
      · exact List.sublist_cons_self _ _

/-- A key that can be inserted was not there. -/
theorem Sorted.ne_of_insertNew {k : κ} {v : β} {l : List (κ × β)}
    (h : Sorted (OrderedMap.insertNew k v l)) {e : κ × β} (he : e ∈ l) : e.1 ≠ k := by
  induction l with
  | nil => simp at he
  | cons a l ih =>
      simp only [OrderedMap.insertNew] at h
      split at h
      next hlt =>
        rcases List.mem_cons.mp he with rfl | he
        · exact hlt.ne
        · exact ih (sorted_cons.mp h).2 he
      next hge => exact ((sorted_cons.mp h).1 e he).ne'

theorem Sorted.insertIfAbsent {k : κ} {v : β} {l : List (κ × β)} (hl : Sorted l) :
    Sorted (insertIfAbsent k v l) := by
  unfold OrderedMap.insertIfAbsent
  split
  · exact hl
  · exact hl.insertNew ‹_›

theorem Sorted.replace {k : κ} {v : β} {l : List (κ × β)} (hl : Sorted l) :
    Sorted (replace k v l) := by
  have hkeys : ∀ m : List (κ × β), Sorted m ↔ (m.map Prod.fst).Pairwise (· < ·) :=
    fun m => List.pairwise_map.symm
  rw [hkeys, map_fst_replace]
  exact (hkeys l).mp hl

/-! ## Localisation -/

theorem insertNew_append_right {k : κ} {v : β} {l m : List (κ × β)}
    (h : ∀ e ∈ l, e.1 < k) : insertNew k v (l ++ m) = l ++ insertNew k v m := by
  induction l with
  | nil => rfl
  | cons a l ih =>
      simp only [List.cons_append, insertNew, if_pos (h a (by simp))]
      rw [ih fun e he => h e (by simp [he])]

theorem insertNew_append_left {k : κ} {v : β} {l m : List (κ × β)}
    (h : ∀ e ∈ m, k < e.1) : insertNew k v (l ++ m) = insertNew k v l ++ m := by
  induction l with
  | nil =>
      cases m with
      | nil => rfl
      | cons b m =>
          have hb : ¬ b.1 < k := not_lt.mpr (h b (by simp)).le
          simp [insertNew, hb]
  | cons a l ih =>
      simp only [List.cons_append, insertNew, ih]
      split <;> rfl

/-- A position that separates the smaller keys from the others is where the new
binding goes. -/
theorem insertNew_eq_of_split {k : κ} {v : β} {l m : List (κ × β)}
    (hl : ∀ e ∈ l, e.1 < k) (hm : ∀ e ∈ m, k ≤ e.1) :
    insertNew k v (l ++ m) = l ++ (k, v) :: m := by
  rw [insertNew_append_right hl]
  cases m with
  | nil => rfl
  | cons b m => simp [insertNew, not_lt.mpr (hm b (by simp))]

theorem notMem_fst_of_lt {k : κ} {l : List (κ × β)} (h : ∀ e ∈ l, e.1 < k) :
    k ∉ l.map Prod.fst := by
  simp only [List.mem_map, not_exists, not_and]
  exact fun e he heq => (h e he).ne heq

theorem notMem_fst_of_gt {k : κ} {l : List (κ × β)} (h : ∀ e ∈ l, k < e.1) :
    k ∉ l.map Prod.fst := by
  simp only [List.mem_map, not_exists, not_and]
  exact fun e he heq => (h e he).ne' heq

/-- Insertion into a concatenation happens inside the block around the key. -/
theorem insertIfAbsent_local {k : κ} {v : β} {l m r : List (κ × β)}
    (hl : ∀ e ∈ l, e.1 < k) (hr : ∀ e ∈ r, k < e.1) :
    insertIfAbsent k v (l ++ (m ++ r)) = l ++ (insertIfAbsent k v m ++ r) := by
  have hkl := notMem_fst_of_lt hl
  have hkr := notMem_fst_of_gt hr
  unfold insertIfAbsent
  by_cases hk : k ∈ m.map Prod.fst
  · rw [if_pos hk, if_pos (by simp only [List.map_append, List.mem_append]; tauto)]
  · rw [if_neg hk, if_neg (by simp only [List.map_append, List.mem_append]; tauto),
      insertNew_append_right hl, insertNew_append_left hr]

theorem replace_local {k : κ} {v : β} {l m r : List (κ × β)}
    (hl : ∀ e ∈ l, e.1 < k) (hr : ∀ e ∈ r, k < e.1) :
    replace k v (l ++ (m ++ r)) = l ++ (replace k v m ++ r) := by
  rw [replace_append, replace_append, replace_of_notMem (notMem_fst_of_lt hl),
    replace_of_notMem (notMem_fst_of_gt hr)]

/-! ## Lookup -/

@[simp] theorem get?_nil (k : κ) : get? k ([] : List (κ × β)) = none := rfl

theorem get?_cons (k : κ) (e : κ × β) (l : List (κ × β)) :
    get? k (e :: l) = if e.1 = k then some e.2 else get? k l := by
  unfold get?
  by_cases h : e.1 = k <;> simp [h]

theorem get?_eq_none_iff {k : κ} {l : List (κ × β)} :
    get? k l = none ↔ k ∉ l.map Prod.fst := by
  simp only [get?, Option.map_eq_none_iff, List.find?_eq_none, decide_eq_true_eq, List.mem_map,
    not_exists, not_and]

theorem get?_eq_some_of_mem {k : κ} {v : β} {l : List (κ × β)} (hl : Sorted l)
    (h : (k, v) ∈ l) : get? k l = some v := by
  induction l with
  | nil => simp at h
  | cons a l ih =>
      obtain ⟨ha, hl⟩ := sorted_cons.mp hl
      rw [get?_cons]
      rcases List.mem_cons.mp h with rfl | h
      · simp
      · rw [if_neg (ha _ h).ne, ih hl h]

theorem mem_of_get? {k : κ} {v : β} {l : List (κ × β)} (h : get? k l = some v) :
    (k, v) ∈ l := by
  induction l with
  | nil => simp at h
  | cons a l ih =>
      rw [get?_cons] at h
      split at h
      · obtain ⟨a1, a2⟩ := a
        simp_all
      · exact List.mem_cons_of_mem _ (ih h)

theorem get?_insertNew {k q : κ} {v : β} {l : List (κ × β)} (hk : k ∉ l.map Prod.fst) :
    get? q (insertNew k v l) = if q = k then some v else get? q l := by
  induction l with
  | nil => simp [insertNew, get?_cons, eq_comm]
  | cons a l ih =>
      simp only [List.map_cons, List.mem_cons, not_or] at hk
      simp only [insertNew]
      split
      · rw [get?_cons, ih hk.2, get?_cons]
        split <;> split <;> simp_all
      · rw [get?_cons]
        simp [eq_comm]

/-- Insertion adds the binding exactly when the key was absent. -/
theorem get?_insertIfAbsent (k q : κ) (v : β) (l : List (κ × β)) :
    get? q (insertIfAbsent k v l) =
      if q = k ∧ get? k l = none then some v else get? q l := by
  unfold insertIfAbsent
  split
  next h =>
    have hs : get? k l ≠ none := fun hn => get?_eq_none_iff.mp hn h
    simp [hs]
  next h =>
    rw [get?_insertNew h]
    simp [get?_eq_none_iff.mpr h]

/-- Replacement changes the binding of `k` alone, and only if there is one. -/
theorem get?_replace (k q : κ) (v : β) (l : List (κ × β)) :
    get? q (replace k v l) = if q = k ∧ get? k l ≠ none then some v else get? q l := by
  induction l with
  | nil => simp [replace]
  | cons a l ih =>
      have hstep : replace k v (a :: l) = (if a.1 = k then (k, v) else a) :: replace k v l := rfl
      rw [hstep, get?_cons, ih, get?_cons, get?_cons]
      by_cases hak : a.1 = k
      · by_cases hq : q = k
        · simp [hak, hq]
        · simp [hak, hq, Ne.symm hq]
      · by_cases hq : q = k
        · subst hq
          simp [hak]
        · simp [hak, hq]

/-! ## Grouping -/

/-- Append `x` to the list of `k`, which is empty when `k` is new. -/
def pushBack (k : κ) (x : β) (m : List (κ × List β)) : List (κ × List β) :=
  (insertIfAbsent k [] m).map fun e => if e.1 = k then (e.1, e.2 ++ [x]) else e

/-- The lists of `m` are the parts of `l` with equal `f`. -/
structure Groups (f : β → κ) (l : List β) (m : List (κ × List β)) : Prop where
  sorted : Sorted m
  filter : ∀ e ∈ m, e.2 = l.filter fun x => decide (f x = e.1)
  mem_keys : ∀ x ∈ l, f x ∈ m.map Prod.fst

theorem keys_pushBack (k : κ) (x : β) (m : List (κ × List β)) :
    (pushBack k x m).map Prod.fst = (insertIfAbsent k [] m).map Prod.fst := by
  unfold pushBack
  rw [List.map_map]
  apply List.map_congr_left
  intro e _
  simp only [Function.comp_apply]
  split <;> rfl

theorem mem_insertIfAbsent {k : κ} {v : β} {l : List (κ × β)} {e : κ × β} :
    e ∈ insertIfAbsent k v l ↔ e ∈ l ∨ e = (k, v) ∧ k ∉ l.map Prod.fst := by
  unfold insertIfAbsent
  split
  next h => simp [h]
  next h =>
    rw [mem_insertNew]
    simp only [h, not_false_eq_true, and_true]
    exact or_comm

variable {f : β → κ} {l : List β} {m : List (κ × List β)}

theorem Groups.pushBack (h : Groups f l m) (x : β) :
    Groups f (l ++ [x]) (pushBack (f x) x m) := by
  have hkeys := keys_pushBack (f x) x m
  have hold : ∀ {k : κ}, k ∈ m.map Prod.fst ∨ k = f x →
      k ∈ (OrderedMap.pushBack (f x) x m).map Prod.fst := by
    intro k hk
    rw [hkeys, List.mem_map]
    by_cases hm : k ∈ m.map Prod.fst
    · rcases List.mem_map.mp hm with ⟨e, he, rfl⟩
      exact ⟨e, mem_insertIfAbsent.mpr (Or.inl he), rfl⟩
    · obtain rfl := hk.resolve_left hm
      exact ⟨(f x, []), mem_insertIfAbsent.mpr (Or.inr ⟨rfl, hm⟩), rfl⟩
  refine ⟨?_, ?_, ?_⟩
  · have hs : Sorted (OrderedMap.insertIfAbsent (f x) [] m) := h.sorted.insertIfAbsent
    have hpair := List.pairwise_map.mpr hs
    rw [← hkeys] at hpair
    exact List.pairwise_map.mp hpair
  · intro e he
    rcases List.mem_map.mp he with ⟨e', he', rfl⟩
    rw [List.filter_append]
    rcases mem_insertIfAbsent.mp he' with hmem | ⟨rfl, hnew⟩
    · rw [apply_ite Prod.snd, apply_ite Prod.fst, ite_self, ← h.filter e' hmem]
      by_cases hk : e'.1 = f x
      · simp [hk]
      · simp [hk, Ne.symm hk]
    · -- no element of `l` has the new key
      have hnil : l.filter (fun y => decide (f y = f x)) = [] := by
        rw [List.filter_eq_nil_iff]
        intro y hy hyx
        rw [← of_decide_eq_true hyx] at hnew
        exact hnew (h.mem_keys y hy)
      simp [hnil]
  · intro y hy
    rcases List.mem_append.mp hy with hy | hy
    · exact hold (Or.inl (h.mem_keys y hy))
    · rw [List.mem_singleton.mp hy]
      exact hold (Or.inr rfl)

/-- Pushing the elements one after the other groups them. -/
theorem groups_foldl (f : β → κ) (l : List β) :
    Groups f l (l.foldl (fun m x => OrderedMap.pushBack (f x) x m) []) := by
  have hgen : ∀ (l pre : List β) (m : List (κ × List β)), Groups f pre m →
      Groups f (pre ++ l) (l.foldl (fun m x => OrderedMap.pushBack (f x) x m) m) := by
    intro l
    induction l with
    | nil =>
        intro pre m h
        rw [List.append_nil]
        exact h
    | cons x l ih =>
        intro pre m h
        have := ih (pre ++ [x]) _ (h.pushBack x)
        rwa [List.append_assoc] at this
  exact hgen l [] [] ⟨sorted_nil, by simp, by simp⟩

theorem Groups.mem_iff (h : Groups f l m) {x : β} : x ∈ m.flatMap Prod.snd ↔ x ∈ l := by
  rw [List.mem_flatMap]
  constructor
  · rintro ⟨e, he, hx⟩
    rw [h.filter e he] at hx
    exact (List.mem_filter.mp hx).1
  · intro hx
    rcases List.mem_map.mp (h.mem_keys x hx) with ⟨e, he, hk⟩
    refine ⟨e, he, ?_⟩
    rw [h.filter e he]
    exact List.mem_filter.mpr ⟨hx, decide_eq_true hk.symm⟩

/-- The groups one after the other are a stable sort by `f`. -/
theorem Groups.pairwise (h : Groups f l m) {r : β → β → Prop} (hr : l.Pairwise r) :
    (m.flatMap Prod.snd).Pairwise fun a b => f a < f b ∨ f a = f b ∧ r a b := by
  have hkey : ∀ e ∈ m, ∀ x ∈ e.2, f x = e.1 := by
    intro e he x hx
    rw [h.filter e he] at hx
    exact of_decide_eq_true (List.mem_filter.mp hx).2
  apply List.pairwise_flatMap.mpr
  refine ⟨fun e he => ?_, ?_⟩
  · have hpart : e.2.Pairwise r := by
      rw [h.filter e he]
      exact hr.filter _
    apply hpart.imp_of_mem
    intro a b ha hb hab
    exact Or.inr ⟨(hkey e he a ha).trans (hkey e he b hb).symm, hab⟩
  · apply h.sorted.imp_of_mem
    intro e e' he he' hlt a ha b hb
    rw [hkey e he a ha, hkey e' he' b hb]
    exact Or.inl hlt

theorem Groups.perm (h : Groups f l m) {r : β → β → Prop} (hr : l.Pairwise r)
    (hirr : ∀ x, ¬ r x x) : (m.flatMap Prod.snd).Perm l := by
  have hne : ∀ a b, r a b → a ≠ b := by
    rintro a b hab rfl
    exact hirr a hab
  rw [List.perm_ext_iff_of_nodup _ (hr.imp fun {a b} => hne a b)]
  · exact fun x => h.mem_iff
  · apply (h.pairwise hr).imp
    rintro a b (hlt | ⟨_, hab⟩)
    · rintro rfl
      exact lt_irrefl _ hlt
    · exact hne a b hab

end OrderedMap
