import Mathlib.Data.List.Forall2
import Mathlib.Order.Lattice

/-!
# Lists

Lists that correspond member by member, lists of pairs with keys, and lists sorted by a key.
-/

namespace LogicalForm
set_option autoImplicit false

section Correspondence

variable {α β : Type} {R : α → β → Prop} {xs : List α} {ys : List β}

theorem exists_forall₂_iff :
    (∃ ys, List.Forall₂ R xs ys) ↔ ∀ x ∈ xs, ∃ y, R x y := by
  induction xs with
  | nil => simp
  | cons x xs ih =>
    rw [List.forall_mem_cons, ← ih]
    simp only [List.forall₂_cons_left_iff]
    constructor
    · rintro ⟨_, y, ys, hy, hys, _⟩
      exact ⟨⟨y, hy⟩, ys, hys⟩
    · rintro ⟨⟨y, hy⟩, ys, hys⟩
      exact ⟨_, y, ys, hy, hys, rfl⟩

theorem exists_of_mem_forall₂ (h : List.Forall₂ R xs ys) {y : β} (hy : y ∈ ys) : ∃ x ∈ xs, R x y := by
  induction h with
  | nil => cases hy
  | cons hHead _ ih =>
    rcases List.mem_cons.mp hy with rfl | hy
    · exact ⟨_, List.mem_cons_self, hHead⟩
    · obtain ⟨x, hx, hRelated⟩ := ih hy
      exact ⟨x, List.mem_cons_of_mem _ hx, hRelated⟩

/-- What corresponds to distinct things differs in what tells them apart. -/
theorem pairwise_ne_of_forall₂ {γ : Type} {key : β → γ} (h : List.Forall₂ R xs ys) (hDistinct : xs.Nodup)
    (hKey : ∀ x x' y y', R x y → R x' y' → key y = key y' → x = x') : ys.Pairwise (key · ≠ key ·) := by
  induction h with
  | nil => exact .nil
  | cons hHead hTail ih =>
    obtain ⟨hNew, hRest⟩ := List.nodup_cons.mp hDistinct
    refine .cons (fun y hy hSame => ?_) (ih hRest)
    obtain ⟨x, hx, hRelated⟩ := exists_of_mem_forall₂ hTail hy
    exact hNew (hKey _ _ _ _ hHead hRelated hSame ▸ hx)

end Correspondence

section Keys

variable {α β γ : Type}

theorem lookup_cons_eq_ite [BEq α] [LawfulBEq α] [DecidableEq α] (a key : α) (b : β) (rest : List (α × β)) :
    ((key, b) :: rest).lookup a = if a = key then some b else rest.lookup a := by
  rw [List.lookup_cons]
  by_cases h : a = key
  · simp [h]
  · simp only [beq_eq_false_iff_ne.mpr h, if_neg h]

/-- With each key listed once, what is found is what is listed. -/
theorem lookup_eq_some_iff_mem [BEq α] [LawfulBEq α] [DecidableEq α] {entries : List (α × β)}
    (h : (entries.map Prod.fst).Nodup) {a : α} {b : β} : entries.lookup a = some b ↔ (a, b) ∈ entries := by
  induction entries with
  | nil => simp
  | cons entry entries ih =>
    obtain ⟨key, found⟩ := entry
    obtain ⟨hNew, hRest⟩ := List.nodup_cons.mp h
    rw [lookup_cons_eq_ite, List.mem_cons, ← ih hRest]
    by_cases hSame : a = key
    · subst hSame
      have hAbsent : entries.lookup a ≠ some b := fun hFound =>
        hNew (List.mem_map.mpr ⟨_, (ih hRest).mp hFound, rfl⟩)
      simp [hAbsent, eq_comm]
    · simp [hSame]

theorem pairwise_mergeSort_key [LinearOrder γ] {key : α → γ} {le : α → α → Bool}
    (hKey : ∀ a b, le a b = true ↔ key a ≤ key b) (l : List α) : (l.mergeSort le).Pairwise (key · ≤ key ·) := by
  have hSorted : (l.mergeSort le).Pairwise (le · · = true) := by
    apply List.pairwise_mergeSort
    · intro a b c
      simp only [hKey]
      exact le_trans
    · intro a b
      rw [Bool.or_eq_true, hKey, hKey]
      exact le_total _ _
  exact hSorted.imp (hKey _ _).mp

end Keys

end LogicalForm
