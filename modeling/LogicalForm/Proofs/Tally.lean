import LogicalForm.Proofs.Lists
import LogicalForm.Tally
import Mathlib.Algebra.Ring.Nat
import Mathlib.Data.List.Perm.Basic

/-!
# What a tally counts

Counting one thing more changes the count of that thing and no other. So after a whole list a tally has the counts of
its members and lists nothing else, and since each key has one place in the order, the entries do not depend on the
order in which the things were counted.
-/

namespace LogicalForm
set_option autoImplicit false

variable {α β : Type}

theorem Ranking.ne_of_before {ranking : Ranking α} {a b : α} (h : ranking.before a b = true) : a ≠ b := by
  rintro rfl
  rw [ranking.irrefl] at h
  cases h

namespace Tally

variable {ranking : Ranking α}

theorem nodup_keys (tally : Tally ranking) : (tally.entries.map Prod.fst).Nodup :=
  tally.ordered.map _ fun _ _ hBefore => Ranking.ne_of_before hBefore

theorem nodup_entries (tally : Tally ranking) : tally.entries.Nodup :=
  tally.ordered.imp fun hBefore hSame => Ranking.ne_of_before hBefore (congrArg Prod.fst hSame)

variable [DecidableEq α]

section Entries

variable {entries : List (α × Nat)}

theorem lookup_countIn (key other : α)
    (h : entries.Pairwise fun entry later => ranking.before entry.1 later.1 = true) :
    (countIn ranking key entries).lookup other =
      if other = key then some ((entries.lookup key).getD 0 + 1) else entries.lookup other := by
  induction entries with
  | nil => rw [countIn, lookup_cons_eq_ite]; rfl
  | cons first rest ih =>
    obtain ⟨listed, count⟩ := first
    obtain ⟨hFirst, hRest⟩ := List.pairwise_cons.mp h
    rw [countIn]
    split
    · rename_i hListed
      subst hListed
      by_cases hOther : other = key <;> simp [lookup_cons_eq_ite, hOther]
    · rename_i hListed
      split
      · -- A key that belongs before the first one listed is not listed at all.
        rename_i hBefore
        have hNew : rest.lookup key = none := by
          rw [List.lookup_eq_none_iff]
          intro entry hEntry
          rw [bne_iff_ne]
          exact Ranking.ne_of_before (ranking.trans hBefore (hFirst entry hEntry))
        by_cases hOther : other = key <;> simp [lookup_cons_eq_ite, hOther, hListed, hNew]
      · by_cases hOther : other = key
        · subst hOther
          simp [lookup_cons_eq_ite, ih hRest, hListed]
        · simp [lookup_cons_eq_ite, ih hRest, hOther]

theorem sum_countIn (key : α) (entries : List (α × Nat)) :
    ((countIn ranking key entries).map Prod.snd).sum = (entries.map Prod.snd).sum + 1 := by
  induction entries with
  | nil => rfl
  | cons first rest ih =>
    obtain ⟨other, count⟩ := first
    rw [countIn]
    split
    · simp only [List.map_cons, List.sum_cons]
      omega
    · split
      · simp only [List.map_cons, List.sum_cons]
        omega
      · simp only [List.map_cons, List.sum_cons, ih]
        omega

end Entries

/-- The counts are those of the members of a list. A key that does not occur is not listed. -/
structure Counts (tally : Tally ranking) (keys : List α) : Prop where
  lookup : ∀ key, tally.entries.lookup key = if keys.count key = 0 then none else some (keys.count key)
  sum : (tally.entries.map Prod.snd).sum = keys.length

namespace Counts

variable {tally tally' : Tally ranking} {keys keys' : List α}

theorem empty : (Tally.empty : Tally ranking).Counts [] := ⟨fun _ => rfl, rfl⟩

theorem add (h : tally.Counts keys) (key : α) : (tally.add key).Counts (keys ++ [key]) := by
  constructor
  · intro other
    rw [Tally.add, lookup_countIn _ _ tally.ordered, h.lookup, h.lookup, List.count_append, List.count_singleton]
    by_cases hOther : other = key
    · subst hOther
      by_cases hNone : keys.count other = 0 <;> simp [hNone]
    · simp [hOther, Ne.symm hOther]
  · rw [Tally.add, sum_countIn, h.sum, List.length_append, List.length_singleton]

theorem note (h : tally.Counts keys) (found : Option α) : (tally.note found).Counts (keys ++ found.toList) := by
  cases found with
  | none => rwa [Option.toList_none, List.append_nil]
  | some key => exact h.add key

theorem foldl_note (h : tally.Counts keys) (found : β → Option α) (bs : List β) :
    (bs.foldl (fun tally b => tally.note (found b)) tally).Counts (keys ++ bs.filterMap found) := by
  induction bs generalizing tally keys with
  | nil => rwa [List.filterMap_nil, List.append_nil]
  | cons b bs ih =>
    have hRest := ih (h.note (found b))
    rw [List.append_assoc] at hRest
    rw [List.foldl_cons, List.filterMap_cons]
    cases hFound : found b with
    | none => rwa [hFound] at hRest
    | some key => rwa [hFound] at hRest

theorem mem_entries (h : tally.Counts keys) {key : α} {count : Nat} :
    (key, count) ∈ tally.entries ↔ count = keys.count key ∧ 1 ≤ count := by
  rw [← lookup_eq_some_iff_mem tally.nodup_keys, h.lookup]
  split
  · rename_i hNone
    simp only [hNone, reduceCtorEq, false_iff, not_and]
    omega
  · simp only [Option.some.injEq]
    omega

theorem getD_lookup (h : tally.Counts keys) (key : α) : (tally.entries.lookup key).getD 0 = keys.count key := by
  rw [h.lookup]
  split
  · rename_i hNone
    exact hNone.symm
  · rfl

/-- The same things counted in another order leave the same entries. -/
theorem entries_eq_of_perm (h : tally.Counts keys) (h' : tally'.Counts keys') (hPerm : keys.Perm keys') :
    tally.entries = tally'.entries := by
  have hMembers : tally.entries.Perm tally'.entries := by
    refine (List.perm_ext_iff_of_nodup tally.nodup_entries tally'.nodup_entries).mpr ?_
    rintro ⟨key, count⟩
    rw [h.mem_entries, h'.mem_entries, hPerm.count_eq]
  refine hMembers.eq_of_pairwise ?_ tally.ordered tally'.ordered
  intro entry entry' _ _ hBefore hAfter
  exact absurd rfl (Ranking.ne_of_before (ranking.trans hBefore hAfter))

end Counts

end Tally

end LogicalForm
