/-!
# Tallies

A tally counts things one by one. It lists those that occurred, each once and in the order of their
ranking.
-/

namespace LogicalForm
set_option autoImplicit false

/-- A strict order in which of two different things one comes first. -/
structure Ranking (α : Type) where
  before : α → α → Bool
  irrefl : ∀ a, before a a = false
  trans : ∀ {a b c}, before a b = true → before b c = true → before a c = true
  total : ∀ {a b}, a ≠ b → before a b = true ∨ before b a = true

namespace Ranking

variable {α β : Type}

def number : Ranking Nat where
  before m n := decide (m < n)
  irrefl n := decide_eq_false (Nat.lt_irrefl n)
  trans h h' := decide_eq_true (Nat.lt_trans (of_decide_eq_true h) (of_decide_eq_true h'))
  total h := (Nat.lt_or_gt_of_ne h).imp decide_eq_true decide_eq_true

def text : Ranking String where
  before s t := decide (s < t)
  irrefl s := decide_eq_false (String.lt_irrefl s)
  trans h h' := decide_eq_true (String.lt_trans (of_decide_eq_true h) (of_decide_eq_true h'))
  total {s t} h := by
    simp only [decide_eq_true_eq]
    by_cases hLess : s < t
    · exact Or.inl hLess
    · refine Or.inr (Decidable.byContradiction fun hMore => h ?_)
      exact String.le_antisymm (String.not_lt.mp hMore) (String.not_lt.mp hLess)

def pair [DecidableEq α] (first : Ranking α) (second : Ranking β) : Ranking (α × β) where
  before p q := first.before p.1 q.1 || decide (p.1 = q.1) && second.before p.2 q.2
  irrefl p := by simp [first.irrefl, second.irrefl]
  trans {p q r} h h' := by
    simp only [Bool.or_eq_true, Bool.and_eq_true, decide_eq_true_eq] at h h' ⊢
    rcases h with h | ⟨hSame, h⟩ <;> rcases h' with h' | ⟨hSame', h'⟩
    · exact Or.inl (first.trans h h')
    · exact Or.inl (hSame' ▸ h)
    · exact Or.inl (hSame ▸ h')
    · exact Or.inr ⟨hSame.trans hSame', second.trans h h'⟩
  total {p q} h := by
    simp only [Bool.or_eq_true, Bool.and_eq_true, decide_eq_true_eq]
    by_cases hFirst : p.1 = q.1
    · have hSecond : p.2 ≠ q.2 := fun hSecond => h (Prod.ext hFirst hSecond)
      exact (second.total hSecond).imp (fun hLess => Or.inr ⟨hFirst, hLess⟩) fun hMore => Or.inr ⟨hFirst.symm, hMore⟩
    · exact (first.total hFirst).imp Or.inl Or.inl

def byKey (key : α → β) (hKey : ∀ {a b}, key a = key b → a = b) (ranking : Ranking β) : Ranking α where
  before a b := ranking.before (key a) (key b)
  irrefl a := ranking.irrefl (key a)
  trans := ranking.trans
  total h := ranking.total fun hSame => h (hKey hSame)

end Ranking

structure Tally {α : Type} (ranking : Ranking α) where
  entries : List (α × Nat)
  ordered : entries.Pairwise fun entry later => ranking.before entry.1 later.1 = true

namespace Tally

variable {α : Type} [DecidableEq α] {ranking : Ranking α}

def empty : Tally ranking := ⟨[], .nil⟩

/-- The entries with one more under a key, which is put in its place if it is new. -/
def countIn (ranking : Ranking α) (key : α) : List (α × Nat) → List (α × Nat)
  | [] => [(key, 1)]
  | (other, count) :: rest =>
    if key = other then (other, count + 1) :: rest
    else if ranking.before key other then (key, 1) :: (other, count) :: rest
    else (other, count) :: countIn ranking key rest

theorem mem_countIn {key : α} {entries : List (α × Nat)} {entry : α × Nat}
    (h : entry ∈ countIn ranking key entries) : entry.1 = key ∨ entry ∈ entries := by
  induction entries with
  | nil => exact Or.inl (congrArg Prod.fst (List.mem_singleton.mp h))
  | cons first rest ih =>
    obtain ⟨other, count⟩ := first
    rw [countIn] at h
    split at h
    · rename_i hSame
      rcases List.mem_cons.mp h with rfl | h
      · exact Or.inl hSame.symm
      · exact Or.inr (List.mem_cons_of_mem _ h)
    · split at h
      · rcases List.mem_cons.mp h with rfl | h
        · exact Or.inl rfl
        · exact Or.inr h
      · rcases List.mem_cons.mp h with rfl | h
        · exact Or.inr List.mem_cons_self
        · exact (ih h).imp id (List.mem_cons_of_mem _)

theorem ordered_countIn {key : α} {entries : List (α × Nat)}
    (h : entries.Pairwise fun entry later => ranking.before entry.1 later.1 = true) :
    (countIn ranking key entries).Pairwise fun entry later => ranking.before entry.1 later.1 = true := by
  induction entries with
  | nil => exact List.pairwise_singleton _ _
  | cons first rest ih =>
    obtain ⟨other, count⟩ := first
    obtain ⟨hFirst, hRest⟩ := List.pairwise_cons.mp h
    rw [countIn]
    split
    · exact List.pairwise_cons.mpr ⟨hFirst, hRest⟩
    · rename_i hOther
      split
      · rename_i hBefore
        refine List.pairwise_cons.mpr ⟨?_, h⟩
        intro entry hEntry
        rcases List.mem_cons.mp hEntry with rfl | hEntry
        · exact hBefore
        · exact ranking.trans hBefore (hFirst entry hEntry)
      · rename_i hBefore
        refine List.pairwise_cons.mpr ⟨?_, ih hRest⟩
        intro entry hEntry
        rcases mem_countIn hEntry with hKey | hEntry
        · rw [hKey]
          exact (ranking.total hOther).resolve_left hBefore
        · exact hFirst entry hEntry

def add (key : α) (tally : Tally ranking) : Tally ranking :=
  ⟨countIn ranking key tally.entries, ordered_countIn tally.ordered⟩

def note (tally : Tally ranking) : Option α → Tally ranking
  | some key => tally.add key
  | none => tally

end Tally

end LogicalForm
