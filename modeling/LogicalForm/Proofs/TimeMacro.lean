import LogicalForm.Proofs.Template

/-!
# The time macro and the condition of a range

A range is read twice: for its time macro, which takes the two guards, and for its condition, which takes the
dates as well. The second reading starts as the first does and asks for more, so it fails where the first
fails, and where it ends well both have found the same domain.
-/

namespace LogicalForm
set_option autoImplicit false

namespace Range

variable {d : Dialect} {lines : List String}

theorem reduce_of_timeMacro_error {cause : Mismatch} (h : timeMacro d lines = .error cause) :
    reduce d lines = .error cause := by
  rw [timeMacro] at h
  rw [reduce]
  split at h
  · cases h
    rfl
  · rename_i body start stop hLines
    cases hBounds : readBounds d start stop with
    | error found =>
      rw [hBounds] at h
      cases h
      rfl
    | ok bounds =>
      rw [hBounds] at h
      cases h

theorem timeMacro_of_reduce {reduced : Reduced} (h : reduce d lines = .ok reduced) :
    ∃ m pivot year, timeMacro d lines = .ok m ∧
      reduced.condition = .range pivot (m.domain ++ "." ++ d.timeMacroSuffix) year := by
  rw [reduce] at h
  rw [timeMacro]
  split at h
  · cases h
  · rename_i body start stop hLines
    obtain ⟨bounds, hBounds, h⟩ := bind_eq_ok.mp h
    obtain ⟨digits, _, h⟩ := bind_eq_ok.mp h
    obtain ⟨found, hFound, h⟩ := bind_eq_ok.mp h
    obtain ⟨_, rfl⟩ := condition_eq_ok_iff.mp hFound
    cases h
    rw [hBounds]
    exact ⟨_, _, _, rfl, rfl⟩

end Range

namespace Reduced

variable {d : Dialect} {block : Block} {reduced : Reduced}

theorem shape_eq_range_iff_condition (h : ofBlock d block = .ok reduced) :
    block.shape = .range ↔ ∃ pivot relation year, reduced.condition = .range pivot relation year := by
  obtain ⟨kept, hSplit, _⟩ := ofBlock_eq_ok_iff.mp h
  rw [split] at hSplit
  split at hSplit
  · rename_i hShape
    obtain ⟨_, hNone⟩ := Reduced.mk.inj (Except.ok.inj hSplit)
    simp [hShape, ← hNone]
  · rename_i hShape
    obtain ⟨_, _, _, _, _, _, hFound, _⟩ := Superlative.reduce_eq_ok_iff.mp hSplit
    obtain ⟨_, _, _, _, hSuperlative⟩ := Superlative.condition_eq_ok_iff.mp hFound
    simp only at hSuperlative
    simp [hShape, hSuperlative]
  · rename_i hShape
    obtain ⟨_, _, _, _, pivot, relation, year, _, hRange, _⟩ :=
      Range.reduce_eq_ok_iff.mp (mapError_eq_ok.mp hSplit)
    simp only at hRange
    simp [hShape, hRange]

theorem ofBlock_of_timeMacro_error {cause : Mismatch} (hShape : block.shape = .range)
    (h : Range.timeMacro d block.lines = .error cause) : ofBlock d block = .error (.structural cause) := by
  rw [ofBlock, split, hShape]
  simp only [Range.reduce_of_timeMacro_error h]
  rfl

theorem timeMacro_of_ofBlock (hShape : block.shape = .range) (h : ofBlock d block = .ok reduced) :
    ∃ m pivot year, Range.timeMacro d block.lines = .ok m ∧
      reduced.condition = .range pivot (m.domain ++ "." ++ d.timeMacroSuffix) year := by
  obtain ⟨kept, hSplit, _⟩ := ofBlock_eq_ok_iff.mp h
  simp only [split, hShape] at hSplit
  obtain ⟨m, pivot, year, hMacro, hCondition⟩ := Range.timeMacro_of_reduce (mapError_eq_ok.mp hSplit)
  exact ⟨m, pivot, year, hMacro, hCondition⟩

/-- Listing and reduction agree on every text. What stops the listing stops the reduction with the same cause.
A text that is reduced is listed, as a time macro exactly if its condition is a range, and then the relation
of the condition is the domain of the macro with the suffix of time macros. -/
theorem timeMacro?_agrees_with_ofText (d : Dialect) (text : String) :
    (∀ cause, Range.timeMacro? d text = .error cause → ofText d text = .error cause) ∧
    (∀ reduced, ofText d text = .ok reduced → ∃ found, Range.timeMacro? d text = .ok found ∧
      ((∃ m, found = some m) ↔ ∃ pivot relation year, reduced.condition = .range pivot relation year) ∧
      ∀ m pivot relation year, found = some m → reduced.condition = .range pivot relation year →
        relation = m.domain ++ "." ++ d.timeMacroSuffix) := by
  rw [Range.timeMacro?, ofText]
  cases hBlock : Block.ofText d text with
  | error cause =>
    constructor
    · intro found h
      cases h
      rfl
    · intro reduced h
      cases h
  | ok block =>
    rw [ok_bind, ok_bind]
    constructor
    · intro cause h
      split at h
      · rename_i hShape
        cases hMacro : Range.timeMacro d block.lines with
        | error found =>
          rw [hMacro] at h
          cases h
          exact ofBlock_of_timeMacro_error hShape hMacro
        | ok m =>
          rw [hMacro] at h
          cases h
      · cases h
    · intro reduced hReduced
      have hRange := shape_eq_range_iff_condition hReduced
      split
      · rename_i hShape
        obtain ⟨m, pivot, year, hMacro, hCondition⟩ := timeMacro_of_ofBlock hShape hReduced
        rw [hMacro]
        refine ⟨some m, rfl, iff_of_true ⟨m, rfl⟩ (hRange.mp hShape), ?_⟩
        rintro _ _ relation _ ⟨⟩ hFound
        rw [hCondition] at hFound
        cases hFound
        rfl
      · rename_i hShape
        refine ⟨none, rfl, iff_of_false ?_ fun hFound => hShape (hRange.mpr hFound), ?_⟩
        · rintro ⟨m, ⟨⟩⟩
        · rintro m _ _ _ ⟨⟩

/-- Bounds of two domains stop both readings; with one domain both succeed. -/
theorem timeMacro?_agrees_with_ofText_bounds :
    let apart := Text.unlines ["SELECT DISTINCT ?x", "WHERE \x7b", "?x ns:r ?y .",
      "FILTER(NOT EXISTS \x7b?y ns:a.b.from\x7d ||", "EXISTS \x7b", "\"2009\"",
      "FILTER(NOT EXISTS \x7b?y ns:a.c.to\x7d ||", "EXISTS \x7b", "\"2009\"", "\x7d"]
    let shared := Text.unlines ["SELECT DISTINCT ?x", "WHERE \x7b", "?x ns:r ?y .",
      "FILTER(NOT EXISTS \x7b?y ns:a.b.from\x7d ||", "EXISTS \x7b", "\"2009\"",
      "FILTER(NOT EXISTS \x7b?y ns:a.b.to\x7d ||", "EXISTS \x7b", "\"2009\"", "\x7d"]
    (Range.timeMacro? {} apart = .error (.structural (.relations "a.b.from" "a.c.to")) ∧
      ofText {} apart = .error (.structural (.relations "a.b.from" "a.c.to"))) ∧
    ∃ pivot year m, ofText {} shared = .ok ⟨["?x ns:r ?y ."], .range pivot "a.b.time_macro" year⟩ ∧
      Range.timeMacro? {} shared = .ok (some m) ∧ "a.b.time_macro" = m.domain ++ "." ++ "time_macro" := by
  intro apart shared
  have hApart : Range.timeMacro? {} apart = .error (.structural (.relations "a.b.from" "a.c.to")) := by
    have hBlock : Block.ofText {} apart = .ok ⟨["?x ns:r ?y .",
        "FILTER(NOT EXISTS \x7b?y ns:a.b.from\x7d ||", "EXISTS \x7b", "\"2009\"",
        "FILTER(NOT EXISTS \x7b?y ns:a.c.to\x7d ||", "EXISTS \x7b", "\"2009\""], .brace⟩ :=
      Block.ofText_eq_ok_iff.mpr ⟨Block.ofTemplate_eq_ok_iff.mpr ⟨[], _, isHead_select,
        (Text.contentLines_unlines (by decide)).trans rfl⟩, by decide⟩
    rw [Range.timeMacro?, hBlock]
    decide +kernel
  have hShared : ofText {} shared = .ok ⟨["?x ns:r ?y ."],
      .range (.var "y") "a.b.time_macro" "2009^^http://www.w3.org/2001/XMLSchema#date"⟩ := by
    have hBlock : Block.ofText {} shared = .ok ⟨["?x ns:r ?y .",
        "FILTER(NOT EXISTS \x7b?y ns:a.b.from\x7d ||", "EXISTS \x7b", "\"2009\"",
        "FILTER(NOT EXISTS \x7b?y ns:a.b.to\x7d ||", "EXISTS \x7b", "\"2009\""], .brace⟩ :=
      Block.ofText_eq_ok_iff.mpr ⟨Block.ofTemplate_eq_ok_iff.mpr ⟨[], _, isHead_select,
        (Text.contentLines_unlines (by decide)).trans rfl⟩, by decide⟩
    rw [ofText, hBlock]
    decide +kernel
  obtain ⟨found, hFound, hRange, hDomain⟩ := (timeMacro?_agrees_with_ofText {} shared).2 _ hShared
  obtain ⟨m, rfl⟩ := hRange.mpr ⟨_, _, _, rfl⟩
  exact ⟨⟨hApart, (timeMacro?_agrees_with_ofText {} apart).1 _ hApart⟩, _, _, m, hShared, hFound,
    hDomain m _ _ _ rfl rfl⟩

end Reduced

end LogicalForm
