import LogicalForm.Proofs.Lines
import LogicalForm.Proofs.Lists
import LogicalForm.Proofs.Report
import LogicalForm.Proofs.Storage
import LogicalForm.Suite.Runner
import Mathlib.Data.List.Perm.Basic
import Mathlib.Data.String.Basic

/-!
# The order of cases

The cases of a folder are sorted by their names alone. Names of files that differ and end in the same extension have
different stems, and different stems are different names of cases; so no two cases have the same name, and the order in
which the files are listed is lost.
-/

namespace LogicalForm
set_option autoImplicit false

/-- The extension is what follows the last dot, if anything stands before that dot. -/
theorem Name.split_eq_some_iff {name stem extension : Name} :
    name.split = (stem, some extension) ↔ stem ≠ [] ∧ dot ∉ extension ∧ name = stem ++ dot :: extension := by
  constructor
  · intro h
    rw [split] at h
    split at h
    · rename_i last before hCut
      obtain ⟨a, hName, ha, hLast⟩ := Text.cut?_eq_some_iff.mp hCut
      split at h
      · cases h
      · rename_i hBefore
        cases h
        refine ⟨by simpa using hBefore, fun hMem => ?_, ?_⟩
        · simpa using hLast dot (List.mem_reverse.mp hMem)
        · rw [← List.reverse_reverse name, hName, beq_iff_eq.mp ha]
          simp
    · cases h
  · rintro ⟨hStem, hDot, rfl⟩
    have hCut : Text.cut? (· == dot) (stem ++ dot :: extension).reverse = some (extension.reverse, stem.reverse) := by
      refine Text.cut?_eq_some_iff.mpr ⟨dot, by simp, beq_self_eq_true dot, fun b hb => ?_⟩
      exact beq_eq_false_iff_ne.mpr fun hSame => hDot (hSame ▸ List.mem_reverse.mp hb)
    rw [split, hCut]
    simp [hStem]

namespace Case

theorem stem?_eq_some_iff {name stem : Name} : stem? name = some stem ↔ name.split = (stem, some queryExtension) := by
  rw [stem?]
  split
  · rename_i found extension hFound
    rw [hFound]
    split
    · rename_i hSame
      simp [hSame]
    · rename_i hOther
      simp [hOther]
  · rename_i found hFound
    simp [hFound]

/-- The case that a file makes with the file beside it. -/
def Holds (read : Path → Option String) (folder : Path) (name : Name) (c : Case) : Prop :=
  ∃ stem expected, stem ≠ [] ∧ name = stem ++ Name.dot :: queryExtension ∧ Text.Utf8.decode? stem = some c.name ∧
    c.path = folder.child name ∧ read c.path = some c.query ∧
    read (folder.child (Name.withExtension stem expectedExtension)) = some expected ∧ c.expected = Text.trim expected

section Names

variable {read : Path → Option String} {folder : Path} {name name' stem : Name} {names names' : List Name} {c c' : Case}
  {cases : List Case}

theorem load_eq_ok (hStem : stem? name = some stem) :
    load read folder name stem = .ok c ↔ Holds read folder name c := by
  obtain ⟨hSome, _, rfl⟩ := Name.split_eq_some_iff.mp (stem?_eq_some_iff.mp hStem)
  rw [load]
  constructor
  · intro h
    split at h
    · cases h
    · rename_i caseName hName
      split at h
      · cases h
      · rename_i query hQuery
        simp only at h
        split at h
        · cases h
        · rename_i expected hExpected
          cases h
          exact ⟨stem, expected, hSome, rfl, hName, rfl, hQuery, hExpected, rfl⟩
  · rintro ⟨stem', expected, _, hSame, hName, hPath, hQuery, hExpected, hTrim⟩
    obtain rfl : stem = stem' := List.append_cancel_right hSame
    simp only [hName, ← hPath, hQuery, hExpected, ← hTrim]

theorem Holds.eq_of_name_eq (h : Holds read folder name c) (h' : Holds read folder name' c')
    (hName : c.name = c'.name) : name = name' := by
  obtain ⟨stem, _, _, rfl, hStem, _⟩ := h
  obtain ⟨stem', _, _, rfl, hStem', _⟩ := h'
  rw [hName, Text.Utf8.decode?, Text.Utf8.fromUTF8?_eq_some_iff] at hStem
  rw [Text.Utf8.decode?, Text.Utf8.fromUTF8?_eq_some_iff] at hStem'
  rw [List.toByteArray_inj.mp (hStem.trans hStem'.symm)]

/-- The names of which each makes a case. -/
def queries (names : List Name) : List Name := names.filter (·.split.2 = some queryExtension)

theorem forall₂_queries :
    List.Forall₂ (Holds read folder) (queries names) cases ↔
      List.Forall₂ (fun (name, stem) c => load read folder name stem = .ok c)
        (names.filterMap fun name => (stem? name).map (name, ·)) cases := by
  induction names generalizing cases with
  | nil => simp [queries]
  | cons name names ih =>
    rw [queries, List.filter_cons, ← queries]
    cases hStem : stem? name with
    | none =>
      have hOther : name.split.2 ≠ some queryExtension := fun hSome => by
        rw [stem?_eq_some_iff.mpr (Prod.ext rfl hSome)] at hStem
        cases hStem
      rw [if_neg (by simpa using hOther), List.filterMap_cons_none (by rw [hStem]; rfl), ih]
    | some stem =>
      have hQuery : name.split.2 = some queryExtension := by rw [stem?_eq_some_iff.mp hStem]
      rw [if_pos (by simpa using hQuery), List.filterMap_cons_some (by rw [hStem]; rfl)]
      simp only [List.forall₂_cons_left_iff, ih, load_eq_ok hStem]

theorem pairwise_mergeSort (hDistinct : names.Nodup) (h : List.Forall₂ (Holds read folder) names cases) :
    (cases.mergeSort le).Pairwise (·.name < ·.name) := by
  have hNames : (cases.mergeSort le).Pairwise (·.name ≠ ·.name) :=
    ((List.mergeSort_perm cases le).pairwise_iff Ne.symm).mpr
      (pairwise_ne_of_forall₂ h hDistinct fun _ _ _ _ => Holds.eq_of_name_eq)
  have hSorted : (cases.mergeSort le).Pairwise (·.name ≤ ·.name) :=
    pairwise_mergeSort_key (fun _ _ => decide_eq_true_iff) cases
  exact (hSorted.and hNames).imp fun h => lt_of_le_of_ne h.1 h.2

/-- Cases are loaded exactly if each file makes one, and they are listed by name. -/
theorem loadNames_eq_ok_iff (hDistinct : names.Nodup) :
    loadNames read folder names = .ok cases ↔
      (∃ files, files.Perm (queries names) ∧ List.Forall₂ (Holds read folder) files cases) ∧
        cases.Pairwise (·.name < ·.name) := by
  rw [loadNames, bind_eq_ok]
  simp only [mapM_eq_ok, ← forall₂_queries, Except.ok.injEq]
  constructor
  · rintro ⟨loaded, hLoaded, rfl⟩
    obtain ⟨files, hFiles, hPerm⟩ := List.perm_comp_forall₂ (List.mergeSort_perm loaded le) hLoaded.flip
    exact ⟨⟨files, hPerm, hFiles.flip⟩, pairwise_mergeSort (hDistinct.filter _) hLoaded⟩
  · rintro ⟨⟨files, hPerm, hFiles⟩, hSorted⟩
    obtain ⟨loaded, hLoaded, hCases⟩ := List.perm_comp_forall₂ hPerm.symm hFiles
    refine ⟨loaded, hLoaded, ?_⟩
    -- The same cases in two strict orders by name: it is one order.
    exact List.Perm.eq_of_pairwise (fun _ _ _ _ hLess hMore => absurd hMore (lt_asymm hLess))
      (pairwise_mergeSort (hDistinct.filter _) hLoaded) hSorted ((List.mergeSort_perm loaded le).trans hCases)

end Names

section Folders

variable {volume volume' : Volume} {folder : Path} {cases : List Case}

theorem loadFolder_eq_ok_iff (hDistinct : (volume.nodes.map Prod.fst).Nodup) :
    loadFolder volume folder = .ok cases ↔ ∃ names, volume.list folder = .ok names ∧
      (∃ files, files.Perm (queries names) ∧ List.Forall₂ (Holds volume.readText? folder) files cases) ∧
        cases.Pairwise (·.name < ·.name) := by
  rw [loadFolder]
  cases hList : volume.list folder with
  | error fault => simp
  | ok names => simp [loadNames_eq_ok_iff (Volume.nodup_of_list hDistinct hList)]

theorem loadFolder_of_reordered (h : volume.Reordered volume') (hLoad : loadFolder volume folder = .ok cases) :
    loadFolder volume' folder = .ok cases := by
  obtain ⟨names, hList, ⟨files, hFiles, hCases⟩, hSorted⟩ := (loadFolder_eq_ok_iff h.distinct).mp hLoad
  obtain ⟨names', hList', hNames⟩ := h.list_perm hList
  refine (loadFolder_eq_ok_iff h.symm.distinct).mpr ⟨names', hList', ⟨files, ?_, ?_⟩, hSorted⟩
  · exact hFiles.trans (hNames.filter _)
  · rwa [h.readText?_eq]

end Folders

end Case

namespace Suite

variable {volume volume' : Volume} {folder : Path} {folders : List Path} {d : Dialect} {results : List CaseResult}

theorem run_eq_ok_iff : run volume d folders = .ok results ↔
    ∃ loaded, List.Forall₂ (fun folder cases => Case.loadFolder volume folder = .ok cases) folders loaded ∧
      loaded.flatten.map (Case.result d) = results := by
  rw [run, bind_eq_ok]
  simp only [mapM_eq_ok, Except.ok.injEq]

theorem run_of_reordered (h : volume.Reordered volume') (hRun : run volume d folders = .ok results) :
    run volume' d folders = .ok results := by
  obtain ⟨loaded, hLoaded, rfl⟩ := run_eq_ok_iff.mp hRun
  exact run_eq_ok_iff.mpr ⟨loaded, hLoaded.imp fun _ _ => Case.loadFolder_of_reordered h, rfl⟩

theorem exists_run (h : ∀ folder ∈ folders, ∃ cases, Case.loadFolder volume folder = .ok cases) :
    ∃ results, run volume d folders = .ok results := by
  obtain ⟨loaded, hLoaded⟩ := exists_forall₂_iff.mpr h
  exact ⟨_, run_eq_ok_iff.mpr ⟨loaded, hLoaded, rfl⟩⟩

end Suite

/-- The order in which the nodes of a volume are listed is not seen in what comes of cases that can be loaded: not in
their list, not in their results, not in the verdict on them, and in a report not beside its dates. -/
theorem Suite.run_reordered {volume volume' : Volume} (h : volume.Reordered volume') :
    (∀ folder cases, Case.loadFolder volume folder = .ok cases ↔ Case.loadFolder volume' folder = .ok cases) ∧
    (∀ folder cases, Case.loadFolder volume folder = .ok cases →
      cases.Pairwise (·.name < ·.name) ∧
      (∃ names files, volume.list folder = .ok names ∧ files.Perm (Case.queries names) ∧
        List.Forall₂ (Case.Holds volume.readText? folder) files cases) ∧
      (∀ d, run volume d [folder] = .ok (cases.map (Case.result d)) ∧
        run volume' d [folder] = .ok (cases.map (Case.result d))) ∧
      ∀ ignored, ∃ said, verdict volume ignored folder = .ok said ∧ verdict volume' ignored folder = .ok said) ∧
    ∀ args folders, Argument.words? args = some folders →
      (∀ folder ∈ folders, ∃ cases, Case.loadFolder volume (Path.ofString folder) = .ok cases) →
      ∃ results closing, run volume {} (folders.map Path.ofString) = .ok results ∧
        run volume' {} (folders.map Path.ofString) = .ok results ∧ ∀ clock,
          let lines := results.mapIdx fun i result => (clock i).text ++ Report.entry result
          runLine args clock volume = .done (String.join lines ++ closing) ∧
            runLine args clock volume' = .done (String.join lines ++ closing) := by
  refine ⟨fun folder cases => ?_, fun folder cases hLoad => ?_, fun args folders hArgs hLoad => ?_⟩
  · exact ⟨Case.loadFolder_of_reordered h, Case.loadFolder_of_reordered h.symm⟩
  · obtain ⟨names, hList, ⟨files, hFiles, hCases⟩, hSorted⟩ := (Case.loadFolder_eq_ok_iff h.distinct).mp hLoad
    have hRun : ∀ d, run volume d [folder] = .ok (cases.map (Case.result d)) := fun d =>
      run_eq_ok_iff.mpr ⟨[cases], .cons hLoad .nil, by rw [List.flatten_singleton]⟩
    refine ⟨hSorted, ⟨names, files, hList, hFiles, hCases⟩, fun d => ⟨hRun d, run_of_reordered h (hRun d)⟩, ?_⟩
    intro ignored
    refine ⟨(check ignored (cases.map (Case.result {}))).mapError SuiteFault.message, ?_, ?_⟩
    · rw [verdict, hRun]
      rfl
    · rw [verdict, run_of_reordered h (hRun {})]
      rfl
  · obtain ⟨results, hRun⟩ := exists_run (d := {}) (List.forall_mem_map.mpr hLoad)
    obtain ⟨closing, hText⟩ := Report.exists_text_eq results
    have hLine : ∀ volume clock, run volume {} (folders.map Path.ofString) = .ok results → runLine args clock volume =
        .done (String.join (results.mapIdx fun i result => (clock i).text ++ Report.entry result) ++ closing) := by
      intro volume clock hRun
      rw [runLine, runArguments, hArgs, Option.map_some, hRun, report, hText]
    have hRun' := run_of_reordered h hRun
    exact ⟨results, closing, hRun, hRun', fun clock => ⟨hLine volume clock hRun, hLine volume' clock hRun'⟩⟩

theorem Suite.run_reordered_backwards :
    let file (name : String) (content : String) : Location × Node :=
      ([[0x73], Text.Utf8.encode name], .file content.toUTF8)
    let nodes := [([[0x73]], .folder), file ".rq" "?", file "a.rq" "", file "a.lf" "null\n", file "a.b.rq" "",
      file "a.b.lf" "x"]
    let folder := Path.ofString "s"
    let cases := [⟨"a", ⟨Text.Utf8.encode "s/a.rq"⟩, "", "null"⟩, ⟨"a.b", ⟨Text.Utf8.encode "s/a.b.rq"⟩, "", "x"⟩]
    Case.loadFolder ⟨nodes⟩ folder = .ok cases ∧ Case.loadFolder ⟨nodes.reverse⟩ folder = .ok cases ∧
      run ⟨nodes.reverse⟩ {} [folder] = .ok (cases.map (Case.result {})) ∧
      ∀ clock, runLine ["s"] clock ⟨nodes.reverse⟩ = runLine ["s"] clock ⟨nodes⟩ := by
  intro file nodes folder cases
  have hOrder : (⟨nodes⟩ : Volume).Reordered ⟨nodes.reverse⟩ := ⟨(List.reverse_perm nodes).symm, by decide +kernel⟩
  have hList : (⟨nodes⟩ : Volume).list folder = .ok (nodes.tail.map (·.1.getLastD [])) := by decide +kernel
  have hCases : ((nodes.tail.map (·.1.getLastD [])).filterMap fun name => (Case.stem? name).map (name, ·)).mapM
      (fun (name, stem) => Case.load (⟨nodes⟩ : Volume).readText? folder name stem) = .ok cases := by decide +kernel
  have hLoad : Case.loadFolder ⟨nodes⟩ folder = .ok cases := by
    rw [Case.loadFolder, hList]
    simp only [Case.loadNames, hCases, ok_bind]
    rw [List.mergeSort_of_pairwise (by decide +kernel)]
  obtain ⟨hIff, hSame, hReport⟩ := run_reordered hOrder
  obtain ⟨_, _, _, _, hLine⟩ := hReport ["s"] ["s"] (by decide +kernel) (List.forall_mem_singleton.mpr ⟨cases, hLoad⟩)
  exact ⟨hLoad, (hIff folder cases).mp hLoad, ((hSame folder cases hLoad).2.2.1 {}).2,
    fun clock => (hLine clock).2.trans (hLine clock).1.symm⟩

end LogicalForm
