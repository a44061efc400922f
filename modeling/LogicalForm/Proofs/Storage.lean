import LogicalForm.Proofs.Lists
import LogicalForm.Proofs.Outcome
import LogicalForm.Storage.Volume
import Mathlib.Data.List.Nodup

/-!
# Writing and reading files

A file that was written is read back, at the path at which it was written and whatever stood there before, and nothing
else has changed. The path is followed twice, in the volume before and in the volume after; a new file stands in the
way of no path that led to a folder. The order in which the nodes were put into the volume is seen only in the order of
the names of a folder.
-/

namespace LogicalForm.Volume
set_option autoImplicit false

variable {volume volume' : Volume} {location inner : Location} {node : Node} {path : Path} {content : ByteArray}

section Nodes

theorem lookup_set (location other : Location) :
    (volume.set location node).nodes.lookup other =
      if other = location then some node else volume.nodes.lookup other := by
  rw [set]
  cases hOld : volume.nodes.lookup location with
  | none =>
    rw [List.lookup_append, lookup_cons_eq_ite, List.lookup_nil]
    by_cases hSame : other = location
    · simp [hSame, hOld]
    · simp [hSame]
  | some old =>
    -- Every entry at the location is replaced, and one stands there.
    suffices hEntries : ∀ entries : List (Location × Node), (entries.map fun entry =>
        if entry.1 = location then (location, node) else entry).lookup other =
          if other = location then (entries.lookup location).map fun _ => node else entries.lookup other by
      rw [hEntries, hOld]
      rfl
    intro entries
    induction entries with
    | nil => simp
    | cons entry entries ih =>
      obtain ⟨key, found⟩ := entry
      rw [List.map_cons, lookup_cons_eq_ite, lookup_cons_eq_ite]
      by_cases hKey : key = location
      · subst hKey
        rw [if_pos rfl, lookup_cons_eq_ite, ih]
        by_cases hSame : other = key <;> simp [hSame]
      · rw [if_neg hKey, lookup_cons_eq_ite, ih, if_neg (Ne.symm hKey)]
        by_cases hSame : other = location
        · simp [hSame, Ne.symm hKey]
        · simp [hSame]

theorem isFolder_iff : volume.isFolder location = true ↔ volume.node? location = some .folder := by
  rw [isFolder]
  cases volume.node? location with
  | none => simp
  | some node => cases node <;> simp

/-- A place that is not a folder can hold what is put there. -/
theorem node?_set (h : volume.isFolder location = false) (other : Location) :
    (volume.set location node).node? other = if other = location then some node else volume.node? other := by
  have hFree : ¬ (isAncestor location = true ∨ location = root) := by
    intro hAlways
    rw [isFolder, node?, if_pos hAlways] at h
    cases h
  by_cases hSame : other = location
  · rw [if_pos hSame, node?, hSame, if_neg hFree, lookup_set, if_pos rfl]
  · rw [if_neg hSame, node?, node?, lookup_set, if_neg hSame]

end Nodes

section Walking

/-- What a path that can be followed asks of a volume is still there. -/
structure Keeps (volume volume' : Volume) : Prop where
  folder : ∀ location, volume.isFolder location = true → volume'.isFolder location = true
  node : ∀ location, (volume.node? location).isSome = true → (volume'.node? location).isSome = true

theorem keeps_set (h : volume.isFolder location = false) : volume.Keeps (volume.set location node) := by
  constructor
  · intro other hFolder
    rw [isFolder_iff, node?_set h]
    split
    · rename_i hSame
      rw [hSame, h] at hFolder
      cases hFolder
    · exact isFolder_iff.mp hFolder
  · intro other hSome
    rw [node?_set h]
    split
    · rfl
    · exact hSome

theorem Keeps.enter (h : volume.Keeps volume') {name : Name} (hEnter : volume.enter location name = .ok inner) :
    volume'.enter location name = .ok inner := by
  rw [Volume.enter, ite_error_eq_ok, Bool.not_eq_true', Bool.not_eq_false] at hEnter ⊢
  obtain ⟨hFolder, hStep⟩ := hEnter
  refine ⟨h.folder location hFolder, ?_⟩
  split at hStep
  · rename_i hHere
    rwa [if_pos hHere]
  · rename_i hAway
    rw [if_neg hAway]
    split at hStep
    · rename_i hUp
      rwa [if_pos hUp]
    · rename_i hDown
      rw [ite_error_eq_ok, ite_error_eq_ok, Option.isNone_iff_eq_none, ← ne_eq,
        ← Option.isSome_iff_ne_none] at hStep
      rw [if_neg hDown, ite_error_eq_ok, ite_error_eq_ok, Option.isNone_iff_eq_none, ← ne_eq,
        ← Option.isSome_iff_ne_none]
      exact ⟨hStep.1, h.node _ hStep.2.1, hStep.2.2⟩

theorem Keeps.walk (h : volume.Keeps volume') {names : List Name} (hWalk : volume.walk location names = .ok inner) :
    volume'.walk location names = .ok inner := by
  induction names generalizing location with
  | nil => exact hWalk
  | cons name names ih =>
    obtain ⟨next, hNext, hRest⟩ := bind_eq_ok.mp hWalk
    exact bind_eq_ok.mpr ⟨next, h.enter hNext, ih hRest⟩

/-- The names of a path up to its last one lead to a folder, and the last one can be that of a file there. -/
theorem exists_of_write (h : volume.write path content = .ok volume') :
    ∃ location names name folder, start path = .ok (location, names ++ [name]) ∧
      volume.walk location names = .ok folder ∧ volume.isFolder folder = true ∧
      ¬ (name = [] ∨ name = Name.self) ∧ name ≠ Name.parent ∧ ¬ name.length > Name.maxLength ∧
      volume.isFolder (folder ++ [name]) = false ∧ volume' = volume.set (folder ++ [name]) (.file content) := by
  obtain ⟨⟨location, names⟩, hStart, h⟩ := bind_eq_ok.mp h
  obtain ⟨folder, hFolder, h⟩ := bind_eq_ok.mp h
  simp only [ite_error_eq_ok, Bool.not_eq_true', Bool.not_eq_false, not_or, ne_eq, not_not, Bool.not_eq_true,
    Except.ok.injEq] at h
  obtain ⟨hIsFolder, ⟨hBare, hSome, hSelf, hParent, hFree⟩, hLength, rfl⟩ := h
  rw [hBare] at hFolder hSome hSelf hParent hFree hLength
  have hNames : names ≠ [] := by
    rintro rfl
    exact hSome rfl
  have hLast : names.getLastD [] = names.getLast hNames := by
    rw [List.getLastD_eq_getLast?, List.getLast?_eq_some_getLast hNames, Option.getD_some]
  rw [hLast] at hSome hSelf hParent hFree hLength
  refine ⟨location, names.dropLast, names.getLast hNames, folder, ?_, hFolder, hIsFolder, not_or.mpr ⟨hSome, hSelf⟩,
    hParent, hLength, hFree, ?_⟩
  · rw [List.dropLast_concat_getLast]
    exact hStart
  · rw [hBare, hLast]

/-- What was written is read, and nothing else has changed. -/
theorem read_of_write (h : volume.write path content = .ok volume') :
    volume'.read path = .ok content ∧ ∃ location, volume'.node? location = some (.file content) ∧
      ∀ other, other ≠ location → volume'.node? other = volume.node? other := by
  obtain ⟨location, names, name, folder, hStart, hWalk, hFolder, hName, hParent, hLength, hFree, rfl⟩ :=
    exists_of_write h
  have hKeeps : volume.Keeps (volume.set (folder ++ [name]) (.file content)) := keeps_set hFree
  have hNode : (volume.set (folder ++ [name]) (.file content)).node? (folder ++ [name]) = some (.file content) := by
    rw [node?_set hFree, if_pos rfl]
  have hLocate : (volume.set (folder ++ [name]) (.file content)).locate path = .ok (folder ++ [name]) := by
    refine bind_eq_ok.mpr ⟨_, hStart, ?_⟩
    simp only [walk, List.foldlM_append]
    refine bind_eq_ok.mpr ⟨folder, hKeeps.walk hWalk, ?_⟩
    rw [List.foldlM_cons, enter, hKeeps.folder folder hFolder, if_neg hName, if_neg hParent, if_neg hLength, hNode]
    rfl
  refine ⟨?_, folder ++ [name], hNode, fun other hOther => ?_⟩
  · refine bind_eq_ok.mpr ⟨_, hLocate, ?_⟩
    rw [hNode]
  · rw [node?_set hFree, if_neg hOther]

end Walking

section Orders

/-- The same nodes, put into the volume in another order. -/
structure Reordered (volume volume' : Volume) : Prop where
  perm : volume.nodes.Perm volume'.nodes
  distinct : (volume.nodes.map Prod.fst).Nodup

theorem Reordered.symm (h : volume.Reordered volume') : volume'.Reordered volume :=
  ⟨h.perm.symm, (h.perm.map Prod.fst).nodup_iff.mp h.distinct⟩

theorem Reordered.node?_eq (h : volume.Reordered volume') (location : Location) :
    volume'.node? location = volume.node? location := by
  rw [node?, node?]
  split
  · rfl
  · ext node
    rw [lookup_eq_some_iff_mem h.distinct, lookup_eq_some_iff_mem h.symm.distinct, h.perm.mem_iff]

theorem Reordered.isFolder_eq (h : volume.Reordered volume') (location : Location) :
    volume'.isFolder location = volume.isFolder location := by
  rw [isFolder, isFolder, h.node?_eq]

theorem Reordered.locate_eq (h : volume.Reordered volume') (path : Path) :
    volume'.locate path = volume.locate path := by
  have hEnter : volume'.enter = volume.enter := by
    funext location name
    rw [enter, enter, h.isFolder_eq, h.node?_eq]
  rw [locate, locate]
  unfold walk
  rw [hEnter]

theorem Reordered.read_eq (h : volume.Reordered volume') (path : Path) : volume'.read path = volume.read path := by
  rw [read, read, h.locate_eq]
  simp only [h.node?_eq]

theorem Reordered.readText?_eq (h : volume.Reordered volume') : volume'.readText? = volume.readText? := by
  funext path
  rw [readText?, readText?, h.read_eq]

theorem list_eq_ok {names : List Name} :
    volume.list path = .ok names ↔ ∃ location, volume.locate path = .ok location ∧ volume.isFolder location = true ∧
      (volume.nodes.filterMap fun entry => if entry.1.dropLast = location then entry.1.getLast? else none) = names := by
  rw [list, bind_eq_ok]
  refine exists_congr fun location => and_congr_right fun _ => ?_
  split
  · rename_i hFolder
    simp [hFolder]
  · rename_i hFolder
    simp [hFolder]

theorem Reordered.list_perm (h : volume.Reordered volume') {names : List Name} (hList : volume.list path = .ok names) :
    ∃ names', volume'.list path = .ok names' ∧ names.Perm names' := by
  obtain ⟨location, hLocate, hFolder, rfl⟩ := list_eq_ok.mp hList
  refine ⟨_, list_eq_ok.mpr ⟨location, ?_, ?_, rfl⟩, h.perm.filterMap _⟩
  · rw [h.locate_eq, hLocate]
  · rw [h.isFolder_eq, hFolder]

theorem nodup_of_list (h : (volume.nodes.map Prod.fst).Nodup) {names : List Name}
    (hList : volume.list path = .ok names) : names.Nodup := by
  obtain ⟨location, _, _, rfl⟩ := list_eq_ok.mp hList
  have hNames : (volume.nodes.filterMap fun entry =>
      if entry.1.dropLast = location then entry.1.getLast? else none) =
        (volume.nodes.map Prod.fst).filterMap fun other =>
          if other.dropLast = location then other.getLast? else none := by
    rw [List.filterMap_map]
    rfl
  rw [hNames]
  refine List.Nodup.filterMap (fun here there name hHere hThere => ?_) h
  -- The folder and the name together are the location.
  have hSplit : ∀ other : Location, name ∈ (if other.dropLast = location then other.getLast? else none) →
      other = location ++ [name] := by
    intro other hName
    split at hName
    · rename_i hIn
      obtain ⟨front, rfl⟩ := List.getLast?_eq_some_iff.mp hName
      rw [← hIn, List.dropLast_concat]
    · cases hName
  rw [hSplit here hHere, hSplit there hThere]

end Orders

end LogicalForm.Volume
