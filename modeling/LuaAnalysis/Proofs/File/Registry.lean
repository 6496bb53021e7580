import LuaAnalysis.File.Index
import LuaAnalysis.Proofs.OrderedMap
import Mathlib.Data.List.Induction
import Mathlib.Data.List.Nodup

/-!
# What registering files leads to

The files of a project are a map from normal paths to texts, in order of first registration:
registering a file is inserting into that map. Hence the order of files is the order in which their
paths first came, each file is read from the text that it was given last, and a path in any spelling
finds the one file with its normal form.
-/

namespace LuaAnalysis

open List OrderedMap

/-! ## Normal paths -/

variable {cs : List Char} {path : String}

namespace Path

theorem not_mem_slashed : '\\' ∉ slashed cs := by
  unfold slashed
  rw [mem_map]
  rintro ⟨c, -, hc⟩
  by_cases h : c = '\\'
  · rw [if_pos h] at hc
    revert hc
    decide
  · rw [if_neg h] at hc
    exact h hc

theorem slashed_of_not_mem (h : '\\' ∉ cs) : slashed cs = cs := by
  unfold slashed
  conv_rhs => rw [← map_id cs]
  refine map_congr_left fun c hc => if_neg ?_
  rintro rfl
  exact h hc

theorem dropCurrentDir_suffix : dropCurrentDir cs <:+ cs := by
  fun_induction dropCurrentDir cs with
  | case1 cs ih => exact ih.trans ((suffix_cons _ _).trans (suffix_cons _ _))
  | case2 cs => exact suffix_refl cs

theorem dropCurrentDir_dropCurrentDir : dropCurrentDir (dropCurrentDir cs) = dropCurrentDir cs := by
  fun_induction dropCurrentDir cs with
  | case1 cs ih => exact ih
  | case2 cs hcs => exact dropCurrentDir.eq_2 cs hcs

theorem normalize_normalize : normalize (normalize path) = normalize path := by
  have hslash : '\\' ∉ dropCurrentDir (slashed path.toList) :=
    fun hmem => not_mem_slashed (dropCurrentDir_suffix.subset hmem)
  unfold normalize
  rw [String.toList_ofList, slashed_of_not_mem hslash, dropCurrentDir_dropCurrentDir]

end Path

/-! ## Maps of texts -/

theorem put_eq_set {κ : Type u} {α : Type v} [DecidableEq κ] {k : κ} {v : α} {es : List (κ × α)} :
    put k v es = match es.findIdx? (·.1 == k) with
      | some i => es.set i (k, v)
      | none => es ++ [(k, v)] := by
  induction es with
  | nil => rfl
  | cons e es ih =>
    obtain ⟨k', v'⟩ := e
    by_cases hk : k' = k
    · subst hk
      simp [put, findIdx?_cons]
    · simp only [put, hk, if_false, findIdx?_cons, beq_eq_false_iff_ne.2 hk, Bool.false_eq_true, ih]
      cases es.findIdx? (·.1 == k) <;> rfl

theorem OrderedMap.exists_findIdx? {κ α : Type} [DecidableEq κ] {k : κ} {v : α} {es : List (κ × α)}
    (h : find? k es = some v) : ∃ i, es.findIdx? (·.1 == k) = some i ∧ es[i]? = some (k, v) := by
  induction es with
  | nil => cases h
  | cons e es ih =>
    obtain ⟨k', v'⟩ := e
    by_cases hk : k' = k
    · subst hk
      rw [find?, if_pos rfl, Option.some.injEq] at h
      exact ⟨0, by simp [findIdx?_cons], by rw [h]; rfl⟩
    · rw [find?, if_neg hk] at h
      obtain ⟨i, hi, hget⟩ := ih h
      exact ⟨i + 1, by simp [findIdx?_cons, hk, hi], hget⟩

variable {texts : OrderedMap String String}

namespace FileIndex

theorem find?_mapIdx {es : List (String × String)} {number : Nat → FileId} :
    find? path (es.mapIdx fun i e => (e.1, number i)) = (es.findIdx? (·.1 == path)).map number := by
  induction es generalizing number with
  | nil => rfl
  | cons e es ih =>
    rw [mapIdx_cons, OrderedMap.find?, findIdx?_cons]
    by_cases hpath : e.1 = path
    · rw [if_pos hpath, beq_iff_eq.2 hpath]
      rfl
    · rw [if_neg hpath, beq_eq_false_iff_ne.2 hpath, ih]
      cases es.findIdx? (·.1 == path) <;> rfl

/-- The files of a map from paths to texts, numbered in its order. -/
def ofTexts (texts : OrderedMap String String) : FileIndex where
  files := (texts.entries.mapIdx fun i e => SourceFile.ofText ⟨i⟩ e.1 e.2).toArray
  byPath := ⟨texts.entries.mapIdx fun i e => (e.1, ⟨i⟩)⟩
  placed i file h := by
    rw [getElem?_toArray, getElem?_mapIdx] at h
    obtain ⟨e, -, rfl⟩ := Option.map_eq_some_iff.1 h
    rfl
  located path id h := by
    obtain ⟨i, hi, rfl⟩ := Option.map_eq_some_iff.1 (find?_mapIdx.symm.trans h)
    obtain ⟨hlt, hpath, -⟩ := findIdx?_eq_some_iff_getElem.1 hi
    rw [getElem?_toArray, getElem?_mapIdx, getElem?_eq_getElem hlt]
    exact ⟨_, rfl, beq_iff_eq.1 hpath⟩

theorem get?_byPath_ofTexts :
    (ofTexts texts).byPath.get? path = (texts.entries.findIdx? (·.1 == path)).map FileId.mk :=
  find?_mapIdx

theorem ext {x y : FileIndex} (hfiles : x.files = y.files) (hpaths : x.byPath = y.byPath) :
    x = y := by
  cases x
  cases y
  subst hfiles hpaths
  rfl

theorem insert_ofTexts {text : String} :
    ((ofTexts texts).insert path text).1 = ofTexts (texts.insert (Path.normalize path) text) := by
  unfold FileIndex.insert
  dsimp only
  generalize Path.normalize path = path
  rw [get?_byPath_ofTexts]
  unfold OrderedMap.insert
  rw [put_eq_set]
  cases hidx : texts.entries.findIdx? (·.1 == path) with
  | none =>
    refine ext ?_ (congrArg OrderedMap.mk ?_)
    · simp [register, ofTexts, size, SourceFile.ofText]
    · have hnew : OrderedMap.find? path (ofTexts texts).byPath.entries = none := by
        rw [ofTexts, find?_mapIdx, hidx]
        rfl
      rw [put_of_find?_eq_none hnew]
      simp [ofTexts, size]
  | some i =>
    obtain ⟨hlt, hpath, -⟩ := findIdx?_eq_some_iff_getElem.1 hidx
    refine ext (Array.ext_getElem? fun j => ?_) (congrArg OrderedMap.mk (ext_getElem? fun j => ?_))
    all_goals
      by_cases hj : i = j
      · subst hj
        simp_all [replace, ofTexts, SourceFile.ofText]
      · simp [replace, ofTexts, hj]

/-- What is found under the number that `insert` gives is the file that it has put in. -/
theorem get?_insert (x : FileIndex) (path text : String) :
    (x.insert path text).1.get? (x.insert path text).2 =
      some (SourceFile.ofText (x.insert path text).2 (Path.normalize path) text) := by
  unfold FileIndex.insert
  dsimp only
  split
  · next id hid =>
    obtain ⟨file, hfile, hpath⟩ := x.located _ id hid
    rw [replace, get?, Array.getElem?_modify, if_pos rfl, hfile, Option.map_some,
      x.placed _ file hfile, hpath]
    rfl
  · exact Array.getElem?_push_size

def textsOf (texts : OrderedMap String String) (files : List (String × String)) :
    OrderedMap String String :=
  files.foldl (fun texts f => texts.insert (Path.normalize f.1) f.2) texts

/-- Files have normal paths, and no two have the same. -/
structure Orderly (texts : OrderedMap String String) : Prop where
  nodup : texts.keys.Nodup
  normal : ∀ path ∈ texts.keys, Path.normalize path = path

theorem orderly_empty : Orderly {} :=
  ⟨nodup_nil, nofun⟩

theorem Orderly.insert (h : Orderly texts) (path text : String) :
    Orderly (texts.insert (Path.normalize path) text) := by
  by_cases hmem : Path.normalize path ∈ texts.keys
  · have hkeys : (texts.insert (Path.normalize path) text).keys = texts.keys := by
      rw [keys_insert, if_pos hmem]
    exact ⟨hkeys ▸ h.nodup, hkeys ▸ h.normal⟩
  · refine ⟨?_, ?_⟩
    · rw [keys_insert_of_not_mem hmem]
      exact nodup_append_comm.1 (nodup_cons.2 ⟨hmem, h.nodup⟩)
    · intro p hp
      rcases mem_keys_insert.1 hp with rfl | hp
      · exact Path.normalize_normalize
      · exact h.normal p hp

theorem Orderly.textsOf (h : Orderly texts) {files : List (String × String)} :
    Orderly (textsOf texts files) := by
  induction files generalizing texts with
  | nil => exact h
  | cons f files ih => exact ih (h.insert f.1 f.2)

theorem textsOf_append {earlier files : List (String × String)} (h : Orderly ⟨earlier ++ files⟩) :
    textsOf ⟨earlier⟩ files = ⟨earlier ++ files⟩ := by
  induction files generalizing earlier with
  | nil =>
    rw [append_nil]
    rfl
  | cons f files ih =>
    have hkeys : (⟨earlier ++ f :: files⟩ : OrderedMap String String).keys =
        earlier.map (·.1) ++ f.1 :: files.map (·.1) := by simp [OrderedMap.keys]
    have hnormal : Path.normalize f.1 = f.1 := by
      refine h.normal f.1 ?_
      rw [hkeys]
      exact mem_append_right _ mem_cons_self
    have hnew : f.1 ∉ (⟨earlier⟩ : OrderedMap String String).keys := by
      have hnodup := h.nodup
      rw [hkeys, nodup_append] at hnodup
      exact fun hmem => hnodup.2.2 f.1 hmem f.1 mem_cons_self rfl
    have hinsert : (⟨earlier⟩ : OrderedMap String String).insert (Path.normalize f.1) f.2 =
        ⟨earlier ++ [f]⟩ := by
      rw [hnormal]
      exact congrArg OrderedMap.mk (put_of_find?_eq_none (not_mem_keys_iff.1 hnew))
    have happend : earlier ++ f :: files = (earlier ++ [f]) ++ files := append_cons earlier f files
    rw [happend] at h ⊢
    rw [← ih h, ← hinsert]
    rfl

theorem get?_ofTexts {f : FileId} :
    (ofTexts texts).get? f = (texts.entries[f.index]?).map fun e =>
      SourceFile.ofText f e.1 e.2 := by
  unfold FileIndex.get? ofTexts
  rw [getElem?_toArray, getElem?_mapIdx]

theorem exists_idOf?_ofTexts {text : String} (h : texts.get? (Path.normalize path) = some text) :
    ∃ f, (ofTexts texts).idOf? path = some f ∧
      (ofTexts texts).get? f = some (SourceFile.ofText f (Path.normalize path) text) := by
  obtain ⟨i, hi, hget⟩ := exists_findIdx? h
  refine ⟨⟨i⟩, ?_, ?_⟩
  · rw [FileIndex.idOf?, get?_byPath_ofTexts, hi]
    rfl
  · rw [get?_ofTexts, hget]
    rfl

/-! ## Numbers and paths -/

variable {x : FileIndex} {f : FileId} {candidate : String}

def paths (x : FileIndex) : List String :=
  x.files.toList.map (·.path)

theorem paths_ofTexts : (ofTexts texts).paths = texts.keys := by
  refine ext_getElem? fun i => ?_
  simp [paths, ofTexts, OrderedMap.keys, Function.comp_def, SourceFile.ofText]

theorem mem_ids_iff_lt : f ∈ x.ids ↔ f.index < x.paths.length := by
  simp only [ids_eq, size, paths, mem_map, mem_range, length_map, Array.length_toList]
  exact ⟨fun ⟨_, hlt, heq⟩ => heq ▸ hlt, fun hlt => ⟨f.index, hlt, rfl⟩⟩

theorem getElem_paths (hlt : f.index < x.paths.length) : x.paths[f.index] = x.path f := by
  rw [FileIndex.path, get?, ← Array.getElem?_toList, ← getElem?_map]
  exact (congrArg (Option.getD · "") (getElem?_eq_getElem hlt)).symm

theorem map_path_ids : x.ids.map x.path = x.paths := by
  refine ext_getElem (by simp [ids, paths]) fun i _ hlt => ?_
  rw [@getElem_paths x ⟨i⟩ hlt]
  simp [ids_eq]

theorem of_get?_byPath (h : x.byPath.get? path = some f) : f ∈ x.ids ∧ x.path f = path := by
  obtain ⟨file, hfile, hpath⟩ := x.located path f h
  refine ⟨mem_ids_iff_lt.2 ?_, ?_⟩
  · simpa [paths] using (Array.getElem?_eq_some_iff.1 hfile).1
  · rw [FileIndex.path, get?, hfile]
    exact hpath

theorem get?_byPath_ofTexts_eq :
    (ofTexts texts).byPath.get? path = (texts.keys.idxOf? path).map FileId.mk := by
  rw [get?_byPath_ofTexts, List.idxOf?, OrderedMap.keys, findIdx?_map]
  rfl

/-- The map of paths leads back from the path of every file to its number. -/
theorem Orderly.get?_byPath_iff (h : Orderly texts) :
    (ofTexts texts).byPath.get? path = some f ↔ f ∈ (ofTexts texts).ids ∧
    (ofTexts texts).path f = path := by
  refine ⟨of_get?_byPath, ?_⟩
  rintro ⟨hf, rfl⟩
  rw [mem_ids_iff_lt] at hf
  rw [← getElem_paths hf, get?_byPath_ofTexts_eq]
  simp only [paths_ofTexts] at hf ⊢
  -- An earlier file with the same path would be the same file.
  have hidx : texts.keys.idxOf? texts.keys[f.index] = some f.index :=
    idxOf?_eq_some_iff.2 ⟨hf, rfl, fun j hj heq => Nat.ne_of_lt hj (h.nodup.getElem_inj_iff.1 heq)⟩
  rw [hidx]
  rfl

theorem Orderly.normalize_path (h : Orderly texts) (hf : f ∈ (ofTexts texts).ids) :
    Path.normalize ((ofTexts texts).path f) = (ofTexts texts).path f := by
  refine h.normal _ ?_
  rw [← paths_ofTexts, ← getElem_paths (mem_ids_iff_lt.1 hf)]
  exact getElem_mem _

theorem Orderly.idOf?_path (h : Orderly texts) (hf : f ∈ (ofTexts texts).ids) :
    (ofTexts texts).idOf? ((ofTexts texts).path f) = some f := by
  rw [idOf?, h.normalize_path hf]
  exact h.get?_byPath_iff.2 ⟨hf, rfl⟩

/-- The path of a registered file ends with the proper components of `candidate`, of which there are
some. -/
structure EndsWith (x : FileIndex) (candidate : String) (f : FileId) : Prop where
  mem : f ∈ x.ids
  proper : Path.properComponents candidate ≠ []
  isSuffix : Path.properComponents candidate <:+ Path.components (x.path f)

theorem endsWith_iff (hproper : Path.properComponents candidate ≠ [])
    (hlt : f.index < x.paths.length) :
    x.EndsWith candidate f ↔
    (Path.properComponents candidate).isSuffixOf (Path.components x.paths[f.index]) = true := by
  rw [getElem_paths hlt, isSuffixOf_iff_suffix]
  exact ⟨fun h => h.isSuffix, fun h => ⟨mem_ids_iff_lt.2 hlt, hproper, h⟩⟩

theorem find?_id (p : String → Bool) :
    (x.files.find? fun file => p file.path).map (·.id) = (x.paths.findIdx? p).map FileId.mk := by
  cases hidx : x.paths.findIdx? p with
  | none =>
    have hnone : (x.files.find? fun file => p file.path) = none := by simpa [paths] using hidx
    rw [hnone]
    rfl
  | some i =>
    obtain ⟨hlt, hp, hfirst⟩ := findIdx?_eq_some_iff_getElem.1 hidx
    simp only [paths, length_map, Array.length_toList, getElem_map,
      Array.getElem_toList] at hlt hp hfirst
    have hsome : (x.files.find? fun file => p file.path) = some x.files[i] :=
      Array.find?_eq_some_iff_getElem.2 ⟨hp, i, hlt, rfl, fun j hj => by simpa using hfirst j hj⟩
    rw [hsome, Option.map_some, x.placed i _ (Array.getElem?_eq_getElem hlt)]
    rfl

theorem findBySuffix?_eq (hproper : Path.properComponents candidate ≠ []) :
    x.findBySuffix? candidate =
      (x.paths.findIdx? fun path =>
        (Path.properComponents candidate).isSuffixOf (Path.components path)).map FileId.mk := by
  unfold FileIndex.findBySuffix?
  rw [← find?_id, if_neg (by simpa using hproper)]

theorem findBySuffix?_of_improper (h : Path.properComponents candidate = []) :
    x.findBySuffix? candidate = none := by
  simp [findBySuffix?, h]

theorem findBySuffix?_eq_some_iff : x.findBySuffix? candidate = some f ↔
      x.EndsWith candidate f ∧ ∀ g, x.EndsWith candidate g → f.index ≤ g.index := by
  by_cases hproper : Path.properComponents candidate = []
  · rw [findBySuffix?_of_improper hproper]
    exact iff_of_false nofun fun h => h.1.proper hproper
  rw [findBySuffix?_eq hproper, Option.map_eq_some_iff]
  constructor
  · rintro ⟨i, hi, rfl⟩
    obtain ⟨hlt, hends, hfirst⟩ := findIdx?_eq_some_iff_getElem.1 hi
    refine ⟨(endsWith_iff hproper hlt).2 hends, fun g hg => Nat.le_of_not_lt fun hg' => ?_⟩
    exact hfirst g.index hg' ((endsWith_iff hproper (mem_ids_iff_lt.1 hg.mem)).1 hg)
  · rintro ⟨hends, hfirst⟩
    have hlt := mem_ids_iff_lt.1 hends.mem
    refine ⟨f.index, findIdx?_eq_some_iff_getElem.2
      ⟨hlt, (endsWith_iff hproper hlt).1 hends, fun j hj hj' => ?_⟩, rfl⟩
    exact Nat.not_le.2 hj (hfirst ⟨j⟩ ((endsWith_iff hproper (Nat.lt_trans hj hlt)).2 hj'))

theorem findBySuffix?_eq_none_iff :
    x.findBySuffix? candidate = none ↔ ∀ f, ¬ x.EndsWith candidate f := by
  by_cases hproper : Path.properComponents candidate = []
  · exact iff_of_true (findBySuffix?_of_improper hproper) fun f h => h.proper hproper
  rw [findBySuffix?_eq hproper, Option.map_eq_none_iff, findIdx?_eq_none_iff, ← map_path_ids,
    forall_mem_map]
  refine forall_congr' fun f => ⟨fun h hends => ?_, fun h hf => ?_⟩
  · exact absurd (isSuffixOf_iff_suffix.2 hends.isSuffix) (Bool.eq_false_iff.1 (h hends.mem))
  · exact Bool.eq_false_iff.2 fun hsuffix => h ⟨hf, hproper, isSuffixOf_iff_suffix.1 hsuffix⟩

/-! ## Files that are registered one after another -/

def registered (files : List (String × String)) : FileIndex :=
  files.foldl (fun x file => (x.insert file.1 file.2).1) .empty

variable {files : List (String × String)}

theorem registered_eq : registered files = ofTexts (textsOf {} files) := by
  have hfold : ∀ texts, files.foldl (fun x file => (x.insert file.1 file.2).1) (ofTexts texts) =
      ofTexts (textsOf texts files) := by
    induction files with
    | nil => exact fun _ => rfl
    | cons file files ih =>
      intro texts
      rw [foldl_cons, insert_ofTexts, ih]
      rfl
  exact hfold {}

theorem keys_textsOf :
    (textsOf {} files).keys = (files.map fun file => Path.normalize file.1).eraseDups := by
  induction files using List.reverseRecOn with
  | nil => rfl
  | append_singleton files file ih =>
    have hlast : textsOf {} (files ++ [file]) =
      (textsOf {} files).insert (Path.normalize file.1) file.2 :=
      foldl_concat _ _ _ _
    rw [hlast, keys_insert, ih, map_append, map_singleton, eraseDups_append]
    generalize files.map (fun file => Path.normalize file.1) = names
    by_cases h : Path.normalize file.1 ∈ names <;>
      simp [List.removeAll, mem_eraseDups, eraseDups_cons, h]

/-- The numbers and paths of files with these normal paths, in the order in which they were
registered. -/
structure Numbers (x : FileIndex) (names : List String) : Prop where
  dense : x.ids.map (·.index) = List.range x.size
  stored : ∀ f file, x.get? f = some file → file.id = f
  inverse : ∀ path f, x.byPath.get? path = some f ↔ f ∈ x.ids ∧ x.path f = path
  order : x.ids.map x.path = names.eraseDups
  injective : ∀ f ∈ x.ids, ∀ g ∈ x.ids, x.path f = x.path g → f = g
  found : ∀ path f, x.idOf? path = some f ↔ f ∈ x.ids ∧ Path.normalize path = x.path f
  again : ∀ f ∈ x.ids, x.idOf? (x.path f) = some f
  inserted : ∀ path text, (x.insert path text).2 = (x.idOf? path).getD ⟨x.size⟩ ∧
    (x.insert path text).1.idOf? path = some (x.insert path text).2
  kept : ∀ path text, ∀ f ∈ x.ids, f ∈ (x.insert path text).1.ids ∧
    (x.insert path text).1.path f = x.path f
  bySuffix : ∀ candidate f, x.findBySuffix? candidate = some f ↔
    x.EndsWith candidate f ∧ ∀ g, x.EndsWith candidate g → f.index ≤ g.index
  noSuffix : ∀ candidate, x.findBySuffix? candidate = none ↔ ∀ f, ¬ x.EndsWith candidate f

theorem snd_insert {text : String} : (x.insert path text).2 = (x.idOf? path).getD ⟨x.size⟩ := by
  unfold FileIndex.insert FileIndex.idOf?
  dsimp only
  split <;> rename_i hid <;> rw [hid] <;> rfl

theorem idOf?_insert {text : String} :
    (x.insert path text).1.idOf? path = some ((x.insert path text).2) := by
  unfold FileIndex.insert FileIndex.idOf?
  dsimp only
  split
  · assumption
  · rw [register, OrderedMap.get?_insert, if_pos rfl]

theorem insert_kept_ofTexts (path text : String) (hf : f ∈ (ofTexts texts).ids) :
    f ∈ ((ofTexts texts).insert path text).1.ids ∧
      ((ofTexts texts).insert path text).1.path f = (ofTexts texts).path f := by
  have hprefix : (ofTexts texts).paths <+: ((ofTexts texts).insert path text).1.paths := by
    rw [insert_ofTexts, paths_ofTexts, paths_ofTexts, keys_insert]
    split
    · exact prefix_rfl
    · exact prefix_append _ _
  have hlt := mem_ids_iff_lt.1 hf
  have hlt' := Nat.lt_of_lt_of_le hlt hprefix.length_le
  exact ⟨mem_ids_iff_lt.2
    hlt', by rw [← getElem_paths hlt', ← getElem_paths hlt, hprefix.getElem hlt]⟩

/-- Files are numbered in the order in which their normal paths first came, and numbers and normal
paths find each other. -/
theorem numbers_registered (files : List (String × String)) :
    (registered files).Numbers (files.map fun file => Path.normalize file.1) ∧
      ∀ path, Path.normalize (Path.normalize path) = Path.normalize path := by
  refine ⟨?_, fun _ => Path.normalize_normalize⟩
  have horderly : Orderly (textsOf {} files) := orderly_empty.textsOf
  rw [registered_eq]
  have hfound : ∀ path f, (ofTexts (textsOf {} files)).idOf? path = some f ↔
      f ∈ (ofTexts (textsOf {} files)).ids ∧
      Path.normalize path = (ofTexts (textsOf {} files)).path f := by
    intro path f
    rw [idOf?, horderly.get?_byPath_iff, eq_comm]
  refine ⟨?_, fun f _ => FileIndex.placed _ f.index _, fun _ _ => horderly.get?_byPath_iff, ?_,
    ?_, hfound, fun _ => horderly.idOf?_path, fun _ _ => ⟨snd_insert, idOf?_insert⟩,
    fun path text _ => insert_kept_ofTexts path text, fun _ _ => findBySuffix?_eq_some_iff, fun _ =>
    findBySuffix?_eq_none_iff⟩
  · simp [ids_eq, Function.comp_def]
  · rw [map_path_ids, paths_ofTexts, keys_textsOf]
  · intro f hf g hg heq
    exact Option.some.inj ((horderly.idOf?_path hf).symm.trans (heq ▸ horderly.idOf?_path hg))

end FileIndex

end LuaAnalysis
