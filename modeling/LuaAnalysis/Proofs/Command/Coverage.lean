import LuaAnalysis.Command.Check
import LuaAnalysis.Proofs.Project.Session
import Mathlib.Data.Finset.Card

/-!
# Which files a check covers

A check collects paths below its arguments, drops a path with the steps of the one before it, and
names each file relative to the root; the project keeps one file for each normal name. So two files
can have one name, if one of them lies outside the root, and one file can be collected under two
paths, if the arguments spell it in two ways. Where neither happens the project holds every file on
the disk that was found, and the report counts it once.
-/

namespace LuaAnalysis

open List

/-! ## Registered files -/

variable {texts : OrderedMap String String} {files : List (String × String)} {α : Type}
  {entries : List String}
  {t : FileTree}
variable {root : DiskPath}

namespace FileIndex

theorem textsOf_cons {file : String × String} :
    textsOf texts (file :: files) = textsOf (texts.insert (Path.normalize file.1) file.2) files :=
  rfl

theorem mem_keys_textsOf {name : String} :
    name ∈ (textsOf texts files).keys ↔ name ∈ texts.keys ∨
    name ∈ files.map fun f => Path.normalize f.1 := by
  induction files generalizing texts with
  | nil => simp [textsOf]
  | cons file files ih =>
    rw [textsOf_cons, ih, OrderedMap.mem_keys_insert, map_cons, mem_cons]
    tauto

theorem get?_textsOf_of_not_mem {name : String} (h : name ∉ files.map fun f => Path.normalize f.1) :
    (textsOf texts files).get? name = texts.get? name := by
  induction files generalizing texts with
  | nil => rfl
  | cons file files ih =>
    rw [map_cons, mem_cons, not_or] at h
    rw [textsOf_cons, ih h.2, OrderedMap.get?_insert, if_neg (Ne.symm h.1)]

theorem get?_textsOf_of_last {earlier : List (String × String)} {last : String × String}
    {later : List (String × String)}
    (h : Path.normalize last.1 ∉ later.map fun f => Path.normalize f.1) :
    (textsOf texts (earlier ++ last :: later)).get? (Path.normalize last.1) = some last.2 := by
  have happend : textsOf texts (earlier ++ last :: later) =
    textsOf (textsOf texts earlier) (last :: later) :=
    foldl_append
  rw [happend, textsOf_cons, get?_textsOf_of_not_mem h, OrderedMap.get?_insert, if_pos rfl]

theorem size_ofTexts : (ofTexts texts).size = texts.keys.length := by
  simp [ofTexts, FileIndex.size, OrderedMap.keys]

theorem size_ofTexts_textsOf :
    (ofTexts (textsOf {} files)).size = (files.map fun f => Path.normalize f.1).toFinset.card := by
  have hset : (textsOf {} files).keys.toFinset =
      (files.map fun f => Path.normalize f.1).toFinset := by
    ext name
    rw [mem_toFinset, mem_toFinset, mem_keys_textsOf]
    simp [OrderedMap.keys]
  rw [size_ofTexts, ← hset, toFinset_card_of_nodup orderly_empty.textsOf.nodup]

end FileIndex

/-! ## Sessions that check all files -/

namespace Session

open Project (Answer)

variable {p p' : Project}

theorem Settles.run_discard {m : Session α} {answer : α → Answer}
    {x : Except AnalysisError (Project × α)} {paths : List String} {a : α}
    (h : Settles p paths ((answer <$> m).run p) (p.settle answer x)) (hp : p.Consistent)
    (hx : x = .ok (p', a)) : (discard m).run p = (.ok (), p') ∧ p'.Consistent := by
  subst hx
  have hrun := h.eq_swap
  have hconsistent := h.consistent hp
  rw [hrun] at hconsistent
  refine ⟨?_, hconsistent⟩
  cases hm : m.run p with
  | mk r q =>
    cases r with
    | error e =>
      rw [run_map_of_error hm] at hrun
      cases hrun
    | ok a =>
      rw [run_map_of_ok hm] at hrun
      obtain rfl : q = p' := congrArg Prod.snd hrun
      exact run_discard_of_ok hm

theorem run_check (hp : p.Consistent) (h : p.Registered entries) :
    ∃ result, (discard (check entries)).run p =
      (.ok (), { p.withFirstPass with result := some result }) ∧
      ({ p.withFirstPass with result := some result } : Project).Consistent := by
  obtain ⟨p', hcheck⟩ := Project.check_eq hp.fresh h
  obtain rfl := Project.of_check hp.fresh hcheck
  exact ⟨_, (settles_check hp entries).run_discard hp hcheck⟩

theorem run_checkScattered (hp : p.Consistent) {path : String} {f : FileId}
    (hf : p.files.idOf? path = some f) :
    ∃ r, (discard (checkScattered path)).run p =
      (.ok (), { p.withFirstPass with scattered := p.scattered.insert f r }) ∧
      ({ p.withFirstPass with scattered := p.scattered.insert f r } : Project).Consistent := by
  obtain ⟨r, hcheck, -⟩ := Project.checkScattered_eq hp.fresh hf
  exact ⟨r, (settles_checkScattered hp path).run_discard hp hcheck⟩

theorem run_forM_checkScattered (hp : p.Consistent) (hfirst : p.firstPass = some p.computeFirstPass)
    {paths : List String} (hpaths : p.Registered paths) :
    ∃ scattered, (paths.forM fun path => discard (checkScattered path)).run p =
      (.ok (), { p with scattered }) ∧
      ({ p with scattered } : Project).Consistent ∧
      ∀ f, (p.scattered.get? f).isSome ∨ (∃ path ∈ paths, p.files.idOf? path = some f) →
        (scattered.get? f).isSome := by
  induction paths generalizing p with
  | nil => exact ⟨p.scattered, rfl, hp, fun f hf => hf.resolve_right (by rintro ⟨_, ⟨⟩, _⟩)⟩
  | cons path paths ih =>
    obtain ⟨f, hf⟩ := Option.isSome_iff_exists.1 (hpaths path mem_cons_self)
    obtain ⟨r, hrun, hnext⟩ := run_checkScattered hp hf
    have hsame : p.withFirstPass = p := by rw [Project.withFirstPass, ← hfirst]
    rw [hsame] at hrun hnext
    obtain ⟨scattered, hrest, hconsistent, hall⟩ :=
      ih hnext hfirst fun path' hpath' => hpaths path' (mem_cons_of_mem path hpath')
    refine ⟨scattered, (run_bind_of_ok hrun).trans hrest, hconsistent, fun g hg => hall g ?_⟩
    dsimp only
    rw [OrderedMap.get?_insert]
    rcases hg with hold | ⟨path', hpath', hg⟩
    · left
      split
      · rfl
      · exact hold
    · rcases mem_cons.1 hpath' with rfl | hpath'
      · obtain rfl : f = g := Option.some.inj (hf.symm.trans hg)
        exact .inl (by rw [if_pos rfl]; rfl)
      · exact .inr ⟨path', hpath', hg⟩

theorem run_checkAll (hp : p.Consistent) (h : p.Registered entries) :
    ∃ p', (Check.checkAll entries).run p = (.ok (), p') ∧ p'.Consistent ∧ p'.files = p.files ∧
      p'.firstPass = some p.computeFirstPass ∧ ∀ f ∈ p.files.ids, (p'.laterResult? f).isSome := by
  obtain ⟨result, hcheck, hconsistent⟩ := run_check hp h
  set walked : Project := { p.withFirstPass with result := some result } with hwalked
  have hpaths : ∀ f ∈ p.files.ids, p.files.idOf? (p.files.path f) = some f :=
    fun f => Project.idOf?_path_of_orderly hp.files
  have hknown : walked.Registered (Check.unreached walked) := by
    intro path hpath
    obtain ⟨f, hf, rfl⟩ := mem_map.1 hpath
    exact Option.isSome_iff_exists.2 ⟨f, hpaths f (mem_filter.1 hf).1⟩
  obtain ⟨scattered, hrun, hchecked, hall⟩ := run_forM_checkScattered hconsistent rfl hknown
  refine ⟨{ walked with scattered }, ?_, hchecked, rfl, rfl, fun f hf => ?_⟩
  · unfold Check.checkAll
    rw [run_bind_of_ok hcheck, run_bind_of_ok (run_get)]
    exact hrun
  · change (result.tables.files.get? f <|> scattered.get? f).isSome
    cases hreached : result.tables.files.get? f with
    | some r => rfl
    | none =>
      refine hall f (.inr ⟨p.files.path f, mem_map.2 ⟨f, mem_filter.2 ⟨hf, ?_⟩, rfl⟩, hpaths f hf⟩)
      change (!(result.tables.files.contains f)) = true
      rw [OrderedMap.contains, hreached]
      rfl

end Session

/-! ## Diagnostics of all files -/

namespace Check

open Session Project

/-- Every file of the project contributes to the diagnostics: what the first pass has found in it,
and what the walk from the entries or a check of its own has found in it. -/
def Contribute (p : Project) (ds : List Diagnostic) : Prop :=
  ∃ later : FileId → FileResult, (∀ f ∈ p.files.ids, (later f).path = p.files.path f) ∧
    ds = p.files.ids.flatMap fun f =>
      mergeDiagnostics
      (((p.analyse? f).map (·.result.diagnostics)).getD [] ++ (later f).diagnostics)

variable {config : Config} {a : CheckArguments} {sources : List (String × String)}
  {files : List DiskPath}

theorem projectOf_eq {realtime : Bool} :
    projectOf config realtime sources = .holding config realtime (FileIndex.textsOf {} sources) :=
  (congrArg (List.foldl _ · sources) new_eq_holding).trans (foldl_addFile {})

theorem consistent_projectOf (config : Config) (realtime : Bool)
    (sources : List (String × String)) : (projectOf config realtime sources).Consistent := by
  rw [projectOf_eq]
  exact .invalidate (p := .holding config realtime (FileIndex.textsOf {} sources))
    ⟨_, FileIndex.orderly_empty.textsOf, rfl⟩

theorem exists_analyse (h : (projectOf config a.realtime sources).Registered a.entries) :
    ∃ ds, analyse config a sources = .ok ds ∧
      Contribute (projectOf config a.realtime sources) ds := by
  have hp := consistent_projectOf config a.realtime sources
  unfold analyse
  generalize projectOf config a.realtime sources = p at h hp
  obtain ⟨p', hrun, hp', hfiles, hfirst, hlater⟩ := run_checkAll hp h
  have hall : (do checkAll a.entries; allDiagnostics : Session (List Diagnostic)).runOn p =
    (.ok p'.allDiagnostics, p') :=
    (run_bind_of_ok hrun).trans (run_allDiagnostics hp')
  refine ⟨p'.allDiagnostics, congrArg Prod.fst hall,
    fun f => (p'.laterResult? f).getD default, fun f hf => ?_, ?_⟩
  · obtain ⟨r, hr⟩ := Option.isSome_iff_exists.1 (hlater f hf)
    dsimp only
    rw [hr, ← hfiles]
    exact hp'.path_laterResult? hr
  · rw [Project.allDiagnostics, hfiles]
    refine flatMap_congr fun f hf => ?_
    obtain ⟨r, hr⟩ := Option.isSome_iff_exists.1 (hlater f hf)
    dsimp only
    rw [diagnosticsOf, hfirst, hr, Option.bind_some, get?_computeFirstPass]
    rfl

/-! ## Files on a disk -/

/-- What the command finds on a disk before it analyses anything: the root, the settings, and files
that can be read. -/
structure Finds (t : FileTree) (a : CheckArguments) (root : DiskPath) (config : Config)
    (files : List DiskPath) : Prop where
  rooted : (projectRoot t.disk (a.targets.headD (.ofText "."))).run = .ok root
  loaded : (loadConfig t.disk root).config = config
  found : ∃ found, (a.targets.mapM (discover t.disk root config)).run = .ok found ∧
    files = inOrder found.flatten
  nonempty : files ≠ []
  texts : ∀ f ∈ files, (readText? t.disk f).isSome

def sourceOf (t : FileTree) (root f : DiskPath) : String × String :=
  (relativeName root f, (readText? t.disk f).getD "")

theorem run_readSource {f : DiskPath} (h : (readText? t.disk f).isSome) :
    (readSource t.disk root f).run = .ok (sourceOf t root f) := by
  unfold readSource sourceOf
  generalize readText? t.disk f = text? at h
  cases text? with
  | none => cases h
  | some text => rfl

theorem run_mapM_readSource (h : ∀ f ∈ files, (readText? t.disk f).isSome) :
    (files.mapM (readSource t.disk root)).run = .ok (files.map (sourceOf t root)) := by
  induction files with
  | nil => rfl
  | cons f files ih =>
    rw [forall_mem_cons] at h
    rw [mapM_cons, ExceptT.run_bind, run_readSource h.1]
    change ExceptT.run (_ >>= _) = _
    rw [ExceptT.run_bind, ih h.2]
    rfl

theorem run_of_finds (h : Finds t a root config files) {ds : List Diagnostic}
    (hds : analyse config a (files.map (sourceOf t root)) = .ok ds) (hformat : a.format = .json)
    {colors : ColorChoice} :
    (run t.disk colors a).output = (Report.json root.text files.length ds).render 0 ++ "\n" := by
  obtain ⟨found, hfound, rfl⟩ := h.found
  have hwith : ∀ colored, (runWith t.disk a colored root config).run = .ok
      { exitCode := exitCode a.failOnWarnings ds
        output := (Report.json root.text (inOrder found.flatten).length ds).render 0 ++ "\n" } := by
    intro colored
    unfold runWith
    rw [ExceptT.run_bind, hfound]
    change ExceptT.run (if (inOrder found.flatten).isEmpty then _ else _) = _
    rw [if_neg (by simpa using h.nonempty)]
    rw [ExceptT.run_bind, run_mapM_readSource h.texts]
    dsimp only [bind, ExceptT.bind, ExceptT.run, ExceptT.bindCont]
    rw [hds]
    unfold report
    rw [hformat]
    rfl
  unfold run
  dsimp only
  rw [h.rooted]
  change (settle (runWith t.disk a _ root (loadConfig t.disk root).config).run).output = _
  rw [h.loaded, hwith]
  rfl

/-! ## Numbers of files -/

theorem card_eq_length_iff [DecidableEq α] {xs : List α} :
    xs.toFinset.card = xs.length ↔ xs.Nodup := by
  rw [card_toFinset]
  constructor
  · intro h
    rw [← dedup_eq_self]
    exact (dedup_sublist xs).eq_of_length h
  · intro h
    rw [h.dedup]

theorem exists_last {β : Type} [DecidableEq β] (name : α → β) {xs : List α} {n : β}
    (h : n ∈ xs.map name) :
    ∃ earlier last later, xs = earlier ++ last :: later ∧ name last = n ∧ n ∉ later.map name := by
  induction xs with
  | nil => cases h
  | cons x xs ih =>
    by_cases hlater : n ∈ xs.map name
    · obtain ⟨earlier, last, later, rfl, hlast, hnone⟩ := ih hlater
      exact ⟨x :: earlier, last, later, rfl, hlast, hnone⟩
    · exact ⟨[], x, xs, rfl, ((mem_cons.1 h).resolve_right hlater).symm, hlater⟩

/-- Which files a check covers. The files that it finds are registered under their normal names
relative to the root, so that there is one registered file for each name, with the text of the last
found file of that name; the report counts the paths that were found. Both numbers are the number of
files on the disk if and only if no two paths have the same name and no two lead to the same file.
In any case, if the entries are registered, each registered file contributes to the report. -/
theorem covers_iff {t : FileTree} {root : DiskPath} {files : List DiskPath}
    (h : Finds t a root config files) : let name := fun f => Path.normalize (relativeName root f)
    let sources := files.map (sourceOf t root)
    let p := projectOf config a.realtime sources
    p.files.size = (files.map name).toFinset.card ∧
    (p.files.size = (files.map t.resolve?).toFinset.card ∧
      files.length = (files.map t.resolve?).toFinset.card ↔
      (files.map name).Nodup ∧ (files.map t.resolve?).Nodup) ∧
    (∀ f ∈ files, ∃ earlier last later id text, files = earlier ++ last :: later ∧
      name last = name f ∧
      name f ∉ later.map name ∧ readText? t.disk last = some text ∧
      p.files.idOf? (name f) = some id ∧
      p.files.get? id = some (.ofText id (name f) text)) ∧
    (p.Registered a.entries → ∃ ds, analyse config a sources = .ok ds ∧ Contribute p ds ∧
      ∀ colors, a.format = .json →
        (run t.disk colors a).output =
        (Report.json root.text files.length ds).render 0 ++ "\n") := by
  intro name sources p
  have hfiles : p.files = .ofTexts (FileIndex.textsOf {} sources) :=
    congrArg Project.files projectOf_eq
  have hnames : sources.map (fun source => Path.normalize source.1) = files.map name := by
    rw [map_map]
    rfl
  have hsize : p.files.size = (files.map name).toFinset.card := by
    rw [hfiles, FileIndex.size_ofTexts_textsOf, hnames]
  refine ⟨hsize, ?_, fun f hf => ?_, fun hentries => ?_⟩
  · rw [hsize, ← card_eq_length_iff, ← card_eq_length_iff, length_map, length_map]
    omega
  · obtain ⟨earlier, last, later, hsplit, hlast, hnone⟩ := exists_last name (mem_map_of_mem hf)
    obtain ⟨text, htext⟩ := Option.isSome_iff_exists.1 (h.texts last (by rw [hsplit]; simp))
    have hget : (FileIndex.textsOf {} sources).get? (name last) =
        some (sourceOf t root last).2 := by
      have hnone' : name last ∉ (later.map (sourceOf t root)).map fun source =>
          Path.normalize source.1 := by
        rw [map_map, hlast]
        exact hnone
      have hsources : sources =
          earlier.map (sourceOf t root) ++ sourceOf t root last :: later.map (sourceOf t root) := by
        rw [← map_cons, ← map_append, ← hsplit]
      rw [hsources]
      exact FileIndex.get?_textsOf_of_last hnone'
    have hnormal : Path.normalize (name f) = name f := Path.normalize_normalize
    rw [hlast, sourceOf, htext, Option.getD_some, ← hnormal] at hget
    obtain ⟨id, hid, hfile⟩ := FileIndex.exists_idOf?_ofTexts hget
    rw [hnormal] at hfile
    exact ⟨earlier, last, later, id, text, hsplit, hlast, hnone, htext, hfiles ▸ hid,
      hfiles ▸ hfile⟩
  · obtain ⟨ds, hds, hcontribute⟩ := exists_analyse hentries
    exact ⟨ds, hds, hcontribute, fun colors hformat => run_of_finds h hds hformat⟩

theorem inOrder_of_sorted (h : files.Pairwise (DiskPath.le · ·)) :
    inOrder files = files.eraseRepsBy DiskPath.sameSteps :=
  congrArg (List.eraseRepsBy _) (mergeSort_of_pairwise h)

/-- Two files with one path: one below `a`, and one from the directory that `a` lies in. -/
def sharedName : FileTree where
  files := [(["a", "b", "x.lua"], []), (["b", "x.lua"], [])]

theorem finds_sharedName :
    Finds sharedName { paths := ["a", "b"], format := .json } (.ofText "a") {}
      [.ofText "a/b/x.lua", .ofText "b/x.lua"] where
  rooted := eq_ok_of_toOption (by decide +kernel)
  loaded := by decide +kernel
  found := by
    refine ⟨[[.ofText "a/b/x.lua"], [.ofText "b/x.lua"]], eq_ok_of_toOption (by decide +kernel), ?_⟩
    rw [inOrder_of_sorted (by decide +kernel)]
    decide +kernel
  nonempty := by decide
  texts := by decide +kernel

theorem finds_twoSpellings :
    Finds sharedName { paths := ["./b", "b"] } (.ofText "./b") {}
      [.ofText "./b/x.lua", .ofText "b/x.lua"] where
  rooted := eq_ok_of_toOption (by decide +kernel)
  loaded := by decide +kernel
  found := by
    refine ⟨[[.ofText "./b/x.lua"], [.ofText "b/x.lua"]], eq_ok_of_toOption (by decide +kernel), ?_⟩
    rw [inOrder_of_sorted (by decide +kernel)]
    decide +kernel
  nonempty := by decide
  texts := by decide +kernel

theorem covers_iff_sharedName :
    let files : List DiskPath := [.ofText "a/b/x.lua", .ofText "b/x.lua"]
    let a : CheckArguments := { paths := ["a", "b"], format := .json }
    let sources := files.map (sourceOf sharedName (.ofText "a"))
    Finds sharedName a (.ofText "a") {} files ∧
    (projectOf {} false sources).files.size = 1 ∧
    ∃ ds, analyse {} a sources = .ok ds ∧ Contribute (projectOf {} false sources) ds ∧
      ∀ colors, (run sharedName.disk colors a).output =
      (Report.json "a" 2 ds).render 0 ++ "\n" := by
  intro files a sources
  obtain ⟨hsize, -, -, hreport⟩ := covers_iff finds_sharedName
  obtain ⟨ds, hds, hcontribute, houtput⟩ := hreport (fun _ h => nomatch h)
  exact ⟨finds_sharedName, hsize.trans (by decide +kernel), ds, hds, hcontribute,
    fun colors => houtput colors rfl⟩

/-- Of two files with one name relative to the root only one is registered, and a file that is
reached by two spellings of its path is counted twice. -/
theorem not_covers_sharedName :
    (∃ root files, Finds sharedName { paths := ["a", "b"], format := .json } root {} files ∧
      (files.map sharedName.resolve?).toFinset.card = 2 ∧
      (projectOf {} false (files.map (sourceOf sharedName root))).files.size = 1) ∧
    ∃ root files, Finds sharedName { paths := ["./b", "b"] } root {} files ∧
      (files.map sharedName.resolve?).toFinset.card = 1 ∧ files.length = 2 :=
  ⟨⟨_, _, finds_sharedName, by decide +kernel, by decide +kernel⟩,
    ⟨_, _, finds_twoSpellings, by decide +kernel, by decide +kernel⟩⟩

end Check

end LuaAnalysis
