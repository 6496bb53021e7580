import LuaAnalysis.Proofs.Walk.Pairing

/-!
# A narrower gate does not change a walk

A sieve decides for each file which of its diagnostics are shown. Where the gate of a file lets
through what a wider gate lets through and the sieve shows, the two walks of the file go on side by
side: a walk never looks at a diagnostic, and where it does not look for one it leaves nothing else
out. So the states of both walks are the same but for the gate and for diagnostics, which the
narrower walk has sifted (`paired_sift`); and so is what a file gives (`follows_walkFile`).
-/

namespace LuaAnalysis

/-- Which diagnostics of a file are shown. -/
abbrev Sieve := FileId → Diagnostic → Bool

variable {shows : Sieve}
variable {p : FirstPass} {f target : FileId} {name module : String}
  {m m' : WalkM (Option FileResult)}
  {found? : Option (FileAnalysis × VariableId)} {value : Option VariableId} {load : LoadKind}
variable {reference : ReferenceId} {site range : TextRange}

def FileResult.sift (shows : Sieve) (r : FileResult) : FileResult :=
  { r with diagnostics := r.diagnostics.filter (shows r.file) }

def FileAnalysis.sift (shows : Sieve) (a : FileAnalysis) : FileAnalysis :=
  { a with result := a.result.sift shows }

def FirstPass.sift (shows : Sieve) (p : FirstPass) : FirstPass :=
  ⟨p.analyses.map (·.sift shows)⟩

def ProjectTables.sift (shows : Sieve) (t : ProjectTables) : ProjectTables :=
  { t with files := t.files.mapValues (·.sift shows) }

/-- The state with sifted results, and with another frame. -/
def Walk.sift (shows : Sieve) (fr : Frame) (w : Walk) : Walk :=
  { w with tables := w.tables.sift shows, frame := fr }

/-- A frame and the same frame with a wider gate. -/
structure Frame.Sifted (keep : Diagnostic → Bool) (fr full : Frame) : Prop where
  same : full = { fr with gate := full.gate, findings := full.findings }
  findings : fr.findings.toList = full.findings.toList.filter keep
  admits : ∀ d, fr.gate.admits d = (full.gate.admits d && keep d)

namespace Frame.Sifted

variable {keep : Diagnostic → Bool} {fr full : Frame} (h : fr.Sifted keep full)
include h

theorem file : full.file = fr.file := by
  rw [h.same]

theorem function : full.function = fr.function := by
  rw [h.same]

theorem accept (d : Diagnostic) : (fr.accept d).Sifted keep (full.accept d) := by
  have hpushed := congrArg (fun g : Frame => { g with findings := full.findings.push d }) h.same
  unfold Frame.accept
  rw [h.admits d]
  cases full.gate.admits d with
  | false => exact h
  | true =>
    cases hkeep : keep d with
    | false => exact ⟨hpushed, by simp [h.findings, hkeep], h.admits⟩
    | true => exact ⟨hpushed, by simp [h.findings, hkeep], h.admits⟩

end Frame.Sifted

/-! ## What the first pass found -/

namespace FirstPass

theorem get?_sift {file : FileId} : (p.sift shows).get? file = (p.get? file).map (·.sift shows) :=
  List.find?_map ..

theorem findSome?_sift {f : FileAnalysis → Option VariableId} (hf : ∀ a, f (a.sift shows) = f a)
    (as : List FileAnalysis) : (as.map (·.sift shows)).findSome? (fun a => (f a).map (a, ·)) =
      (as.findSome? fun a => (f a).map (a, ·)).map (Prod.map (·.sift shows) id) := by
  induction as with
  | nil => rfl
  | cons a as ih => cases h : f a <;> simp [hf, h, ih]

theorem rootGlobal?_sift :
    (p.sift shows).rootGlobal? name = (p.rootGlobal? name).map (Prod.map (·.sift shows) id) :=
  findSome?_sift (f := fun a => a.result.rootGlobals.get? name) (fun _ => rfl) p.analyses

theorem global?_sift :
    (p.sift shows).global? name = (p.global? name).map (Prod.map (·.sift shows) id) :=
  findSome?_sift (f := fun a => a.global? name) (fun _ => rfl) p.analyses

theorem globalIn?_sift {files : List FileId} :
    (p.sift shows).globalIn? files name =
      (p.globalIn? files name).map (Prod.map (·.sift shows) id) := by
  unfold globalIn?
  induction files with
  | nil => rfl
  | cons f files ih =>
    rw [List.findSome?_cons, List.findSome?_cons, get?_sift, ih]
    cases p.get? f with
    | none => rfl
    | some a =>
      have ha : (a.sift shows).global? name = a.global? name := rfl
      cases h : a.global? name <;> simp [ha, h]

end FirstPass

/-- The same file with other directives: of the diagnostics that a pass reports about it the sieve
decides. -/
structure SourceFile.Sifted (shows : Diagnostic → Bool) (env full : WalkEnv)
    (file file' : SourceFile) : Prop where
  path : file.path = file'.path
  tree : file.source.tree = file'.source.tree
  keeps : ∀ d, env.keeps file d = (full.keeps file' d && shows d)

structure WalkEnv.Sifted (shows : Sieve) (env full : WalkEnv) : Prop where
  pass : env.pass = full.pass
  globals : env.config.globals = full.config.globals
  imports : env.config.imports = full.config.imports
  target : ∀ load module, Load.target? env.files env.config.imports load module =
    Load.target? full.files full.config.imports load module
  annotations : env.annotations = full.annotations
  path : ∀ f, env.files.path f = full.files.path f
  ids : env.files.ids = full.files.ids
  firstPass : env.firstPass = full.firstPass.sift shows
  files : ∀ f, Option.Rel (SourceFile.Sifted (shows f) env full) (env.files.get? f)
    (full.files.get? f)

theorem WalkEnv.Sifted.get?_eq_some {env full : WalkEnv} (h : env.Sifted shows full)
    {file' : SourceFile} (hget : full.files.get? f = some file') :
    ∃ file, env.files.get? f = some file ∧ SourceFile.Sifted (shows f) env full file file' := by
  have hrel := h.files f
  rw [hget] at hrel
  cases hfile : env.files.get? f with
  | none =>
    rw [hfile] at hrel
    cases hrel
  | some file =>
    rw [hfile] at hrel
    cases hrel with
    | some hsifted => exact ⟨file, rfl, hsifted⟩

namespace WalkM

/-- The first state is the second one, sifted, with a frame that is in a relation to the frame
there. -/
def Sifts (shows : Sieve) (F : Frame → Frame → Prop) (w full : Walk) : Prop :=
  ∃ fr, w = full.sift shows fr ∧ F fr full.frame

variable {α β : Type} {F : Frame → Frame → Prop} {keep : Diagnostic → Bool}

/-- The computation does, in a file with a narrower gate, what the other one does. -/
abbrev Follows (shows : Sieve) (keep : Diagnostic → Bool) (m full : WalkM α) : Prop :=
  Agrees (Sifts shows (Frame.Sifted keep)) m full

/-- For computations that may give the result of a file: it comes out sifted. -/
abbrev FollowsResult (shows : Sieve) (F : Frame → Frame → Prop)
    (m full : WalkM (Option FileResult)) : Prop :=
  Agrees (Sifts shows F) m (Option.map (·.sift shows) <$> full)

namespace Agrees

/-- A computation that neither looks at the results and the frame nor changes them. -/
theorem sifted {m : WalkM α}
    (h : ∀ w tables frame, m { w with tables, frame } = ((m w).1, { (m w).2 with tables, frame })) :
    Keeps (Sifts shows F) m := by
  rintro _ w ⟨fr, rfl, hfr⟩
  have hsame : (m w).2 = { (m w).2 with tables := w.tables, frame := w.frame } :=
    congrArg Prod.snd (h w w.tables w.frame)
  have hstep : m (w.sift shows fr) =
    ((m w).1, { (m w).2 with tables := w.tables.sift shows, frame := fr }) :=
    h w _ fr
  rw [hstep]
  refine ⟨rfl, fr, ?_, ?_⟩
  · rw [hsame]
    rfl
  · rw [hsame]
    exact hfr

theorem get_sifted {f f' : Walk → WalkM β}
    (hf : ∀ w fr, F fr w.frame → Agrees (Sifts shows F) (f (w.sift shows fr)) (f' w)) :
    Agrees (Sifts shows F) (get >>= f) (get >>= f') := by
  refine .get_bind ?_
  rintro _ w ⟨fr, rfl, hfr⟩
  exact hf w fr hfr

theorem bind_sifted {f f' : Option FileResult → WalkM β} (hm : FollowsResult shows F m m')
    (hf : ∀ r, Agrees (Sifts shows F) (f (r.map (·.sift shows))) (f' r)) :
    Agrees (Sifts shows F) (m >>= f) (m' >>= f') := by
  intro w w' h
  obtain ⟨hvalue, hstate⟩ := hm w w' h
  rw [bind_apply, bind_apply, ← hvalue]
  exact hf _ _ _ hstate

end Agrees

theorem FollowsResult.run (h : FollowsResult shows F m m') (w : Walk) (fr : Frame)
    (hfr : F fr w.frame) :
    ∃ fr', m (w.sift shows fr) = ((m' w).1.map (·.sift shows), (m' w).2.sift shows fr') ∧
      F fr' (m' w).2.frame := by
  obtain ⟨hvalue, fr', hstate, hfr'⟩ := h _ w ⟨fr, rfl, hfr⟩
  exact ⟨fr', Prod.ext hvalue.symm hstate, hfr'⟩

theorem sifts_modify {g : Walk → Walk} (hframe : ∀ w, (g w).frame = w.frame)
    (hg : ∀ w fr, Frame.Sifted keep fr w.frame → g (w.sift shows fr) = (g w).sift shows fr) :
    Keeps (Sifts shows (Frame.Sifted keep)) (modify g) := by
  rintro _ w ⟨fr, rfl, hfr⟩
  exact ⟨rfl, fr, hg w fr hfr, by rwa [← hframe w] at hfr⟩

theorem sifts_changeFrame {g : Frame → Frame}
    (hg : ∀ fr full : Frame, fr.Sifted keep full → (g fr).Sifted keep (g full)) :
    Keeps (Sifts shows (Frame.Sifted keep)) (changeFrame g) := by
  rintro _ w ⟨fr, rfl, hfr⟩
  exact ⟨rfl, g fr, rfl, hg fr w.frame hfr⟩

theorem sifts_admit (d : String → Diagnostic) :
    Keeps (Sifts shows (Frame.Sifted keep)) (changeFrame fun f => f.accept (d f.path)) := by
  refine sifts_changeFrame fun fr full h => ?_
  have hpath := congrArg Frame.path h.same
  rw [hpath]
  exact h.accept _

theorem sifts_changed {g : Frame → Frame}
    (hg : ∀ fr file gate findings, g { fr with file, gate, findings } =
      { g fr with file, gate, findings }) :
    Keeps (Sifts shows (Frame.Sifted keep)) (changeFrame g) := by
  refine sifts_changeFrame fun fr full h => ?_
  have hown : g fr = { g fr with file := fr.file, gate := fr.gate, findings := fr.findings } :=
    hg fr fr.file fr.gate fr.findings
  have hfull := hg fr fr.file full.gate full.findings
  have hgate := congrArg Frame.gate hown
  have hfindings := congrArg Frame.findings hown
  have hfile := congrArg Frame.file hown
  rw [h.same, hfull]
  refine ⟨?_, ?_, ?_⟩
  · rw [← hfile]
  · rw [hfindings]
    exact h.findings
  · rw [hgate]
    exact h.admits

theorem pairing_sift : Pairing id (Sifts shows (Frame.Sifted keep)) where
  store h := by
    obtain ⟨fr, rfl, -⟩ := h
    exact Store.twin_id
  frame h := by
    obtain ⟨fr, rfl, hfr⟩ := h
    exact hfr.same
  globals h := by
    obtain ⟨fr, rfl, -⟩ := h
    rfl
  changeStore _ _ := .sifted fun _ _ _ => rfl
  addScope := .sifted fun _ _ _ => rfl
  addVariable _ := .sifted fun _ _ _ => rfl
  addFunction _ := .sifted fun _ _ _ => rfl
  accept := sifts_admit
  changeFrame := sifts_changed
  notify := sifts_modify (fun _ => rfl) fun _ _ hfr => by simp [Walk.sift, hfr.file, hfr.function]
  notifyUnbound := sifts_modify (fun _ => rfl) fun _ _ hfr => by simp [Walk.sift, hfr.file]
  checkMember := .bind (.sifted fun _ _ _ => rfl) fun _ => .ite
    (.bind (.sifted fun _ _ _ => rfl) fun _ => sifts_admit fun file =>
      { kind := _, message := _, file, range := _ }) .pure

/-! ## Names -/

variable {env full : WalkEnv} {enter enter' : Enter}

theorem importFound_sift :
    importFound (found?.map (Prod.map (·.sift shows) id)) = importFound found? := by
  cases found? <;> rfl

theorem follows_importFound : Keeps (Sifts shows F) (importFound found?) := by
  unfold importFound
  split
  · exact .map (.sifted fun _ _ _ => rfl)
  · exact .pure

section

variable (h : env.Sifted shows full)
include h

theorem follows_rootGlobal? : Agrees (Sifts shows F) (importFound (env.firstPass.rootGlobal? name))
    (importFound (full.firstPass.rootGlobal? name)) := by
  rw [h.firstPass, FirstPass.rootGlobal?_sift, importFound_sift]
  exact follows_importFound

theorem follows_visibleGlobal? :
    Agrees (Sifts shows F) (visibleGlobal? env name) (visibleGlobal? full name) := by
  unfold visibleGlobal?
  rw [h.pass, h.firstPass, FirstPass.global?_sift, importFound_sift]
  split
  · exact .pure
  · exact .get_sifted fun _ _ _ => .pure
  · exact follows_importFound
  · exact follows_importFound
  · exact follows_importFound

theorem unfinishedDefinition?_sift {w : Walk} {fr : Frame} (hfile : w.frame.file = fr.file) :
    unfinishedDefinition? env (w.sift shows fr) name =
      (unfinishedDefinition? full w name).map (Prod.map (·.sift shows) id) := by
  unfold unfinishedDefinition?
  rw [h.firstPass, FirstPass.globalIn?_sift, FirstPass.global?_sift, hfile]
  show (Option.map _ (full.firstPass.globalIn? (fr.file :: w.phase.active) name) <|> _) = _
  cases full.firstPass.globalIn? (fr.file :: w.phase.active) name <;> rfl

theorem follows_lookupUndefined :
    Follows shows keep (lookupUndefined env name) (lookupUndefined full name) := by
  unfold lookupUndefined
  rw [h.globals, h.pass]
  refine .ite .pure (.ite .pure (.get_sifted fun w fr hfr => ?_))
  rw [unfinishedDefinition?_sift h hfr.file, hfr.function]
  cases unfinishedDefinition? full w name with
  | none => exact .pure
  | some found =>
    exact .bind (.sifted fun _ _ _ => rfl) fun _ => .bind (.sifted fun _ _ _ => rfl) fun _ => .pure

theorem follows_lookup : Follows shows keep (lookup env name) (lookup full name) := by
  refine .get_sifted fun w fr hfr => ?_
  rw [hfr.same]
  dsimp only [Walk.sift, ProjectTables.sift]
  cases w.store.lookupLocal? fr.scope name with
  | some id => exact .pure
  | none =>
    cases fr.globals.get? name with
    | some id => exact .pure
    | none =>
      cases w.tables.rootGlobals.get? name with
      | some id => exact .pure
      | none =>
        refine .bind (follows_rootGlobal? h) fun root => ?_
        cases root with
        | some id => exact .pure
        | none =>
          refine .bind (follows_visibleGlobal? h) fun global => ?_
          cases global with
          | some id => exact .pure
          | none => exact follows_lookupUndefined h

theorem follows_changeTables {g g' : ProjectTables → ProjectTables}
    (hg : ∀ t, g (t.sift shows) = (g' t).sift shows) :
    Agrees (Sifts shows F) (changeTables env g) (changeTables full g') := by
  unfold changeTables
  rw [h.pass]
  refine .ite ?_ .pure
  rintro _ w ⟨fr, rfl, hfr⟩
  refine ⟨rfl, fr, ?_, hfr⟩
  show { w with tables := g (w.tables.sift shows), frame := fr } = _
  rw [hg]
  rfl

theorem follows_knownGlobal? :
    Follows shows keep (knownGlobal? env name) (knownGlobal? full name) := by
  refine pairing_sift.frame_bind fun fr _ _ => ?_
  dsimp only
  split
  · exact .pure
  · exact follows_visibleGlobal? h

theorem follows_knownRootGlobal? :
    Follows shows keep (knownRootGlobal? env name) (knownRootGlobal? full name) := by
  refine .get_sifted fun w fr hfr => ?_
  rw [hfr.same, h.pass]
  dsimp only [Walk.sift, ProjectTables.sift]
  split
  · exact .pure
  · split
    · exact .pure
    · exact .pure
    · exact follows_rootGlobal? h
    · exact follows_rootGlobal? h
    · exact follows_rootGlobal? h

end

/-! ## Loads -/

theorem follows_withLoadSite (h : FollowsResult shows (Frame.Sifted keep) m m') :
    FollowsResult shows (Frame.Sifted keep) (withLoadSite site m) (withLoadSite site m') := by
  unfold FollowsResult withLoadSite
  simp only [map_bind, map_pure]
  refine .bind (sifts_modify (fun _ => rfl) fun _ _ hfr => ?_) fun _ => .bind_sifted h fun r =>
    .bind (.sifted fun _ _ _ => rfl) fun _ => .pure
  simp [Walk.sift, hfr.file]

theorem follows_resultOf (h : env.Sifted shows full)
    (he : ∀ f, FollowsResult shows (Frame.Sifted keep) (enter f) (enter' f)) :
    FollowsResult shows (Frame.Sifted keep) (resultOf env enter target site)
      (resultOf full enter' target site) := by
  unfold FollowsResult resultOf
  rw [map_bind]
  refine .get_sifted fun w fr _ => ?_
  dsimp only [Walk.sift, ProjectTables.sift]
  rw [OrderedMap.get?_mapValues]
  cases w.tables.files.get? target with
  | some r => exact .pure
  | none =>
    dsimp only [Option.map_none]
    rw [map_bind]
    refine .bind_sifted (follows_withLoadSite (he target)) fun r => ?_
    cases r with
    | none => exact .pure
    | some r =>
      dsimp only [Option.map_some]
      rw [map_bind]
      refine .bind (follows_changeTables h fun t => ?_) fun _ => .pure
      simp only [ProjectTables.sift, OrderedMap.mapValues_insert]

theorem follows_loadedInfo : Keeps (Sifts shows F) (loadedInfo load reference value) := by
  unfold loadedInfo
  split
  · exact .sifted fun _ _ _ => rfl
  · exact .pure

theorem follows_remember : Keeps (Sifts shows F) (remember target load value) :=
  .bind (.sifted fun _ _ _ => rfl) fun _ => .pure

section

variable (h : env.Sifted shows full)
include h

theorem follows_moduleValue
    (he : ∀ f, FollowsResult shows (Frame.Sifted keep) (enter f) (enter' f)) :
    Follows shows keep (moduleValue env enter reference target load)
      (moduleValue full enter' reference target load) := by
  refine .get_sifted fun w fr _ => ?_
  dsimp only [Walk.sift]
  rw [h.pass, h.firstPass, FirstPass.get?_sift]
  cases w.loaded.get? (target, load) with
  | some value => exact .pure
  | none =>
    dsimp only
    split
    · exact follows_remember
    · refine .ite (.bind (.sifted fun _ _ _ => rfl) fun _ => .pure)
        (.bind_sifted (follows_resultOf h he) fun r => ?_)
      cases r with
      | none => exact .pure
      | some r => exact .bind (.sifted fun _ _ _ => rfl) fun _ => follows_remember
    all_goals
      cases full.firstPass.get? target with
      | some a => exact .bind (.sifted fun _ _ _ => rfl) fun _ => follows_remember
      | none => exact follows_remember

theorem follows_reportCycle :
    Follows shows keep (reportCycle env module target range)
      (reportCycle full module target range) := by
  unfold reportCycle
  rw [h.path]
  exact .get_sifted fun _ _ _ => pairing_sift.report

theorem follows_visitLoad (he : ∀ f, FollowsResult shows (Frame.Sifted keep) (enter f) (enter' f)) :
    Follows shows keep (visitLoad env enter load module range)
      (visitLoad full enter' load module range) := by
  unfold visitLoad
  rw [h.target, h.imports]
  refine .bind (.sifted fun _ _ _ => rfl) fun reference => .bind (sifts_changed fun _ _ _ _ => rfl)
    fun _ => ?_
  split
  · exact .ite (.bind pairing_sift.report fun _ => follows_loadedInfo) follows_loadedInfo
  · refine .bind (follows_moduleValue h he) fun value => .bind (.sifted fun _ _ _ => rfl) fun _ =>
      .ite ?_ follows_loadedInfo
    exact .bind (follows_reportCycle h) fun _ => follows_loadedInfo

end

theorem paired_sift (h : env.Sifted shows full)
    (he : ∀ f, FollowsResult shows (Frame.Sifted keep) (enter f) (enter' f)) :
    Paired id (Sifts shows (Frame.Sifted keep)) env full enter enter' where
  toPairing := pairing_sift
  lookup _ := follows_lookup h
  knownGlobal? _ := follows_knownGlobal? h
  knownRootGlobal? _ := follows_knownRootGlobal? h
  shareGlobal := follows_changeTables h fun _ => rfl
  shareRootGlobal := follows_changeTables h fun _ => rfl
  loadOf? _ _ hw := by
    obtain ⟨fr, rfl, hfr⟩ := hw
    unfold loadOf?
    rw [h.imports, hfr.same]
    rfl
  visitLoad := follows_visitLoad h he

/-! ## Files -/

variable {file file' : SourceFile} {f : FileId}

theorem atEnd_sift (h : env.Sifted shows full)
    (he : ∀ f', FollowsResult shows (Frame.Sifted (shows f)) (enter f') (enter' f'))
    (hfile : SourceFile.Sifted (shows f) env full file file') (chunk : Chunk) (w : Walk)
    (fr : Frame) :
    ∃ last, atEnd env enter f file chunk (w.sift shows fr) =
      (atEnd full enter' f file' chunk w).sift shows last ∧
      last.Sifted (shows f) (atEnd full enter' f file' chunk w).frame := by
  have hstart : Sifts shows (Frame.Sifted (shows f)) (entering env f file chunk (w.sift shows fr))
      (entering full f file' chunk w) := by
    refine ⟨(entering env f file chunk w).frame, rfl, ?_, rfl, hfile.keeps⟩
    unfold entering
    rw [hfile.path, h.annotations]
  exact ((paired_sift h he).walkTree _ _ hstart).2

theorem follows_walkFile (h : env.Sifted shows full) {available : List FileId} :
    FollowsResult shows F (walkFile env available f) (walkFile full available f) := by
  induction available, f using walkFile.induct full generalizing F with
  | case1 available f hget' =>
    have hrel := h.files f
    rw [hget'] at hrel
    cases hget : env.files.get? f with
    | some file =>
      rw [hget] at hrel
      cases hrel
    | none =>
      rintro _ w ⟨fr, rfl, hfr⟩
      rw [map_apply, walkFile_of_none hget, walkFile_of_none hget']
      exact ⟨rfl, fr, rfl, hfr⟩
  | case2 available f file' hget' e htree =>
    obtain ⟨file, hget, hfile⟩ := h.get?_eq_some hget'
    rintro _ w ⟨fr, rfl, hfr⟩
    rw [map_apply, walkFile_of_error hget' htree, walkFile_of_error hget (hfile.tree.trans htree)]
    refine ⟨?_, fr, rfl, hfr⟩
    have hkeeps : [file'.syntaxDiagnostic e].filter (env.keeps file) =
        ([file'.syntaxDiagnostic e].filter (full.keeps file')).filter (shows f) := by
      rw [List.filter_filter]
      exact List.filter_congr fun d _ => (hfile.keeps d).trans (Bool.and_comm _ _)
    unfold SourceFile.syntaxDiagnostic at hkeeps
    unfold brokenResult SourceFile.syntaxDiagnostic
    rw [hfile.path, hkeeps]
    rfl
  | case3 available f file' hget' chunk htree ih =>
    obtain ⟨file, hget, hfile⟩ := h.get?_eq_some hget'
    have he : ∀ target, FollowsResult shows (Frame.Sifted (shows f))
      (enterFrom env available target)
        (enterFrom full available target) := by
      intro target
      unfold enterFrom
      by_cases htarget : target ∈ available
      · rw [if_pos htarget, if_pos htarget]
        exact ih target htarget
      · rw [if_neg htarget, if_neg htarget]
        exact .pure
    rintro _ w ⟨fr, rfl, hfr⟩
    obtain ⟨last, hend, hlast⟩ := atEnd_sift h he hfile chunk w fr
    rw [map_apply, walkFile_of_ok hget' htree, walkFile_of_ok hget (hfile.tree.trans htree), hend]
    generalize atEnd full _ f file' chunk w = w₁ at hlast
    refine ⟨?_, fr, rfl, hfr⟩
    show some (FileResult.sift shows (treeResult f file' _ w₁)) =
      some (treeResult f file _ (w₁.sift shows last))
    unfold treeResult FileResult.sift
    rw [hlast.same]
    dsimp only [Walk.sift]
    rw [hlast.findings, hfile.path]
    rfl

theorem follows_walkAlone (h : env.Sifted shows full) (f : FileId) :
    FollowsResult shows F (walkAlone env f) (walkAlone full f) := by
  unfold walkAlone
  rw [h.ids]
  exact follows_walkFile h

theorem isWalked_sift {t : ProjectTables} : (t.sift shows).isWalked f = t.isWalked f := by
  simp only [ProjectTables.sift, ProjectTables.isWalked, OrderedMap.contains,
    OrderedMap.get?_mapValues, Option.isSome_map]

theorem follows_walkEntry (h : env.Sifted shows full) :
    Agrees (Sifts shows F) (walkEntry env f) (walkEntry full f) := by
  refine .get_sifted fun w fr _ => ?_
  dsimp only [Walk.sift]
  rw [isWalked_sift]
  refine .ite .pure (.bind_sifted (follows_walkAlone h f) fun r => ?_)
  cases r with
  | none => exact .pure
  | some r =>
    refine follows_changeTables h fun t => ?_
    simp only [ProjectTables.sift, OrderedMap.mapValues_insert]

end WalkM

end LuaAnalysis
