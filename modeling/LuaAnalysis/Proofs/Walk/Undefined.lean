import Mathlib.Data.List.Basic
import LuaAnalysis.Proofs.Walk.Entry

/-!
# Undefined names

Which uses of names are lost can be read off the tree of a file, once it is known which names the
files of the project define. Passes that see other files lose exactly these uses, in whatever order
they come to the files. A walk of a file alone may lose more, but no others among the names that no
file defines.
-/

namespace LuaAnalysis

open List OrderedMap

/-! ## Lost uses -/

def noteUses (m : OrderedMap String (List TextRange)) (us : List (String × TextRange)) :
    OrderedMap String (List TextRange) :=
  us.foldl (fun m u => noteUse m (some u)) m

variable {m : OrderedMap String (List TextRange)} {e : Event} {n : String} {source : SourceFile}
  {chunk : Chunk}
  {es : List Event}

theorem noteUse_eq_noteUses {u? : Option (String × TextRange)} :
    noteUse m u? = noteUses m u?.toList := by
  cases u? <;> rfl

theorem filterKeys_noteUses {p : String → Bool} (m : OrderedMap String (List TextRange))
    {us : List (String × TextRange)} :
    (noteUses m us).filterKeys p = noteUses (m.filterKeys p) (us.filter fun u => p u.1) := by
  induction us generalizing m with
  | nil => rfl
  | cons u us ih =>
    change (noteUses (noteUse m (some u)) us).filterKeys p = _
    rw [ih]
    cases hu : p u.1 with
    | true =>
      rw [filter_cons, if_pos hu]
      have hnote : (noteUse m (some u)).filterKeys p = noteUse (m.filterKeys p) (some u) := by
        rw [noteUse, noteUse, OrderedMap.alter, OrderedMap.alter, filterKeys_insert, if_pos hu,
          get?_filterKeys hu]
      rw [hnote]
      rfl
    | false =>
      rw [filter_cons, if_neg (by simp [hu])]
      have hnote : (noteUse m (some u)).filterKeys p = m.filterKeys p :=
        (filterKeys_insert ..).trans (if_neg (by simp [hu]))
      rw [hnote]

namespace WalkEnv

variable (env : WalkEnv) (D : String → Bool)

/-- Whether nothing stands for a name that is not local, where `D` tells which names the files
define. -/
def isLost (name : String) : Bool :=
  !D name && !Builtin.isName name && !env.config.globals.isIgnored name

def lostUses (es : List Event) : List (String × TextRange) :=
  (es.filterMap Event.freeUse?).filter fun u => env.isLost D u.1

def undefinedUses (f : FileId) : List (String × TextRange) :=
  match env.chunk? f with
  | some chunk => env.lostUses D (chunk.trail f env.config.imports).events
  | none => []

theorem lostUses_cons : env.lostUses D (e :: es) =
    (e.freeUse?.toList.filter fun u => env.isLost D u.1) ++ env.lostUses D es := by
  simp only [lostUses]
  cases he : e.freeUse? with
  | none => rw [filterMap_cons_none he]; rfl
  | some u =>
    rw [filterMap_cons_some he, Option.toList_some, filter_cons, filter_cons]
    split <;> simp

end WalkEnv

/-! ## What defines a name -/

theorem mem_definedBy_iff {key? : Event → Option String} (ks : List String) :
    n ∈ definedBy key? es ks ↔ n ∈ ks ∨ ∃ e ∈ es, key? e = some n := by
  induction es generalizing ks with
  | nil => simp [definedBy]
  | cons e es ih =>
    change n ∈ definedBy key? es (noteKey ks (key? e)) ↔ _
    rw [ih, mem_noteKey_iff, or_assoc]
    simp

theorem Event.globalKey?_of_rootKey? (h : e.rootKey? = some n) : e.globalKey? = some n := by
  cases e with
  | writeRoot name range => exact h
  | _ => cases h

theorem WalkEnv.rootGlobals_subset (env : WalkEnv) {f : FileId} :
    (env.skeleton f).rootGlobals ⊆ (env.skeleton f).globals := by
  intro n hn
  unfold WalkEnv.skeleton at hn ⊢
  split at hn
  · obtain h | ⟨e, he, hkey⟩ := (mem_definedBy_iff _).1 hn
    · cases h
    · exact (mem_definedBy_iff _).2 (.inr ⟨e, he, Event.globalKey?_of_rootKey? hkey⟩)
  · cases hn

namespace FirstPass

variable {p : FirstPass} {name : String}

theorem isSome_global?_iff :
    (p.global? name).isSome ↔ ∃ a ∈ p.analyses, name ∈ a.result.globals.keys := by
  simp only [global?, FileAnalysis.global?, findSome?_isSome_iff, Option.isSome_map, mem_keys_iff]

theorem isSome_rootGlobal?_iff :
    (p.rootGlobal? name).isSome ↔ ∃ a ∈ p.analyses, name ∈ a.result.rootGlobals.keys := by
  simp only [rootGlobal?, findSome?_isSome_iff, Option.isSome_map, mem_keys_iff]

theorem isSome_global?_of_globalIn? {files : List FileId} (h : (p.globalIn? files name).isSome) :
    (p.global? name).isSome := by
  obtain ⟨found, hfound⟩ := Option.isSome_iff_exists.1 h
  obtain ⟨f, -, hf⟩ := exists_of_findSome?_eq_some hfound
  obtain ⟨a, ha, hv⟩ := Option.bind_eq_some_iff.1 hf
  obtain ⟨v, hv, -⟩ := Option.map_eq_some_iff.1 hv
  refine isSome_global?_iff.2 ⟨a, mem_of_find?_eq_some ha, ?_⟩
  exact mem_keys_of_get? hv

end FirstPass

namespace WalkM

variable {env : WalkEnv} {D : String → Bool} {f t : FileId} {e : Event} {es : List Event}
  {l : LoadCall} {w w₁ w' : Walk}
  {r : FileResult} {main : FunctionId}

/-- `D` are the names that the files define, and the pass knows them unless it sees one file
only. -/
structure Knows (env : WalkEnv) (D : String → Bool) : Prop where
  own : ∀ f, ∀ n ∈ (env.skeleton f).globals, D n = true
  sound : ∀ n, (env.firstPass.global? n).isSome → D n = true
  soundRoot : ∀ n, (env.firstPass.rootGlobal? n).isSome → D n = true
  complete : env.pass ≠ .fileLocal → ∀ n, D n = true → (env.firstPass.global? n).isSome

structure Undefines (env : WalkEnv) (D : String → Bool) (f : FileId) (r : FileResult) : Prop where
  undefined : r.undefined = noteUses {} (env.undefinedUses D f)
  diagnostics : ∀ source, env.files.get? f = some source →
    r.diagnostics.filter (·.kind == .undefinedGlobal) =
      ((env.undefinedUses D f).map (undefinedDiagnostic source.path)).filter (env.keeps source)

/-- All names in the tables are in `D`, and the results so far lose the uses that they have to. -/
structure BoundedTables (env : WalkEnv) (D : String → Bool) (t : ProjectTables) : Prop where
  globals : ∀ n ∈ t.globals.keys, D n = true
  rootGlobals : ∀ n ∈ t.rootGlobals.keys, D n = true
  results : ∀ g r, t.files.get? g = some r → Undefines env D g r

/-- All names that the walk has seen defined are in `D`. -/
structure Bounded (env : WalkEnv) (D : String → Bool) (w : Walk) : Prop where
  globals : ∀ n ∈ w.frame.globals.keys, D n = true
  tables : BoundedTables env D w.tables

/-! ## One use -/

theorem isSome_unfinishedDefinition?_iff (env : WalkEnv) (w : Walk) (n : String) :
    (unfinishedDefinition? env w n).isSome ↔ (env.firstPass.global? n).isSome := by
  rw [unfinishedDefinition?]
  cases hin : env.firstPass.globalIn? (w.frame.file :: w.phase.active) n with
  | none => simp
  | some found =>
    have hglobal := FirstPass.isSome_global?_of_globalIn? (Option.isSome_iff_exists.2 ⟨found, hin⟩)
    simp [hglobal]

theorem resolves_of_defined (hk : Knows env D) (hp : env.pass ≠ .fileLocal) (hn : D n = true) :
    resolves env w n = true := by
  have hglobal := hk.complete hp n hn
  have hunfinished := (isSome_unfinishedDefinition?_iff env w n).2 hglobal
  cases hpass : env.pass with
  | fileLocal => exact absurd hpass hp
  | project => simp [resolves, hpass, hunfinished]
  | _ => simp [resolves, isKnown, isVisible, hpass, hglobal]

theorem resolves_of_not_defined (hk : Knows env D) (hb : Bounded env D w) (hn : D n = false) :
    resolves env w n = (Builtin.isName n || env.config.globals.isIgnored n) := by
  have hnot : ¬ D n = true := by simp [hn]
  have hown : w.frame.globals.contains n = false :=
    Bool.eq_false_iff.2 fun h => hnot (hb.globals n (contains_iff.1 h))
  have hshared : w.tables.globals.contains n = false :=
    Bool.eq_false_iff.2 fun h => hnot (hb.tables.globals n (contains_iff.1 h))
  have hroot : w.tables.rootGlobals.contains n = false :=
    Bool.eq_false_iff.2 fun h => hnot (hb.tables.rootGlobals n (contains_iff.1 h))
  have hfirstRoot : (env.firstPass.rootGlobal? n).isSome = false :=
    Bool.eq_false_iff.2 fun h => hnot (hk.soundRoot n h)
  have hfirst : (env.firstPass.global? n).isSome = false :=
    Bool.eq_false_iff.2 fun h => hnot (hk.sound n h)
  have hunfinished : (unfinishedDefinition? env w n).isSome = false :=
    Bool.eq_false_iff.2 fun h => hnot (hk.sound n ((isSome_unfinishedDefinition?_iff env w n).1 h))
  have hvisible : isVisible env w n = false := by
    unfold isVisible
    split
    · rfl
    · exact hshared
    all_goals exact hfirst
  simp [resolves, isKnown, hown, hroot, hfirstRoot, hvisible, hunfinished]

theorem filter_lostUse? (hk : Knows env D) (hb : Bounded env D w) :
    ((lostUse? env w e).toList.filter fun u => !D u.1) = e.freeUse?.toList.filter fun u =>
      env.isLost D u.1 := by
  rw [lostUse?]
  cases e.freeUse? with
  | none => rfl
  | some u =>
    cases hu : D u.1 with
    | true =>
      rw [filter_eq_nil_iff.2, Option.toList_some, filter_cons,
        if_neg (by simp [WalkEnv.isLost, hu])]
      · rfl
      · intro v hv
        obtain rfl : u = v :=
          (Option.filter_eq_some_iff.1 (Option.mem_toList.1 hv)).1 |> Option.some.inj
        simp [hu]
    | false =>
      have hlost : env.isLost D u.1 = !resolves env w u.1 := by
        rw [resolves_of_not_defined hk hb hu, WalkEnv.isLost, hu]
        simp
      cases hr : resolves env w u.1 <;> simp [Option.filter, hr, hu, hlost]

theorem lostUse?_eq (hk : Knows env D) (hb : Bounded env D w) (hp : env.pass ≠ .fileLocal) :
    (lostUse? env w e).toList = e.freeUse?.toList.filter fun u => env.isLost D u.1 := by
  rw [← filter_lostUse? hk hb, filter_eq_self.2]
  intro u hu
  obtain ⟨-, hlost⟩ := Option.filter_eq_some_iff.1 (Option.mem_toList.1 hu)
  cases hd : D u.1 with
  | true => simp [resolves_of_defined hk hp hd] at hlost
  | false => rfl

/-! ## Runs -/

theorem boundedTables_start {pass : Pass} : BoundedTables env D (Walk.start pass).tables where
  globals _ h := nomatch h
  rootGlobals _ h := nomatch h
  results _ _ h := nomatch h

theorem BoundedTables.enlist (h : BoundedTables env D w.tables) (hlist : Enlists t r w w')
    (hr : Undefines env D t r) : BoundedTables env D w'.tables where
  globals := hlist.globals ▸ h.globals
  rootGlobals := hlist.rootGlobals ▸ h.rootGlobals
  results := hlist.files ▸ forall_get?_insert h.results hr

structure Loses (env : WalkEnv) (D : String → Bool) (es : List Event)
    (uses : List (String × TextRange)) (w w' : Walk) : Prop where
  bounded : Bounded env D w'
  undefined : w'.frame.undefined = noteUses w.frame.undefined uses
  findings : w'.names.undefinedFindings =
    w.names.undefinedFindings ++ (uses.map (undefinedDiagnostic w.frame.path)).filter
    w.frame.gate.admits
  lost : (uses.filter fun u => !D u.1) = env.lostUses D es
  exact : env.pass ≠ .fileLocal → uses = env.lostUses D es

namespace Bounded

theorem step (hb : Bounded env D w) (hs : Step env e w w')
    (he : ∀ n, e.globalKey? = some n → D n = true) : Bounded env D w' where
  globals n hn := by
    rw [hs.globals, mem_noteKey_iff] at hn
    exact hn.elim (hb.globals n) (he n)
  tables :=
    { globals := fun n hn => (hs.sharedGlobals n hn).elim (hb.tables.globals n) (he n)
      rootGlobals := fun n hn =>
        (hs.sharedRootGlobals n hn).elim (hb.tables.rootGlobals n) fun h =>
        he n (Event.globalKey?_of_rootKey? h)
      results := hs.files ▸ hb.tables.results }

theorem quiet {free : ScopeId → Prop} (hb : Bounded env D w) (hq : Quiet env free w w') :
    Bounded env D w' := by
  have hglobals : w'.tables.globals = w.tables.globals := congrArg NameTables.sharedGlobals hq.names
  have hroot : w'.tables.rootGlobals = w.tables.rootGlobals :=
    congrArg NameTables.sharedRootGlobals hq.names
  exact
    { globals := hq.globals ▸ hb.globals
      tables := ⟨hglobals ▸ hb.tables.globals, hroot ▸ hb.tables.rootGlobals,
        hq.files ▸ hb.tables.results⟩ }

theorem stay (hb : Bounded env D w) (hs : Stays env l w w') : Bounded env D w' :=
  ⟨hs.step.globals ▸ hb.globals, hs.tables ▸ hb.tables⟩

theorem entering (hb : BoundedTables env D w.tables) (f : FileId) (source : SourceFile)
    (chunk : Chunk) : Bounded env D (entering env f source chunk w) :=
  ⟨fun _ h => (nomatch h), hb⟩

end Bounded

namespace Loses

variable {uses : List (String × TextRange)}

theorem step (hk : Knows env D) (hb : Bounded env D w) (hs : Step env e w w₁)
    (h : Loses env D es uses w₁ w') :
    Loses env D (e :: es) ((lostUse? env w e).toList ++ uses) w w' where
  bounded := h.bounded
  undefined := by
    rw [h.undefined, hs.undefined, noteUse_eq_noteUses, noteUses, noteUses, noteUses, foldl_append]
  findings := by
    rw [h.findings, hs.undefinedFindings, hs.path, hs.gate, map_append, filter_append, append_assoc]
  lost := by rw [filter_append, filter_lostUse? hk hb, h.lost, WalkEnv.lostUses_cons]
  exact hp := by rw [lostUse?_eq hk hb hp, h.exact hp, WalkEnv.lostUses_cons]

theorem load (hs : LoadStep env l w w₁) (h : Loses env D es uses w₁ w') :
    Loses env D (.load l :: es) uses w w' where
  bounded := h.bounded
  undefined := by rw [h.undefined, hs.undefined]
  findings := by
    rw [h.findings, hs.undefinedFindings, part_eq hs.place Frame.path, part_eq hs.place Frame.gate]
  lost := h.lost
  exact := h.exact

end Loses

theorem undefines_brokenResult {err : SyntaxError} (hfile : env.files.get? f = some source)
    (htree : source.source.tree = .error err) :
    Undefines env D f (brokenResult env f source err) := by
  have huses : env.undefinedUses D f = [] := by
    rw [WalkEnv.undefinedUses, WalkEnv.chunk?_of_error hfile htree]
  refine ⟨by rw [huses]; rfl, fun source' _ => ?_⟩
  rw [huses, map_nil, filter_nil, filter_eq_nil_iff]
  intro d hd
  obtain rfl : d = source.syntaxDiagnostic err := mem_singleton.1 (mem_filter.1 hd).1
  simp [SourceFile.syntaxDiagnostic]

theorem Knows.of_ok (hk : Knows env D) (hfile : env.files.get? f = some source)
    (htree : source.source.tree = .ok chunk) :
    ∀ e ∈ (chunk.trail f env.config.imports).events, ∀ n, e.globalKey? = some n → D n = true := by
  intro e he n hn
  refine hk.own f n ?_
  rw [WalkEnv.skeleton_of_ok hfile htree]
  exact (mem_definedBy_iff _).2 (.inr ⟨e, he, hn⟩)

theorem Loses.undefines {uses : List (String × TextRange)}
    (h : Loses env D (chunk.trail f env.config.imports).events uses
      (entering env f source chunk w) w₁)
    (hfile : env.files.get? f = some source) (htree : source.source.tree = .ok chunk)
    (hp : env.pass ≠ .fileLocal) : Undefines env D f (treeResult f source main w₁) := by
  have huses : env.undefinedUses D f = uses := by
    rw [WalkEnv.undefinedUses, WalkEnv.chunk?_of_ok hfile htree, h.exact hp]
  refine ⟨by rw [huses]; exact h.undefined, fun source' hsource' => ?_⟩
  obtain rfl : source = source' := Option.some.inj (hfile.symm.trans hsource')
  rw [huses]
  exact h.findings

mutual

/-- Undefined names are reported as far as the gate of the file lets them through. -/
theorem Run.admits {f : FileId} {es : List Event} {ms : List Mention} {w w' : Walk}
    (h : Run env f es ms w w')
    (hw : ∀ d ∈ w.names.undefinedFindings, w.frame.gate.admits d = true) :
    ∀ d ∈ w'.names.undefinedFindings, w.frame.gate.admits d = true := by
  match h with
  | .done _ _ => exact hw
  | .quiet hm _ rest =>
    rw [← hm.quiet.gate] at hw ⊢
    exact rest.admits (hm.quiet.names ▸ hw)
  | .step hs _ rest =>
    rw [← hs.gate] at hw ⊢
    refine rest.admits fun d hd => ?_
    rw [hs.undefinedFindings, mem_append, ← hs.gate] at hd
    exact hd.elim (hw d) fun hd => (mem_filter.1 hd).2
  | .stay hs rest =>
    rw [← part_eq hs.step.place Frame.gate] at hw ⊢
    exact rest.admits (hs.step.undefinedFindings ▸ hw)
  | .away _ _ _ hr rest =>
    rw [← part_eq hr.step.place Frame.gate] at hw ⊢
    exact rest.admits (hr.step.undefinedFindings ▸ hw)

theorem Run.loses {f : FileId} {es : List Event} {ms : List Mention} {w w' : Walk}
    (h : Run env f es ms w w') (hk : Knows env D) (hes : ∀ e ∈ es, ∀ n, e.globalKey? = some n →
      D n = true) (hb : Bounded env D w) : ∃ uses, Loses env D es uses w w' := by
  match h with
  | .done _ _ => exact ⟨[], hb, rfl, by simp, rfl, fun _ => rfl⟩
  | .quiet hm _ rest =>
    obtain ⟨uses, h⟩ := rest.loses hk hes (hb.quiet hm.quiet)
    refine ⟨uses, { h with undefined := ?_, findings := ?_ }⟩
    · rw [h.undefined, hm.quiet.undefined]
    · rw [h.findings, hm.quiet.names, hm.quiet.path, hm.quiet.gate]
  | .step hs _ rest =>
    obtain ⟨he, hes⟩ := forall_mem_cons.1 hes
    obtain ⟨uses, h⟩ := rest.loses hk hes (hb.step hs he)
    exact ⟨_, h.step hk hb hs⟩
  | .stay hs rest =>
    obtain ⟨uses, h⟩ := rest.loses hk (forall_mem_cons.1 hes).2 (hb.stay hs)
    exact ⟨uses, h.load hs.step⟩
  | .away _ hnew inner hr rest =>
    -- What the file that is entered defines and loses is settled before this one goes on.
    obtain ⟨htables, -, hdone⟩ := inner.undefines hk hb.tables
    have hundefines := hdone (by rw [hnew.pass]; decide)
    obtain ⟨uses, h⟩ := rest.loses hk (forall_mem_cons.1 hes).2
      ⟨hr.step.globals ▸ hb.globals, htables.enlist hr.toEnlists hundefines⟩
    exact ⟨uses, h.load hr.step⟩

theorem Walks.undefines {f : FileId} {r : FileResult} {w w' : Walk} (h : Walks env f w r w')
    (hk : Knows env D) (hb : BoundedTables env D w.tables) :
    BoundedTables env D w'.tables ∧
    (r.undefined.filterKeys fun n => !D n) = noteUses {} (env.undefinedUses D f) ∧
      (env.pass ≠ .fileLocal → Undefines env D f r) := by
  match h with
  | .broken hfile htree =>
    refine ⟨hb, ?_, fun _ => undefines_brokenResult hfile htree⟩
    rw [WalkEnv.undefinedUses, WalkEnv.chunk?_of_error hfile htree]
    rfl
  | @Walks.read _ _ _ w₁ source chunk hread run =>
    obtain ⟨uses, hloses⟩ :=
      run.loses hk (hk.of_ok hread.file hread.tree) (.entering hb f source chunk)
    have hundefined : w₁.frame.undefined = noteUses {} uses := hloses.undefined
    refine ⟨hloses.bounded.tables, ?_, hloses.undefines hread.file hread.tree⟩
    change w₁.frame.undefined.filterKeys _ = _
    rw [hundefined, filterKeys_noteUses, hloses.lost, WalkEnv.undefinedUses,
      WalkEnv.chunk?_of_ok hread.file hread.tree]
    rfl

end

theorem BoundedTables.of_visits (h : BoundedTables env D w.tables) (hk : Knows env D)
    (hp : env.pass ≠ .fileLocal) (hv : Visits env f w w') : BoundedTables env D w'.tables := by
  cases hv with
  | again => exact h
  | first _ hwalks =>
    obtain ⟨htables, -, hdone⟩ := hwalks.undefines hk h
    exact htables.enlist (enlists_walked ..) (hdone hp)

end WalkM

end LuaAnalysis
