import LuaAnalysis.Proofs.Walk.Undefined

/-!
# Globals that are read too early

A global that one file alone defines is read too early where that file has not defined it yet. A
walk of the file alone loses these reads. A walk from entry files, wherever it is suspended in
between, waits for the definition, and reports the reads at top level.
-/

namespace LuaAnalysis

open List OrderedMap

/-- A read of the name `n` as a global, and whether it is made at the top of the file. -/
def Event.readOf? (n : String) : Event → Option (TextRange × Bool)
  | read name range none false top => if name = n then some (range, top) else none
  | _ => none

def earlyReads (n : String) (known : Bool) : List Event → List (TextRange × Bool)
  | [] => []
  | e :: es => (if known then none else e.readOf? n).toList ++ earlyReads n
      (known || e.globalKey? == some n) es

/-- A warning about a use of `n` before its definition. -/
def Diagnostic.isEarlyUseOf (n : String) (d : Diagnostic) : Bool :=
  d.kind == .loadOrder && d.message == s!"global '{n}' is used before its definition has run"

theorem isEarlyUseOf_earlyDiagnostic {n path : String} {u : String × TextRange}
    {origin : RelatedPlace} :
    (earlyDiagnostic path u origin).isEarlyUseOf n = decide (u.1 = n) := by
  rw [Diagnostic.isEarlyUseOf, earlyDiagnostic, beq_self_eq_true, Bool.true_and,
    Bool.beq_eq_decide_eq]
  exact decide_eq_decide.2 (by simp [← String.toList_inj, toString])

theorem isEarlyUse_of_isEarlyUseOf {d : Diagnostic} (h : d.isEarlyUseOf n = true) :
    d.isEarlyUse = true := by
  simp only [Diagnostic.isEarlyUseOf, Bool.and_eq_true, beq_iff_eq] at h
  simp [Diagnostic.isEarlyUse, Diagnostic.isLoadCycle, h.1, h.2, toString, List.isPrefixOf]

/-- The reads of `n` that have found nothing so far. -/
def Walk.lostReads (n : String) (w : Walk) : List TextRange :=
  (w.frame.undefined.get? n).getD []

theorem get?_noteUse {n : String} {m : OrderedMap String (List TextRange)}
    {u? : Option (String × TextRange)} :
    ((noteUse m u?).get? n).getD [] =
      (m.get? n).getD [] ++ (u?.filter (·.1 = n)).toList.map (·.2) := by
  cases u? with
  | none => simp [noteUse]
  | some u =>
    rw [noteUse, OrderedMap.alter, get?_insert, Option.filter_some]
    by_cases hu : u.1 = n
    · simp [hu]
    · simp [hu]

namespace WalkEnv

variable (env : WalkEnv) (n : String)

def earlyReads (f : FileId) : List (TextRange × Bool) :=
  match env.chunk? f with
  | some chunk =>
    LuaAnalysis.earlyReads n (Builtin.isName n || env.config.globals.isIgnored n)
    (chunk.trail f env.config.imports).events
  | none => []

end WalkEnv

variable {source : SourceFile}

namespace WalkM

variable {env : WalkEnv} {f g t : FileId} {n : String} {origin : RelatedPlace} {e : Event}
  {es : List Event} {l : LoadCall}
  {w w₁ w' : Walk} {chunk : Chunk}

/-- No file but `f` defines `n`, and none as a root global; warnings point to `origin`. -/
structure Sole (env : WalkEnv) (f : FileId) (n : String) (origin : RelatedPlace) : Prop where
  others : ∀ g, g ≠ f → n ∉ (env.skeleton g).globals
  roots : ∀ g, n ∉ (env.skeleton g).rootGlobals
  first : env.firstPass.rootGlobal? n = none
  pass : env.pass.IsDirect
  awaited : env.pass = .project →
    ∀ w, (unfinishedDefinition? env w n).map (definitionPlace n) = some origin

/-- The warnings about early uses of `n` are those for its early reads, as far as they are shown. -/
def Early (env : WalkEnv) (f : FileId) (n : String) (origin : RelatedPlace)
    (r : FileResult) : Prop :=
  ∀ source, env.files.get? f = some source → r.diagnostics.filter (·.isEarlyUseOf n) =
    (((env.earlyReads n f).filter (·.2)).map fun u =>
      earlyDiagnostic source.path (n, u.1) origin).filter
      (env.keeps source)

/-- Nothing but the file `f` has defined `n`, and if it has been walked, it has reported what it had
to. -/
structure Unmet (env : WalkEnv) (f : FileId) (n : String) (origin : RelatedPlace)
    (w : Walk) : Prop where
  root : n ∉ w.tables.rootGlobals.keys
  shared : n ∈ w.tables.globals.keys → f ∈ w.phase.active ∨ f ∈ w.tables.files.keys
  results : ∀ r, w.tables.files.get? f = some r → Early env f n origin r

structure Own (f : FileId) (n : String) (w : Walk) : Prop where
  active : f ∈ w.phase.active
  shared : n ∈ w.tables.globals.keys → n ∈ w.frame.globals.keys

/-- The name is defined in this file so far, or is built in or ignored. -/
def isMet (env : WalkEnv) (n : String) (w : Walk) : Bool :=
  w.frame.globals.contains n || (Builtin.isName n || env.config.globals.isIgnored n)

/-- What is lost or reported about `n` on the way from `w` to `w'`. -/
structure Finds (env : WalkEnv) (n : String) (origin : RelatedPlace) (es : List Event)
    (w w' : Walk) : Prop where
  lost : env.pass = .fileLocal →
    w'.lostReads n = w.lostReads n ++ (earlyReads n (isMet env n w) es).map (·.1)
  early : env.pass = .project → w'.names.earlyFindings.filter (·.isEarlyUseOf n) =
    w.names.earlyFindings.filter (·.isEarlyUseOf n) ++
      (((earlyReads n (isMet env n w) es).filter (·.2)).map fun u =>
        earlyDiagnostic w.frame.path (n, u.1) origin).filter w.frame.gate.admits

/-! ## One read -/

theorem isKnown_eq (hs : Sole env f n origin) (hu : Unmet env f n origin w) (ho : Own f n w) :
    isKnown env w n = w.frame.globals.contains n := by
  have hroot : w.tables.rootGlobals.contains n = false :=
    Bool.eq_false_iff.2 fun h => hu.root (contains_iff.1 h)
  rw [isKnown, hroot, hs.first, Bool.or_false, Option.isSome_none, Bool.or_false]
  rcases hs.pass with hp | hp
  · rw [isVisible, hp, Bool.or_false]
  · rw [isVisible, hp]
    cases hshared : w.tables.globals.contains n with
    | false => exact Bool.or_false _
    | true =>
      have hmem := ho.shared (contains_iff.1 hshared)
      rw [(OrderedMap.contains_iff).2 hmem]
      rfl

theorem lostUse?_of_sole (hs : Sole env f n origin) (hu : Unmet env f n origin w) (ho : Own f n w)
    (hp : env.pass = .fileLocal) : ((lostUse? env w e).filter (·.1 = n)).toList.map (·.2) =
      (if isMet env n w then none else e.readOf? n).toList.map (·.1) := by
  have hresolves : resolves env w n = isMet env n w := by
    have hpass : (env.pass == .project) = false := by rw [hp]; rfl
    simp [resolves, isMet, isKnown_eq hs hu ho, hpass, Bool.or_assoc]
  rcases e with ⟨name, range, _ | b, _ | _, top⟩ | _ | _ | _
  · by_cases hname : name = n
    · subst hname
      cases hmet : isMet env name w <;>
        simp [lostUse?, Event.freeUse?, Event.readOf?, hresolves, hmet, Option.filter]
    · cases hr : resolves env w name <;>
        simp [lostUse?, Event.freeUse?, Event.readOf?, hname, hr, Option.filter]
  all_goals simp [lostUse?, Event.freeUse?, Event.readOf?]

theorem earlyUse?_of_sole (hs : Sole env f n origin) (hu : Unmet env f n origin w) (ho : Own f n w)
    (hp : env.pass = .project) : (earlyUse? env w e).toList.filter (·.isEarlyUseOf n) =
      ((if isMet env n w then none else e.readOf? n).toList.filter (·.2)).map fun u =>
        earlyDiagnostic w.frame.path (n, u.1) origin := by
  have hwait : awaited? env w n = if isMet env n w then none else some origin := by
    rw [awaited?, isKnown_eq hs hu ho, hs.awaited hp, hp]
    simp [isMet, or_assoc]
  rcases e with ⟨name, range, _ | b, _ | _, _ | _⟩ | _ | _ | _
  case read.none.false.true =>
    by_cases hname : name = n
    · subst hname
      cases hmet : isMet env name w <;>
        simp [earlyUse?, Event.topUse?, Event.readOf?, hwait, hmet, isEarlyUseOf_earlyDiagnostic]
    · cases hw : awaited? env w name <;>
        simp [earlyUse?, Event.topUse?, Event.readOf?, hname, hw, isEarlyUseOf_earlyDiagnostic]
  all_goals simp [earlyUse?, Event.topUse?, Event.readOf?]

/-! ## Runs -/

namespace Unmet

variable (hu : Unmet env f n origin w)
include hu

theorem of_names (hn : w'.names = w.names) (hc : w'.course = w.course) :
    Unmet env f n origin w' := by
  have hroot : w'.tables.rootGlobals = w.tables.rootGlobals :=
    congrArg NameTables.sharedRootGlobals hn
  have hglobals : w'.tables.globals = w.tables.globals := congrArg NameTables.sharedGlobals hn
  have hfiles : w'.tables.files = w.tables.files := congrArg Course.files hc
  have hphase : w'.phase = w.phase := congrArg Course.phase hc
  exact ⟨hroot ▸ hu.root, by rw [hglobals, hphase, hfiles]; exact hu.shared,
    by rw [hfiles]; exact hu.results⟩

theorem step (hst : Step env e w w') (hroot : e.rootKey? ≠ some n)
    (hkey : e.globalKey? = some n → f ∈ w.phase.active) : Unmet env f n origin w' where
  root hn := (hst.sharedRootGlobals n hn).elim hu.root hroot
  shared hn := by
    rw [hst.active, hst.files]
    exact (hst.sharedGlobals n hn).elim hu.shared fun h => .inl (hkey h)
  results := by
    rw [hst.files]
    exact hu.results

theorem enlist {r : FileResult} (hlist : Enlists t r w w')
    (hactive : f ∈ w.phase.active → f = t ∨ f ∈ w'.phase.active)
    (hdone : t = f → Early env f n origin r) : Unmet env f n origin w' where
  root := hlist.rootGlobals ▸ hu.root
  shared hn := by
    rw [hlist.files, mem_keys_insert]
    rcases hu.shared (hlist.globals ▸ hn) with hf | hf
    · exact (hactive hf).elim (fun ht => .inr (.inl ht)) .inl
    · exact .inr (.inr hf)
  results r' hr' := by
    rw [hlist.files] at hr'
    rcases of_get?_insert hr' with ⟨rfl, rfl⟩ | hold
    · exact hdone rfl
    · exact hu.results r' hold

theorem entering : Unmet env f n origin (entering env t source chunk w) where
  root := hu.root
  shared hn := (hu.shared hn).imp_left (mem_cons_of_mem t)
  results := hu.results

theorem own_entering (hactive : f ∉ w.phase.active) (hnew : f ∉ w.tables.files.keys) :
    Own f n (WalkM.entering env f source chunk w) where
  active := mem_cons_self
  shared hn := ((hu.shared hn).elim hactive hnew).elim

end Unmet

namespace Own

variable (ho : Own f n w)
include ho

theorem step (hst : Step env e w w') : Own f n w' where
  active := hst.active ▸ ho.active
  shared hn := by
    rw [hst.globals, mem_noteKey_iff]
    exact (hst.sharedGlobals n hn).imp_left ho.shared

theorem load (hst : LoadStep env l w w')
    (hstill : f ∈ w.phase.active → n ∈ w'.tables.globals.keys → n ∈ w.tables.globals.keys) :
    Own f n w' where
  active := hst.active ▸ ho.active
  shared hn := hst.globals ▸ ho.shared (hstill ho.active hn)

end Own

namespace Finds

theorem of_names (h : Finds env n origin es w₁ w') (hn : w₁.names = w.names)
    (hc : w₁.course = w.course) : Finds env n origin es w w' := by
  have hglobals : w₁.frame.globals = w.frame.globals := congrArg NameTables.globals hn
  have hundefined : w₁.frame.undefined = w.frame.undefined := congrArg NameTables.undefined hn
  have hpath : w₁.frame.path = w.frame.path := congrArg Course.path hc
  have hgate : w₁.frame.gate = w.frame.gate := congrArg Course.gate hc
  have hlost : w₁.lostReads n = w.lostReads n := by rw [Walk.lostReads, hundefined]; rfl
  have hmet : isMet env n w₁ = isMet env n w := by rw [isMet, hglobals]; rfl
  refine ⟨fun hp => ?_, fun hp => ?_⟩
  · rw [h.lost hp, hlost, hmet]
  · rw [h.early hp, hn, hmet, hpath, hgate]

theorem step (h : Finds env n origin es w₁ w') (hs : Sole env f n origin)
    (hu : Unmet env f n origin w) (ho : Own f n w) (hst : Step env e w w₁) :
    Finds env n origin (e :: es) w w' := by
  have hmet : isMet env n w₁ = (isMet env n w || e.globalKey? == some n) := by
    rw [Bool.eq_iff_iff]
    simp only [isMet, Bool.or_eq_true, OrderedMap.contains_iff, hst.globals, mem_noteKey_iff,
      beq_iff_eq]
    exact or_right_comm
  refine ⟨fun hp => ?_, fun hp => ?_⟩
  · rw [h.lost hp, hmet, Walk.lostReads, hst.undefined, get?_noteUse, lostUse?_of_sole hs hu ho hp,
      append_assoc, earlyReads, map_append]
    rfl
  · rw [h.early hp, hmet, hst.earlyFindings, filter_append, filter_comm _ w.frame.gate.admits,
      earlyUse?_of_sole hs hu ho hp, hst.path, hst.gate, append_assoc, earlyReads, filter_append,
      map_append, filter_append]

theorem load (h : Finds env n origin es w₁ w') (hst : LoadStep env l w w₁) :
    Finds env n origin (.load l :: es) w w' := by
  have hmet : isMet env n w₁ = isMet env n w := by rw [isMet, hst.globals]; rfl
  have hreads : earlyReads n (isMet env n w) (.load l :: es) = earlyReads n (isMet env n w) es := by
    cases isMet env n w <;> rfl
  refine ⟨fun hp => ?_, fun hp => ?_⟩
  · rw [h.lost hp, hmet, hreads, Walk.lostReads, hst.undefined]
    rfl
  · rw [h.early hp, hmet, hreads, hst.earlyFindings, part_eq hst.place Frame.path,
      part_eq hst.place Frame.gate]

end Finds

theorem early_brokenResult {err : SyntaxError} (hfile : env.files.get? f = some source)
    (htree : source.source.tree = .error err) :
    Early env f n origin (brokenResult env f source err) := by
  intro source' _
  rw [WalkEnv.earlyReads, WalkEnv.chunk?_of_error hfile htree]
  refine filter_eq_nil_iff.2 fun d hd => ?_
  obtain rfl : d = source.syntaxDiagnostic err := mem_singleton.1 (mem_filter.1 hd).1
  simp [Diagnostic.isEarlyUseOf, SourceFile.syntaxDiagnostic]

theorem Finds.treeResult {main : FunctionId} (hp : env.pass = .project)
    (h : Finds env n origin (chunk.trail f env.config.imports).events
      (entering env f source chunk w) w₁)
    (hfile : env.files.get? f = some source) (htree : source.source.tree = .ok chunk) :
    Early env f n origin (treeResult f source main w₁) := by
  intro source' hsource'
  obtain rfl : source = source' := Option.some.inj (hfile.symm.trans hsource')
  have hfound := h.early hp
  rw [WalkEnv.earlyReads, WalkEnv.chunk?_of_ok hfile htree]
  have hfilter : w₁.names.earlyFindings.filter (·.isEarlyUseOf n) =
      w₁.frame.findings.toList.filter (·.isEarlyUseOf n) := by
    change (w₁.frame.findings.toList.filter _).filter _ = _
    rw [filter_filter]
    refine filter_congr fun d _ => ?_
    cases hd : d.isEarlyUseOf n with
    | true => rw [isEarlyUse_of_isEarlyUseOf hd]; rfl
    | false => rfl
  exact hfilter.symm.trans hfound

/-- A run of `g` goes on waiting for `f`: if it is a run of `f` itself, it finds the reads that come
too early, and if `f` is suspended meanwhile, nothing defines `n`. -/
structure Awaits (env : WalkEnv) (f : FileId) (n : String) (origin : RelatedPlace) (g : FileId)
    (es : List Event) (w w' : Walk) : Prop where
  active : w'.phase.active = w.phase.active
  unmet : Unmet env f n origin w'
  finds : g = f → Finds env n origin es w w'
  still : g ≠ f → f ∈ w.phase.active → n ∈ w'.tables.globals.keys → n ∈ w.tables.globals.keys

theorem Awaits.load (h : Awaits env f n origin g es w₁ w') (hst : LoadStep env l w w₁)
    (hstill : f ∈ w.phase.active → n ∈ w₁.tables.globals.keys → n ∈ w.tables.globals.keys) :
    Awaits env f n origin g (.load l :: es) w w' where
  active := h.active.trans hst.active
  unmet := h.unmet
  finds hg := (h.finds hg).load hst
  still hg hf hn := hstill hf (h.still hg (hst.active ▸ hf) hn)

theorem Sole.events (hs : Sole env f n origin) (hfile : env.files.get? g = some source)
    (htree : source.source.tree = .ok chunk) :
    ∀ e ∈ (chunk.trail g env.config.imports).events, e.rootKey? ≠ some n ∧
      (e.globalKey? = some n → g = f) := by
  intro e he
  have hskeleton := WalkEnv.skeleton_of_ok hfile htree
  refine ⟨fun hkey => hs.roots g ?_, fun hkey => Decidable.byContradiction fun hne =>
    hs.others g hne ?_⟩ <;> rw [hskeleton]
  · exact (mem_definedBy_iff _).2 (.inr ⟨e, he, hkey⟩)
  · exact (mem_definedBy_iff _).2 (.inr ⟨e, he, hkey⟩)

mutual

theorem Run.awaits {g : FileId} {es : List Event} {ms : List Mention} {w w' : Walk}
    (h : Run env g es ms w w') (hs : Sole env f n origin)
    (hes : ∀ e ∈ es, e.rootKey? ≠ some n ∧ (e.globalKey? = some n → g = f))
    (hu : Unmet env f n origin w) (ho : g = f → Own f n w) : Awaits env f n origin g es w w' := by
  match h with
  | .done _ _ =>
    exact ⟨rfl, hu,
      fun _ => ⟨fun _ => by simp [earlyReads], fun _ => by simp [earlyReads]⟩, fun _ _ => id⟩
  | @Run.quiet _ _ _ _ _ _ w₁ _ hm _ rest =>
    have hn := hm.quiet.names
    have hc := hm.quiet.course
    have hglobals : w₁.tables.globals = w.tables.globals := congrArg NameTables.sharedGlobals hn
    have hactive := hm.quiet.active
    have hrest := rest.awaits hs hes (hu.of_names hn hc) fun hg =>
      ⟨hactive ▸ (ho hg).active, by rw [hglobals, hm.quiet.globals]; exact (ho hg).shared⟩
    exact ⟨hrest.active.trans hactive, hrest.unmet,
      fun hg => (hrest.finds hg).of_names hn hc, fun hg hf hn' =>
      hglobals ▸ hrest.still hg (hactive ▸ hf) hn'⟩
  | .step hst _ rest =>
    obtain ⟨⟨hroot, hkey⟩, hes⟩ := forall_mem_cons.1 hes
    have hrest := rest.awaits hs hes (hu.step hst hroot fun h => (ho (hkey h)).active) fun hg =>
      (ho hg).step hst
    refine ⟨hrest.active.trans hst.active, hrest.unmet,
      fun hg => (hrest.finds hg).step hs hu (ho hg) hst, fun hg hf hn => ?_⟩
    exact (hst.sharedGlobals n (hrest.still hg (hst.active ▸ hf) hn)).elim id fun h =>
      absurd (hkey h) hg
  | @Run.stay _ _ _ _ _ _ w₁ _ hst rest =>
    have hstill : f ∈ w.phase.active → n ∈ w₁.tables.globals.keys → n ∈ w.tables.globals.keys :=
      fun _ hn =>
      hst.tables ▸ hn
    have hu₁ : Unmet env f n origin w₁ := by
      refine ⟨hst.tables ▸ hu.root, ?_, hst.tables ▸ hu.results⟩
      rw [hst.tables, hst.step.active]
      exact hu.shared
    exact (rest.awaits hs (forall_mem_cons.1 hes).2 hu₁ fun hg => (ho hg).load hst.step hstill).load
      hst.step hstill
  | .away _ hnew inner hr rest =>
    obtain ⟨hu₁, hstill⟩ :=
      inner.awaits hs ⟨hu.root, hu.shared, hu.results⟩ hnew.pass hnew.inactive hnew.fresh
      hr.toEnlists hr.step.active
    exact (rest.awaits hs (forall_mem_cons.1 hes).2 hu₁ fun hg => (ho hg).load hr.step hstill).load
      hr.step hstill

theorem Walks.awaits {t : FileId} {r : FileResult} {w w₁ w' : Walk} (h : Walks env t w r w₁)
    (hs : Sole env f n origin) (hu : Unmet env f n origin w) (hp : env.pass = .project)
    (hinactive : t ∉ w.phase.active) (hfresh : t ∉ w.tables.files.keys) (hlist : Enlists t r w₁ w')
    (ha : w'.phase.active = w.phase.active) : Unmet env f n origin w' ∧
      (f ∈ w.phase.active → n ∈ w'.tables.globals.keys → n ∈ w.tables.globals.keys) := by
  match h with
  | .broken hfile htree =>
    refine ⟨hu.enlist hlist (fun hf => .inr (ha ▸ hf)) fun ht => ?_, fun _ hn => hlist.globals ▸ hn⟩
    exact early_brokenResult (ht ▸ hfile) htree
  | .read hread run =>
    have hrun := run.awaits hs (hs.events hread.file hread.tree) hu.entering fun ht =>
      ht ▸ hu.own_entering (ht ▸ hinactive) (ht ▸ hfresh)
    refine ⟨hrun.unmet.enlist { hlist with } (fun hf => ?_) fun ht => ?_, fun hf hn => ?_⟩
    · rw [hrun.active] at hf
      rw [ha]
      exact mem_cons.1 hf
    · subst ht
      exact (hrun.finds rfl).treeResult hp hread.file hread.tree
    · rw [hlist.globals] at hn
      exact hrun.still (fun ht => hinactive (ht ▸ hf)) (mem_cons_of_mem t hf) hn

end

/-! ## Walks of files -/

theorem unmet_start {pass : Pass} : Unmet env f n origin (.start pass) where
  root h := nomatch h
  shared h := nomatch h
  results _ h := nomatch h

theorem Walks.lostReads {r : FileResult} (h : Walks env f w r w') (hs : Sole env f n origin)
    (hp : env.pass = .fileLocal) (hu : Unmet env f n origin w) (hactive : f ∉ w.phase.active)
    (hnew : f ∉ w.tables.files.keys) :
    (r.undefined.get? n).getD [] = (env.earlyReads n f).map (·.1) := by
  cases h with
  | broken hfile htree =>
    rw [WalkEnv.earlyReads, WalkEnv.chunk?_of_error hfile htree]
    rfl
  | read hread run =>
    have hrun := run.awaits hs (hs.events hread.file hread.tree) hu.entering fun _ =>
      hu.own_entering hactive hnew
    rw [WalkEnv.earlyReads, WalkEnv.chunk?_of_ok hread.file hread.tree]
    exact (hrun.finds rfl).lost hp

theorem Unmet.of_visits (hu : Unmet env f n origin w) (hs : Sole env f n origin)
    (hp : env.pass = .project) (hactive : w.phase.active = []) (hv : Visits env g w w') :
    Unmet env f n origin w' := by
  cases hv with
  | again => exact hu
  | first hnew hwalks =>
    exact (hwalks.awaits hs hu hp (hactive ▸ not_mem_nil) hnew
      (enlists_walked ..) hwalks.comesBack.active).1

end WalkM

end LuaAnalysis
