import LuaAnalysis.Proofs.Walk.Run

/-!
# The skeleton of a file

The names of the globals of a file, its loads and its scopes come from its tree alone. A walk finds
them whatever the pass, and they stay what they are while other files are walked in the same store
(`Fits`).
-/

namespace LuaAnalysis

open List

/-! ## Skeletons -/

/-- A load and the file that it reaches. -/
abbrev Link := LoadCall × Option FileId

def Reference.link (r : Reference) : Link :=
  (⟨r.load, r.path, r.range⟩, r.target)

def LoadCall.link (l : LoadCall) (env : WalkEnv) : Link :=
  (l, l.target? env)

theorem Reference.link_of_core {r r' : Reference} (h : r.core = r'.core) : r.link = r'.link := by
  have hl : ∀ x : Reference, x.link = x.core.link := fun _ => rfl
  rw [hl r, hl r', h]

/-- What every walk of a file finds. -/
@[ext] structure Skeleton where
  globals : List String := []
  rootGlobals : List String := []
  references : List Link := []
  scopes : Option ScopeTree := none

def FileResult.skeleton (r : FileResult) (s : Store) : Skeleton where
  globals := r.globals.keys
  rootGlobals := r.rootGlobals.keys
  references := r.references.map fun id => (s.referenceAt id).link
  scopes := r.mainFunction.map fun main => s.scopeTree (s.functionAt main).mainScope

theorem FileResult.mem_references_skeleton_iff (r : FileResult) {s : Store} {t : FileId} :
    (∃ l, (l, some t) ∈ (r.skeleton s).references) ↔
    ∃ id ∈ r.references, (s.referenceAt id).target = some t := by
  constructor
  · rintro ⟨l, hl⟩
    obtain ⟨id, hid, hlink⟩ := mem_map.1 hl
    exact ⟨id, hid, congrArg Prod.snd hlink⟩
  · rintro ⟨id, hid, ht⟩
    refine ⟨(s.referenceAt id).link.1, mem_map.2 ⟨id, hid, ?_⟩⟩
    rw [← ht]
    rfl

def definedBy (key? : Event → Option String) (es : List Event) (ks : List String) : List String :=
  es.foldl (fun ks e => noteKey ks (key? e)) ks

def Chunk.skeleton (chunk : Chunk) (env : WalkEnv) (f : FileId) : Skeleton :=
  let es := (chunk.trail f env.config.imports).events
  { globals := definedBy Event.globalKey? es []
    rootGlobals := definedBy Event.rootKey? es []
    references := (es.filterMap Event.load?).map (·.link env)
    scopes := some (chunk.scopeTree f env.config.imports) }

def WalkEnv.chunk? (env : WalkEnv) (f : FileId) : Option Chunk :=
  (env.files.get? f).bind fun source => source.source.tree.toOption

def WalkEnv.skeleton (env : WalkEnv) (f : FileId) : Skeleton :=
  match env.chunk? f with
  | some chunk => chunk.skeleton env f
  | none => {}

variable {chunk : Chunk} {e : SyntaxError}

namespace WalkEnv

variable {env : WalkEnv} {f : FileId} {source : SourceFile}

theorem chunk?_of_error (hfile : env.files.get? f = some source)
    (htree : source.source.tree = .error e) : env.chunk? f = none := by
  simp [chunk?, hfile, htree, Except.toOption]

theorem chunk?_of_ok (hfile : env.files.get? f = some source)
    (htree : source.source.tree = .ok chunk) : env.chunk? f = some chunk := by
  simp [chunk?, hfile, htree, Except.toOption]

theorem of_chunk? (h : env.chunk? f = some chunk) :
    ∃ source, env.files.get? f = some source ∧ source.source.tree = .ok chunk := by
  obtain ⟨source, hsource, htree⟩ := Option.bind_eq_some_iff.1 h
  refine ⟨source, hsource, ?_⟩
  cases hread : source.source.tree with
  | error e => simp [hread, Except.toOption] at htree
  | ok chunk' =>
    rw [hread] at htree
    exact congrArg Except.ok (Option.some.inj htree)

theorem skeleton_of_ok (hfile : env.files.get? f = some source)
    (htree : source.source.tree = .ok chunk) : env.skeleton f = chunk.skeleton env f := by
  rw [skeleton, chunk?_of_ok hfile htree]

end WalkEnv

namespace WalkM

variable {env : WalkEnv} {f : FileId} {es : List Event} {w w' : Walk} {roots : List ScopeId}
  {source : SourceFile}
variable {r : FileResult} {w₁ : Walk}

/-! ## What a run leaves in its file -/

structure Records (env : WalkEnv) (es : List Event) (w w' : Walk) : Prop where
  globals : w'.frame.globals.keys = definedBy Event.globalKey? es w.frame.globals.keys
  rootGlobals : w'.frame.rootGlobals.keys = definedBy Event.rootKey? es w.frame.rootGlobals.keys
  grows : Grows Reference.core w.store.references w'.store.references
  references : ∃ new, w'.frame.references = w.frame.references ++ new ∧
    (∀ id ∈ new, id.index < w'.store.references.size) ∧
    new.map (fun id => (w'.store.referenceAt id).link) = (es.filterMap Event.load?).map (·.link env)

theorem Records.load {l : LoadCall} (hs : LoadStep env l w w₁) (h : Records env es w₁ w') :
    Records env (.load l :: es) w w' := by
  obtain ⟨new, hrefs, hlt, hlinks⟩ := h.references
  refine ⟨by rw [h.globals, hs.globals]; rfl, by rw [h.rootGlobals, hs.rootGlobals]; rfl,
    hs.store.references.trans h.grows, nextReference w :: new, ?_, ?_, ?_⟩
  · rw [hrefs, hs.references]
    simp
  · rintro id (_ | ⟨_, hid⟩)
    · exact Nat.lt_of_lt_of_le hs.size_lt h.grows.size_le
    · exact hlt id hid
  · have hcore : (w'.store.referenceAt (nextReference w)).core =
      (w₁.store.referenceAt (nextReference w)).core :=
      h.grows.core_eq _ hs.size_lt
    have hlink : (w₁.store.referenceAt (nextReference w)).link = l.link env := by
      have hcore₁ := congrArg Reference.link hs.reference
      exact hcore₁
    rw [map_cons, hlinks, Reference.link_of_core hcore, hlink]
    rfl

theorem Run.records {es : List Event} {ms : List Mention} {w w' : Walk} :
    Run env f es ms w w' → Records env es w w'
  | .done _ _ => ⟨rfl, rfl, .refl, [], by simp, by simp, rfl⟩
  | .quiet hm _ rest => by
    obtain ⟨hglobals, hroots, hgrows, new, hrefs, hnew⟩ := rest.records
    have hq := hm.quiet
    exact ⟨by rw [hglobals, hq.globals], by rw [hroots, hq.rootGlobals],
      hq.store.references.trans hgrows, new, by rw [hrefs, hq.references], hnew⟩
  | .step hs _ rest => by
    obtain ⟨hglobals, hroots, hgrows, new, hrefs, hlt, hlinks⟩ := rest.records
    refine ⟨by rw [hglobals, hs.globals]; rfl, by rw [hroots, hs.rootGlobals]; rfl,
      hs.store.references.trans hgrows, new, by rw [hrefs, hs.references], hlt, ?_⟩
    rw [hlinks, filterMap_cons_none hs.isName]
  | .stay hs rest => rest.records.load hs.step
  | .away _ _ _ hr rest => rest.records.load hr.step

/-! ## Results in a growing store -/

def Ends (env : WalkEnv) (f : FileId) (source : SourceFile) (chunk : Chunk)
    (r : FileResult) : Prop :=
  ∃ (enter : Enter) (w : Walk), enter.Returns ∧ w.store.WellFormed ∧
    r = treeResult f source (nextMain w) (atEnd env enter f source chunk w)

/-- A result of the file `f` that shows the skeleton of the file, in a store where the scopes below
`roots` may still grow. -/
structure Fits (env : WalkEnv) (s : Store) (roots : List ScopeId) (f : FileId)
    (r : FileResult) : Prop where
  skeleton : r.skeleton s = env.skeleton f
  references_lt : ∀ id ∈ r.references, id.index < s.references.size
  main_lt : ∀ main ∈ r.mainFunction, main.index < s.functions.size
  main_file : ∀ main ∈ r.mainFunction, (s.functionAt main).file = f
  scope_lt : ∀ main ∈ r.mainFunction, (s.functionAt main).mainScope.index < s.scopes.size
  outermost : ∀ main ∈ r.mainFunction, (s.scopeAt (s.functionAt main).mainScope).parent = none
  apart : ∀ main ∈ r.mainFunction, (s.functionAt main).mainScope ∉ roots
  ends : ∀ source chunk, env.files.get? f = some source → source.source.tree = .ok chunk →
    Ends env f source chunk r

namespace Fits

variable {s s' : Store} {roots roots' : List ScopeId} {r : FileResult}

theorem mono {free : ScopeId → Prop} (h : Fits env s roots f r) (hs : s.WellFormed)
    (hext : Store.Extends free s s')
    (hfree : ∀ a : ScopeId, a.index < s.scopes.size → free a → ∃ m ∈ roots, s.rootOf a = some m) :
    Fits env s' roots f r := by
  have hcore : ∀ main ∈ r.mainFunction, (s'.functionAt main).core = (s.functionAt main).core :=
    fun main hmain =>
    hext.function_core (h.main_lt main hmain)
  have hscope : ∀ main ∈ r.mainFunction, (s'.functionAt main).mainScope =
    (s.functionAt main).mainScope :=
    fun main hmain => part_eq (hcore main hmain) Function.mainScope
  have hskeleton : r.skeleton s' = r.skeleton s := by
    have hrefs : ∀ id ∈ r.references, (s'.referenceAt id).link = (s.referenceAt id).link :=
      fun id hid =>
      Reference.link_of_core (hext.reference_core (h.references_lt id hid))
    have htree : ∀ main ∈ r.mainFunction,
        s'.scopeTree (s'.functionAt main).mainScope =
        s.scopeTree (s.functionAt main).mainScope := by
      intro main hmain
      rw [hscope main hmain]
      refine hext.scopeTree_eq hs (h.scope_lt main hmain) fun a ha hlt hf => ?_
      -- A scope in the tree of the file lies below no scope that may grow.
      obtain ⟨m, hm, hroot⟩ := hfree a hlt hf
      rw [Store.rootOf_of_mem ha (h.outermost main hmain), Option.some.injEq] at hroot
      exact h.apart main hmain (hroot ▸ hm)
    rw [FileResult.skeleton, FileResult.skeleton, map_congr_left hrefs, Option.map_congr htree]
  exact
    { skeleton := hskeleton.trans h.skeleton
      references_lt :=
        fun id hid => Nat.lt_of_lt_of_le (h.references_lt id hid) hext.references.size_le
      main_lt := fun main hmain => Nat.lt_of_lt_of_le (h.main_lt main hmain) hext.functions.size_le
      main_file := fun main hmain =>
        (congrArg Function.file (hcore main hmain)).trans (h.main_file main hmain)
      scope_lt := fun main hmain => by
        rw [hscope main hmain]
        exact hext.scope_lt (h.scope_lt main hmain)
      outermost := fun main hmain => by
        rw [hscope main hmain, hext.parent_eq (h.scope_lt main hmain)]
        exact h.outermost main hmain
      apart := fun main hmain => by
        rw [hscope main hmain]
        exact h.apart main hmain
      ends := h.ends }

theorem extends_false (h : Fits env s roots f r) (hs : s.WellFormed)
    (hext : Store.Extends (fun _ => False) s s') : Fits env s' roots f r :=
  h.mono hs hext fun _ _ => False.elim

theorem cons (h : Fits env s roots f r) {m : ScopeId} (hm : s.scopes.size ≤ m.index) :
    Fits env s (m :: roots) f r :=
  { h with
    apart := fun main hmain hmem => by
      rcases mem_cons.1 hmem with heq | hmem
      · have hlt := h.scope_lt main hmain
        rw [heq] at hlt
        omega
      · exact h.apart main hmain hmem }

theorem weaken (h : Fits env s roots f r) (hsub : ∀ m ∈ roots', m ∈ roots) :
    Fits env s roots' f r :=
  { h with apart := fun main hmain hmem => h.apart main hmain (hsub _ hmem) }

end Fits

theorem fits_brokenResult (hfile : env.files.get? f = some source)
    (htree : source.source.tree = .error e) {s : Store} :
    Fits env s roots f (brokenResult env f source e) where
  skeleton := by
    rw [WalkEnv.skeleton, WalkEnv.chunk?_of_error hfile htree]
    rfl
  references_lt _ h := nomatch h
  main_lt _ h := nomatch h
  main_file _ h := nomatch h
  scope_lt _ h := nomatch h
  outermost _ h := nomatch h
  apart _ h := nomatch h
  ends _ _ h ht := by
    cases hfile.symm.trans h
    cases htree.symm.trans ht

theorem Reads.main (h : Reads env f source chunk w w') :
    (nextMain w).index < w'.store.functions.size ∧ (w'.store.functionAt (nextMain w)).mainScope =
      nextScope w ∧
      (w'.store.functionAt (nextMain w)).file = f := by
  have hlt : (nextMain w).index < (entering env f source chunk w).store.functions.size := by
    simp [entering, nextMain]
  have hcore := h.store.function_core hlt
  have hnew := Store.functionAt_addFunction_new w.store (.main f chunk.range)
  refine ⟨Nat.lt_of_lt_of_le hlt h.store.functions.size_le, ?_, ?_⟩
  · rw [part_eq hcore Function.mainScope]
    exact congrArg Function.mainScope hnew
  · exact (part_eq hcore Function.file).trans (congrArg Function.file hnew)

theorem fits_treeResult (hread : Reads env f source chunk w w')
    (hrun : Run env f (chunk.trail f env.config.imports).events (chunk.mentions f)
      (entering env f source chunk w) w') (hroots : ∀ m ∈ roots, m.index < w.store.scopes.size) :
    Fits env w'.store roots f (treeResult f source (nextMain w) w') := by
  obtain ⟨hlt, hscope, hfile⟩ := hread.main
  have hnew := scope_lt_entering env f source chunk w
  obtain ⟨hglobals, hroots', -, new, hrefs, hrefsLt, hlinks⟩ := hrun.records
  have hrefs' : w'.frame.references = new := hrefs
  refine
    { skeleton := ?_
      references_lt := fun id hid => hrefsLt id (by rw [← hrefs']; exact hid)
      main_lt := by rintro _ ⟨⟩; exact hlt
      main_file := by rintro _ ⟨⟩; exact hfile
      scope_lt := by rintro _ ⟨⟩; rw [hscope]; exact hread.store.scope_lt hnew
      outermost := ?_
      apart := ?_
      ends := fun _ _ h ht => ?_ }
  · rw [WalkEnv.skeleton_of_ok hread.file hread.tree]
    refine Skeleton.ext ?_ ?_ ?_ ?_
    · exact hglobals
    · exact hroots'
    · rw [← hrefs'] at hlinks
      exact hlinks
    · change some (w'.store.scopeTree (w'.store.functionAt (nextMain w)).mainScope) = some _
      rw [hscope, hread.scopes]
  · rintro _ ⟨⟩
    rw [hscope, hread.store.parent_eq hnew, scopeAt_entering]
  · rintro _ ⟨⟩ hmem
    rw [hscope] at hmem
    exact Nat.lt_irrefl _ (hroots _ hmem)
  · cases hread.file.symm.trans h
    cases hread.tree.symm.trans ht
    obtain ⟨enter, he, rfl⟩ := hread.ends
    exact ⟨enter, w, he, hread.wellFormed, rfl⟩

theorem Fits.scopes_eq {s : Store} (h : Fits env s roots f r) :
    (r.mainFunction.map fun main => s.scopeTree (s.functionAt main).mainScope) =
      (env.chunk? f).map (·.scopeTree f env.config.imports) := by
  have hscopes := congrArg Skeleton.scopes h.skeleton
  rw [WalkEnv.skeleton] at hscopes
  cases hchunk : env.chunk? f with
  | none =>
    rw [hchunk] at hscopes
    exact hscopes
  | some chunk =>
    rw [hchunk] at hscopes
    exact hscopes

structure Below (roots : List ScopeId) (w : Walk) : Prop where
  roots_lt : ∀ m ∈ roots, m.index < w.store.scopes.size
  scope_lt : w.frame.scope.index < w.store.scopes.size
  root : ∃ m ∈ roots, w.store.rootOf w.frame.scope = some m

theorem Below.of_extends (h : Below roots w) (hs : Store.Extends (fun _ => False) w.store w'.store)
    (hp : w'.frame.place = w.frame.place) : Below roots w' where
  roots_lt m hm := hs.scope_lt (h.roots_lt m hm)
  scope_lt := by
    rw [part_eq hp Frame.scope]
    exact hs.scope_lt h.scope_lt
  root := by
    rw [part_eq hp Frame.scope, hs.rootOf_eq h.scope_lt]
    exact h.root

theorem Below.of_moves (h : Below roots w) (hm : Moves env w w') : Below roots w' where
  roots_lt m hmem := hm.quiet.store.scope_lt (h.roots_lt m hmem)
  scope_lt := hm.scope_lt
  root := by
    rw [hm.root]
    exact h.root

theorem below_entering (hroots : ∀ m ∈ roots, m.index < w.store.scopes.size) (f : FileId)
    (source : SourceFile) (chunk : Chunk) :
    Below (nextScope w :: roots) (entering env f source chunk w) where
  roots_lt m hm := by
    rcases mem_cons.1 hm with rfl | hm
    · exact scope_lt_entering env f source chunk w
    · exact (extends_entering env f source chunk w).scope_lt (hroots m hm)
  scope_lt := by
    rw [scope_entering]
    exact scope_lt_entering env f source chunk w
  root := by
    refine ⟨nextScope w, mem_cons_self, ?_⟩
    rw [scope_entering]
    refine Store.rootOf_of_mem ?_ (by rw [scopeAt_entering])
    rw [Store.ancestors]
    exact mem_cons_self

/-- The results so far fit their files, and a main function in the store belongs to one of those
that are being walked, or to the result of a file whose walk has come to its end. -/
structure Accounts (env : WalkEnv) (opened : List FunctionId) (roots : List ScopeId)
    (w : Walk) : Prop where
  fits : ∀ g r, w.tables.files.get? g = some r → Fits env w.store roots g r
  mains : ∀ main ∈ w.store.mains, main ∈ opened ∨ ∃ g r, Fits env w.store roots g r ∧
    r.mainFunction = some main

namespace Accounts

variable {opened : List FunctionId}

theorem mono (h : Accounts env opened roots w)
    (hfit : ∀ g r, Fits env w.store roots g r → Fits env w'.store roots g r)
    (hfiles : w'.tables.files = w.tables.files) (hmains : w'.store.mains = w.store.mains) :
    Accounts env opened roots w' where
  fits g r hg := hfit g r (h.fits g r (hfiles ▸ hg))
  mains main hmain :=
    (h.mains main (hmains ▸ hmain)).imp_right fun ⟨g, r, hg, hr⟩ => ⟨g, r, hfit g r hg, hr⟩

theorem extends_false (h : Accounts env opened roots w) (hw : w.store.WellFormed)
    (hext : Store.Extends (fun _ => False) w.store w'.store)
    (hfiles : w'.tables.files = w.tables.files) (hmains : w'.store.mains = w.store.mains) :
    Accounts env opened roots w' :=
  h.mono (fun _ _ hfit => hfit.extends_false hw hext) hfiles hmains

theorem entering (h : Accounts env opened roots w) (hw : w.store.WellFormed) (f : FileId)
    (source : SourceFile) (chunk : Chunk) :
    Accounts env (nextMain w :: opened) (nextScope w :: roots) (entering env f source chunk w) := by
  have hfit : ∀ g r, Fits env w.store roots g r →
      Fits env (WalkM.entering env f source chunk w).store (nextScope w :: roots) g r :=
      fun g r hg =>
    (hg.cons (Nat.le_refl _)).extends_false hw (extends_entering env f source chunk w)
  refine ⟨fun g r hg => hfit g r (h.fits g r hg), fun main hmain => ?_⟩
  rw [mains_entering hw, mem_append, mem_singleton] at hmain
  rcases hmain with hmain | rfl
  · exact (h.mains main hmain).imp (mem_cons_of_mem _) fun ⟨g, r, hg, hr⟩ => ⟨g, r, hfit g r hg, hr⟩
  · exact .inl mem_cons_self

theorem leaving (h : Accounts env (nextMain w :: opened) (nextScope w :: roots) w₁)
    (hfit : Fits env w₁.store roots f (treeResult f source (nextMain w) w₁)) :
    Accounts env opened roots (leaving w w₁) := by
  have hweaken : ∀ g r,
    Fits env w₁.store (nextScope w :: roots) g r → Fits env w₁.store roots g r := fun g r hg =>
    hg.weaken fun m hm => mem_cons_of_mem _ hm
  refine ⟨fun g r hg => hweaken g r (h.fits g r hg), fun main hmain => ?_⟩
  rcases h.mains main hmain with hopened | ⟨g, r, hg, hr⟩
  · rcases mem_cons.1 hopened with rfl | hopened
    · exact .inr ⟨f, _, hfit, rfl⟩
    · exact .inl hopened
  · exact .inr ⟨g, r, hweaken g r hg, hr⟩

theorem enlist {t : FileId} (h : Accounts env opened roots w) (hw : w.store.WellFormed)
    (hlist : Enlists t r w w') (hr : Fits env w.store roots t r) :
    Accounts env opened roots w' := by
  have hfit : ∀ g r, Fits env w.store roots g r → Fits env w'.store roots g r := fun _ _ h =>
    h.extends_false hw hlist.store
  exact
    { fits := hlist.files ▸
        OrderedMap.forall_get?_insert (fun g r' hg => hfit g r' (h.fits g r' hg)) (hfit t r hr)
      mains := fun main hmain =>
        (h.mains main (hlist.mains ▸ hmain)).imp_right fun ⟨g, r', hg, hr'⟩ =>
        ⟨g, r', hfit g r' hg, hr'⟩ }

end Accounts

mutual

theorem Run.accounts {f : FileId} {es : List Event} {ms : List Mention} {w w' : Walk}
    {opened : List FunctionId} {roots : List ScopeId} (h : Run env f es ms w w')
    (hw : w.store.WellFormed) (hbelow : Below roots w) (haccounts : Accounts env opened roots w) :
    Accounts env opened roots w' := by
  match h with
  | .done _ _ => exact haccounts
  | .quiet hm _ rest =>
    have hstore := hm.quiet.store.toExtends
    refine rest.accounts (hstore.wellFormed hw) (hbelow.of_moves hm)
      (haccounts.mono (fun g r hfit => ?_) hm.quiet.files
      hm.quiet.store.mains)
    refine hfit.mono hw hstore fun a _ ha => ?_
    rw [ha]
    exact hbelow.root
  | .step hs _ rest =>
    exact rest.accounts (hs.store.wellFormed hw) (hbelow.of_extends hs.store.toExtends hs.place)
      (haccounts.extends_false hw hs.store.toExtends hs.files hs.store.mains)
  | .stay hs rest =>
    exact rest.accounts (hs.step.store.wellFormed hw)
      (hbelow.of_extends hs.step.store hs.step.place)
      (haccounts.extends_false hw hs.step.store (congrArg ProjectTables.files hs.tables) hs.mains)
  | @Run.away _ _ _ l _ _ _ site _ _ _ _ _ _ inner hr rest =>
    have hsus := extends_suspended env l w site
    have hwell := hsus.wellFormed hw
    obtain ⟨hwalked, hfit⟩ :=
      inner.accounts hwell (fun m hm => hsus.scope_lt (hbelow.roots_lt m hm))
      (haccounts.extends_false hw hsus.toExtends rfl hsus.mains)
    exact rest.accounts (hr.step.store.wellFormed hw)
      (hbelow.of_extends hr.step.store hr.step.place)
      (hwalked.enlist (inner.comesBack.store.wellFormed hwell) hr.toEnlists hfit)

theorem Walks.accounts {f : FileId} {w w' : Walk} {r : FileResult} {opened : List FunctionId}
    {roots : List ScopeId} (h : Walks env f w r w') (hw : w.store.WellFormed)
    (hroots : ∀ m ∈ roots, m.index < w.store.scopes.size)
    (haccounts : Accounts env opened roots w) :
    Accounts env opened roots w' ∧ Fits env w'.store roots f r := by
  match h with
  | .broken hfile htree => exact ⟨haccounts, fits_brokenResult hfile htree⟩
  | @Walks.read _ _ _ w₁ source chunk hread run =>
    have hfit := fits_treeResult hread run hroots
    -- The file has a root of its own, below which no file walked before lies.
    have hend := run.accounts ((extends_entering env f source chunk w).wellFormed hw)
      (below_entering hroots f source chunk)
      (haccounts.entering hw f source chunk)
    exact ⟨hend.leaving hfit, hfit⟩

end

end WalkM

end LuaAnalysis
