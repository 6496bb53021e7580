import LuaAnalysis.Proofs.Resolution.Announce
import LuaAnalysis.Proofs.Walk.Entry

/-!
# Names are bound as the text says

A walk of a file announces the mentions of the file, in order, whatever other files it goes through
on the way: each step of its run announces its part (`Run.spoken`), and a load announces what the
files that it walks mention. A walk starts with an empty ledger, so which globals it announces
depends on the text of the file and on what other files define.
-/

namespace LuaAnalysis

def FileIndex.events (x : FileIndex) (imports : ImportsConfig) (f : FileId) : List Event :=
  match (x.get? f).bind fun source => source.source.tree.toOption with
  | some chunk => (chunk.trail f imports).events
  | none => []

namespace WalkM

variable {env : WalkEnv} {f : FileId} {w w' : Walk}

/-! ## Steps and loads -/

theorem Says.spoken {us : List Mention} (hs : Says env w us w') (hm : Moves env w w')
    (hg : Grounded env w) (hf : w.frame.file = f) : Spoken env f us [] w w' := by
  cases hs with
  | nothing ho => exact .of_mute hg (.of_quiet hm.quiet ho)
  | @name u o hreports hfree =>
    rw [hf] at hreports
    have hnone : o.free? = none := by
      unfold Occurrence.free?
      cases hb : u.binding with
      | some d => rw [if_pos (hreports.bound d hb).2.2]
      | none => rw [hfree hb, Option.map_none, ite_self]
    exact .push hg hreports rfl rfl rfl (fun _ => rfl) fun _ => by rw [hnone]; rfl

theorem Stays.mute {l : LoadCall} (h : Stays env l w w') : Mute env w w' where
  vars := h.step.store.vars
  copies := h.copies
  active := h.step.active
  tables := h.tables
  file := part_eq h.step.place Frame.file
  globals := h.step.globals
  rootGlobals := h.step.rootGlobals
  occurrences := h.occurrences

theorem mute_suspended {l : LoadCall} {site : TextRange} : Mute env w (suspended env l w site) :=
  ⟨(extends_suspended env l w site).vars, mirroredIn_recorded, rfl, rfl, rfl, rfl, rfl, rfl⟩

/-- The walk of `g` has announced the names of `g`. -/
structure Accounted (env : WalkEnv) (g : FileId) (w : Walk) (r : FileResult)
    (w' : Walk) : Prop where
  grounded : Grounded env w'
  announced : Announced env g (env.files.mentions g) {} (env.files.events env.config.imports g) w w'
  globals : env.files.AreGlobals w'.store r.globals
  rootGlobals : env.files.AreGlobals w'.store r.rootGlobals
  ledger : env.OneByOne →
    { globals := w'.store.keysOf r.globals, roots := w'.store.keysOf r.rootGlobals } =
    Ledger.bookAll env.abroad g {} (env.files.events env.config.imports g)

theorem Resumes.spoken {t : FileId} {l : LoadCall} {r : FileResult} {site : TextRange} {w₁ : Walk}
    (hres : Resumes env l t r w w₁ w') (hnew : Unvisited env w t) (hg : Grounded env w)
    (hf : f ∈ w.phase.active) (hinner : Accounted env t (suspended env l w site) r w₁) :
    Spoken env f [] [] w w' := by
  have hmute : Mute env w (suspended env l w site) := mute_suspended
  have ha : Announced env t _ {} _ w w₁ :=
    (Announced.of_eq (γ := {}) hmute.active (by rw [hmute.tables]) hmute.occurrences).trans
    hinner.announced fun _ => rfl
  refine ⟨?_, fun ho => absurd hnew.pass ho.pass, ?_⟩
  · exact
      { first := hg.first
        copies := hinner.grounded.copies.of_grows hres.store.vars hres.imported
        globals := hres.step.globals ▸ hg.globals.of_grows hres.step.store.vars
        rootGlobals := hres.step.rootGlobals ▸ hg.rootGlobals.of_grows hres.step.store.vars
        sharedGlobals := hres.globals ▸ hinner.grounded.sharedGlobals.of_grows hres.store.vars
        sharedRootGlobals :=
          hres.rootGlobals ▸ hinner.grounded.sharedRootGlobals.of_grows hres.store.vars
        unshared := fun hp => absurd hnew.pass hp }
  · refine .of_paid (ha.paid hnew.pass hnew.fresh hres.files hres.occurrences) hnew.pass
      hres.step.active
      (fun x hx hmem => ?_) hf
    rw [hres.files] at hmem
    rcases OrderedMap.mem_keys_insert.1 hmem with rfl | hmem
    · exact absurd hx hnew.inactive
    · exact ha.unfinished x hx hmem

/-! ## Runs -/

theorem grounded_entering (h : Grounded env w) (f : FileId) (source : SourceFile) (chunk : Chunk) :
    Grounded env (entering env f source chunk w) := by
  have hvars : Grows Variable.core w.store.vars (entering env f source chunk w).store.vars :=
    (extends_entering env f source chunk w).vars
  exact
    { first := h.first
      copies := h.copies.of_grows hvars (Store.importedVariables_addFunction _ _)
      globals := .empty
      rootGlobals := .empty
      sharedGlobals := h.sharedGlobals.of_grows hvars
      sharedRootGlobals := h.sharedRootGlobals.of_grows hvars
      unshared := h.unshared }

mutual

theorem Run.spoken {f : FileId} {es : List Event} {ms : List Mention} {w w' : Walk}
    (h : Run env f es ms w w') (hw : Placed w) (hf : w.frame.file = f) (ha : f ∈ w.phase.active)
    (hg : Grounded env w) (hmem : ∀ u ∈ ms, u ∈ env.files.mentions f) :
    Spoken env f ms es w w' := by
  match h with
  | .done _ _ => exact .of_soundless hg (.refl _)
  | .quiet hm hs rest =>
    have hfirst := hs.spoken hm hg hf
    exact hfirst.trans
      (rest.spoken (hw.of_moves hm) ((congrArg Course.file hm.quiet.course).trans hf)
      (hm.quiet.active.symm ▸ ha) hfirst.grounded fun u hu => hmem u (List.mem_append_right _ hu))
  | .step hs hacts rest =>
    rw [List.forall_mem_cons] at hmem
    have hfirst := spoken_of_acts hacts hw hg (hf.symm ▸ hmem.1)
    rw [hf] at hfirst
    exact hfirst.trans (rest.spoken (hw.of_place hs.store.toExtends hs.place)
      ((congrArg Course.file hs.course).trans hf)
      (hs.active.symm ▸ ha) hfirst.grounded hmem.2)
  | .stay (l := l) hs rest =>
    have hfirst : Spoken env f [] _ _ _ := (Spoken.of_mute hg hs.mute).load l
    exact hfirst.trans
      (rest.spoken (hw.of_place hs.step.store hs.step.place) (hs.mute.file.trans hf)
      (hs.step.active.symm ▸ ha) hfirst.grounded hmem)
  | @Run.away _ _ _ l _ _ _ site _ _ _ _ _ hnew inner hres rest =>
    have hwell := (extends_suspended env l _ site).wellFormed hw.wellFormed
    have hfirst := (hres.spoken hnew hg ha (inner.accounted hwell (hg.mute mute_suspended))).load l
    exact hfirst.trans (rest.spoken (hw.of_place hres.step.store hres.step.place)
      ((part_eq hres.step.place Frame.file).trans hf)
      (hres.step.active.symm ▸ ha) hfirst.grounded hmem)

theorem Walks.accounted {f : FileId} {r : FileResult} {w w' : Walk} (h : Walks env f w r w')
    (hw : w.store.WellFormed) (hg : Grounded env w) : Accounted env f w r w' := by
  match h with
  | .broken hfile htree =>
    have hevents : env.files.events env.config.imports f = [] := by
      simp [FileIndex.events, hfile, htree, Except.toOption]
    refine ⟨hg, ?_, .empty, .empty, fun _ => ?_⟩
    · rw [FileIndex.mentions_of_error hfile htree, hevents]
      exact .of_eq rfl rfl rfl
    · rw [hevents]
      rfl
  | @Walks.read _ _ _ w₁ source chunk hread run =>
    have hmentions := FileIndex.mentions_of_ok hread.file hread.tree
    have hevents : env.files.events env.config.imports f =
        (chunk.trail f env.config.imports).events := by
      simp [FileIndex.events, hread.file, hread.tree, Except.toOption]
    have hin : InContext env _ _ := inContext_entering hw f source chunk
    have hspoken := run.spoken ⟨hin.wellFormed, hin.scope_lt⟩ rfl List.mem_cons_self
      (grounded_entering hg f source chunk)
      fun u hu => hmentions ▸ hu
    have hvars := (Walks.read hread run).comesBack.store.vars
    have hend := hspoken.grounded
    have ha := hspoken.announced
    rw [← hmentions, ← hevents] at ha
    refine ⟨?_, ?_, hend.globals, hend.rootGlobals, hevents ▸ hspoken.ledger⟩
    · exact ⟨hg.first, hend.copies, hg.globals.of_grows hvars, hg.rootGlobals.of_grows hvars,
        hend.sharedGlobals, hend.sharedRootGlobals, hend.unshared⟩
    · exact ⟨congrArg List.tail ha.active, ha.kept,
        fun g hg => ha.unfinished g (List.mem_cons_of_mem f hg), ha.names⟩

end

theorem Idle.announced_walkAlone (h : Idle env w) (hg : Grounded env w) (f : FileId) :
    Grounded env (WalkM.walkAlone env f w).2 ∧ Announced env f (env.files.mentions f) {}
      (env.files.events env.config.imports f) w (WalkM.walkAlone env f w).2 := by
  by_cases hf : f ∈ env.files.ids
  · obtain ⟨r, w', heq, hwalks⟩ := h.walks hf
    have hacc := hwalks.accounted h.wellFormed hg
    rw [heq]
    exact ⟨hacc.grounded, hacc.announced⟩
  · have hnone : env.files.get? f = none := by
      rw [Option.eq_none_iff_forall_not_mem]
      exact fun source hsource => hf ((env.files.mem_ids_iff f).2 ⟨source, hsource⟩)
    have hevents : env.files.events env.config.imports f = [] := by simp [FileIndex.events, hnone]
    rw [walkAlone_of_not_mem hf, FileIndex.mentions_of_none hnone, hevents]
    exact ⟨hg, .of_eq rfl rfl rfl⟩

end WalkM

end LuaAnalysis
