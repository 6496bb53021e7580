import LuaAnalysis.Proofs.Project.Run
import LuaAnalysis.Proofs.Walk.SoundVisit

/-!
# Runs stay sound

The walk of a file leads from a sound state to a sound one, whichever files it enters on the way
(`sound_walkFile`), and so does a run of a pass over any list of files (`sound_mapM`). What the
first pass has found in files alone is therefore sound as well (`sound_computeFirstPass`).
-/

namespace LuaAnalysis

/-! ## Files -/

namespace WalkM

open Store

variable {env : WalkEnv} {enter : Enter} {w : Walk} {source : SourceFile} {f : FileId}

theorem passes_entering (hw : w.Sound) (f : FileId) (source : SourceFile) (chunk : Chunk) :
    w.Passes (entering env f source chunk w) ∧ (entering env f source chunk w).Open := by
  have hmake : w.store.Passes (w.store.addFunction (.main f chunk.range)).1 :=
    hw.store.passes_addFunction owns_none owns_none (fun _ => rfl) nofun
  have hadd := hw.passes_store hmake
  have hmain : (w.store.addFunction (.main f chunk.range)).1.Owns (nextMain w) :=
    owns_addFunction_iff.2 (.inr rfl)
  have hscope := hmake.sound.mainScope_owned hmain
  have hframe := hadd.sound.passes_frame (f := (entering env f source chunk w).frame)
    ⟨.inr ⟨hmain, hscope⟩, ownsGlobals_empty, ownsGlobals_empty, owns_nil⟩
  refine ⟨(hadd.trans hframe).trans hframe.sound.passes_rest, hmain, hscope,
    hmake.sound.rooted.main _ hmain, fun hcopy => ?_⟩
  have hcopy' :
    nextMain w ∈ (w.store.addFunction (.main f chunk.range)).1.importedFunctions.values := hcopy
  rw [importedFunctions_addFunction] at hcopy'
  exact absurd (hw.store.closed.functionCopies _ hcopy') (Nat.lt_irrefl _)

/-- The result of a file holds numbers of the store only. -/
theorem treeResult_owned (hw : w.Sound) {main : FunctionId} (hmain : w.store.Owns main) :
    w.store.Owns (treeResult f source main w) where
  globals := hw.frame.globals
  rootGlobals := hw.frame.rootGlobals
  references := hw.frame.references
  mainFunction := owns_some.2 hmain
  returnValue v hv := by
    obtain ⟨site, hsite, hvalue⟩ := Option.bind_eq_some_iff.1 hv
    have hmem := List.mem_reverse.1 (List.mem_of_find?_eq_some hsite)
    exact (hw.store.closed.functions main hmain).returns site hmem v hvalue

section

variable (h : env.firstPass.Sound)
include h

/-- A walk of a tree is sound and leaves the outer frame as it was. -/
theorem sound_walkChunk (he : enter.Sound) (hw : w.Sound) {chunk : Chunk} :
    StaysSound (walkChunk env enter f source chunk) w ∧
    Restores .nothing w (walkChunk env enter f source chunk w).2 := by
  obtain ⟨hentering, hopen⟩ := passes_entering hw f source chunk
  have hin := Walk.After.refl hentering.sound hopen
  have htree : Safe .all (entering env f source chunk w) (walkTree env enter chunk (nextMain w)) :=
    .seq (safe_visitBlock h he _ _).all fun _ => safe_finishFunction hopen.function
  have hend : (entering env f source chunk w).After (atEnd env enter f source chunk w) :=
    htree.after hin
  have hpass : w.Passes (atEnd env enter f source chunk w) := hentering.trans (htree.passes _ hin)
  have hrestores : Restores .all (entering env f source chunk w)
    (atEnd env enter f source chunk w) := htree.restores _ hin
  unfold StaysSound
  rw [walkChunk_apply]
  generalize atEnd env enter f source chunk w = w₁ at hend hpass hrestores
  have hframe := hend.sound.passes_frame (hpass.retains.owns hw.frame)
  refine ⟨⟨(hpass.trans hframe).trans (hframe.sound.passes_rest), rfl,
    treeResult_owned hend.sound (hend.owns hopen.function)⟩, ?_⟩
  -- The scopes of the file are new.
  have hadd := w.store.grows_addFunction (.main f chunk.range)
  refine hrestores.between hadd.1 (fun id hid _ hp => ?_) rfl (hadd.2.trans hrestores.functions) rfl
    (congrArg List.tail hrestores.active) hrestores.loadSites
  exact absurd (congrArg ScopeId.index (hp.trans scope_entering)) (Nat.ne_of_lt hid)

/-- By induction on the files that may still be started. -/
theorem sound_walkFile (available : List FileId) (f : FileId) :
    ∀ w : Walk, w.Sound → StaysSound (walkFile env available f) w ∧
      Restores .nothing w (walkFile env available f w).2 := by
  unfold StaysSound
  induction available, f using walkFile.induct env with
  | case1 available f hget =>
    intro w hw
    rw [walkFile_of_none hget]
    exact ⟨⟨hw.passes_refl, rfl, owns_none⟩, .refl⟩
  | case2 available f source hget e htree =>
    intro w hw
    rw [walkFile_of_error hget htree]
    exact ⟨⟨hw.passes_refl, rfl,
      owns_some.2 ⟨ownsGlobals_empty, ownsGlobals_empty, owns_nil, owns_none, owns_none⟩⟩, .refl⟩
  | case3 available f source hget chunk htree ih =>
    intro w hw
    have he : (enterFrom env available).Sound := by
      intro target w hw
      unfold enterFrom
      by_cases htarget : target ∈ available
      · rw [if_pos htarget]
        exact ih target htarget w hw
      · rw [if_neg htarget]
        exact ⟨⟨hw.passes_refl, rfl, owns_none⟩, .refl⟩
    obtain ⟨⟨hpass, hplace, hresult⟩, hrestores⟩ := sound_walkChunk h he hw
    rw [walkFile_eq_walkChunk hget htree, map_apply]
    generalize walkChunk env (enterFrom env available) f source chunk w =
      r at hpass hplace hresult hrestores
    exact ⟨⟨hpass, hplace, owns_some.2 hresult⟩, hrestores⟩

theorem sound_enterFrom (available : List FileId) : (enterFrom env available).Sound := by
  intro f w hw
  unfold enterFrom
  split
  · exact sound_walkFile h _ f w hw
  · exact ⟨⟨hw.passes_refl, rfl, owns_none⟩, .refl⟩

theorem sound_walkEntry (hw : w.Sound) : StaysSound (walkEntry env f) w := by
  obtain ⟨hpass, hplace, hresult⟩ := (sound_walkFile h (env.files.ids.erase f) f w hw).1
  unfold StaysSound
  rw [walkEntry, bind_apply, get_apply]
  dsimp only
  split
  · exact ⟨hw.passes_refl, rfl, trivial⟩
  · rw [bind_apply]
    unfold walkAlone
    generalize walkFile env (env.files.ids.erase f) f w = r at hpass hplace hresult
    obtain ⟨r?, w₁⟩ := r
    cases r? with
    | none => exact ⟨hpass, hplace, trivial⟩
    | some r =>
      dsimp only
      rw [changeTables_apply]
      refine ⟨hpass.trans (hpass.sound.passes_tables ?_), hplace, trivial⟩
      have htables := hpass.sound.tables
      split
      · exact { htables with files := htables.files.insert (owns_some.1 hresult) }
      · exact htables

theorem sound_walkNext (hw : w.Sound) : StaysSound (walkNext env f) w := by
  unfold walkNext
  split
  · obtain ⟨hpass, hplace, -⟩ := sound_walkEntry h hw
    exact ⟨hpass, hplace, hpass.sound.tables.files.get?⟩
  · exact (sound_walkFile h _ f w hw).1

theorem sound_mapM (files : List FileId) (hw : w.Sound) :
    StaysSound (files.mapM (walkNext env)) w := by
  induction files generalizing w with
  | nil => exact ⟨hw.passes_refl, rfl, owns_nil⟩
  | cons f files ih =>
    obtain ⟨hfirst, hplace, hresult⟩ := sound_walkNext h hw
    obtain ⟨hrest, hplace', hresults⟩ := ih hfirst.sound
    rw [List.mapM_cons]
    exact ⟨hfirst.trans hrest, hplace'.trans hplace,
      owns_cons.2 ⟨hrest.retains.owns hresult, hresults⟩⟩

end

end WalkM

/-! ## Runs -/

namespace Project

open WalkM

variable (p : Project)

/-- Each file is analysed from the empty state. -/
theorem sound_computeFirstPass : p.computeFirstPass.Sound := by
  intro a ha
  obtain ⟨f, -, hf⟩ := mem_computeFirstPass.1 ha
  rw [analyse?_eq] at hf
  obtain ⟨r, hr, rfl⟩ := Option.map_eq_some_iff.1 hf
  have hempty : (p.env .fileLocal {}).firstPass.Sound := nofun
  have hstart := Walk.sound_start .fileLocal
  obtain ⟨hpass, -, hresult⟩ :=
    (sound_walkFile hempty ((p.env .fileLocal {}).files.ids.erase f) f _ hstart).1
  exact ⟨hpass.sound.store, hresult r hr⟩

theorem sound_firstPassFor (pass : Pass) : (p.firstPassFor pass).Sound := by
  cases pass with
  | fileLocal => nofun
  | _ => exact p.sound_computeFirstPass

end Project

end LuaAnalysis
