import LuaAnalysis.Proofs.Project.Sound

/-!
# Visits put the context back

State is saved and put back by hand around scopes, function bodies, conditions, operands and files.
After the visit of a statement or an expression all of it is as before, whichever files were entered
on the way (`visits_putBack`).
-/

namespace LuaAnalysis

/-- The context of a walk is as before. Of what was proven about names the scopes that were there
have lost some at most. -/
structure Walk.PutBack (w w' : Walk) : Prop where
  scope : w'.frame.scope = w.frame.scope
  function : w'.frame.function = w.frame.function
  guards : w'.frame.guards = w.frame.guards
  selfTarget : w'.frame.selfTarget = w.frame.selfTarget
  active : w'.phase.active = w.phase.active
  loadSites : w'.loadSites = w.loadSites
  chains : ∀ id : ScopeId, id.index < w.store.scopes.size →
    (w'.store.scopeAt id).chainNarrowed = (w.store.scopeAt id).chainNarrowed
  depths : ∀ id : FunctionId, id.index < w.store.functions.size →
    (w'.store.functionAt id).scopeDepth = (w.store.functionAt id).scopeDepth
  narrowed : ∀ id : ScopeId, id.index < w.store.scopes.size → ∀ name v,
    (w'.store.scopeAt id).narrowed.get? name = some v →
    (w.store.scopeAt id).narrowed.get? name = some v

/-- Scopes that were there have the locals that they had, except for those of which `changes`
holds. -/
def Walk.KeepsLocals (changes : ScopeId → Prop) (w w' : Walk) : Prop :=
  ∀ id : ScopeId, id.index < w.store.scopes.size → ¬changes id →
    (w'.store.scopeAt id).locals = (w.store.scopeAt id).locals

namespace WalkM

variable {l : Leeway} {w w' : Walk}

theorem Restores.putBack (h : Restores l w w')
    (hnarrowed : ∀ current x, ¬l.Frees current x .narrowed)
    (hchain : ∀ current x, ¬l.Frees current x .chain) : w.PutBack w' where
  scope := part_eq h.place Frame.scope
  function := part_eq h.place Frame.function
  guards := part_eq h.place Frame.guards
  selfTarget := part_eq h.place Frame.selfTarget
  active := h.active
  loadSites := h.loadSites
  chains id hid := (h.scopes id hid).chain.resolve_left (hchain _ _)
  depths id hid := part_eq (h.functions.core_eq id.index hid) Function.scopeDepth
  narrowed id hid := (h.scopes id hid).narrowed.resolve_left (hnarrowed _ _)

theorem Restores.keepsLocals (h : Restores (.only .locals) w w') :
    w.KeepsLocals (· = w.frame.scope) w' :=
  fun id hid hne => (h.scopes id hid).locals.resolve_left fun hfree => hne hfree.1

theorem Restores.keepsAllLocals (h : Restores .nothing w w') : w.KeepsLocals (fun _ => False) w' :=
  fun id hid _ => (h.scopes id hid).locals.resolve_left nofun

end WalkM

namespace Project

open WalkM

/-- Every visit inside a file puts the context back: a statement may declare locals in the current
scope, and an expression declares none in a scope that was there. So does the walk of a file from
outside. A run starts in a sound state, a file is entered in a sound state inside the file, and the
state after a visit is one again. -/
theorem visits_putBack (p : Project) (pass : Pass) (available : List FileId) :
    let env := p.env pass (p.firstPassFor pass)
    let enter := enterFrom env available
    (Walk.start pass).Sound ∧
    (∀ f source chunk w, w.Sound → (entering env f source chunk w).Sound ∧
      (entering env f source chunk w).Open) ∧
    (∀ f w, w.Sound → w.PutBack (walkFile env available f w).2 ∧
      w.KeepsLocals (fun _ => False) (walkFile env available f w).2 ∧
      (walkFile env available f w).2.Sound) ∧
    ∀ w : Walk, w.Sound → w.Open →
      (∀ e, w.PutBack (visitExp env enter e w).2 ∧
        w.KeepsLocals (fun _ => False) (visitExp env enter e w).2 ∧
        (visitExp env enter e w).2.Sound ∧ (visitExp env enter e w).2.Open) ∧
      ∀ stat, w.PutBack (visitStat env enter stat w).2 ∧
      w.KeepsLocals (· = w.frame.scope) (visitStat env enter stat w).2 ∧
        (visitStat env enter stat w).2.Sound ∧ (visitStat env enter stat w).2.Open := by
  intro env enter
  have hfirst : env.firstPass.Sound := p.sound_firstPassFor pass
  have he : enter.Sound := sound_enterFrom hfirst available
  refine ⟨Walk.sound_start pass, fun f source chunk w hw => ?_, fun f w hw => ?_,
    fun w hw hopen => ⟨fun e => ?_, fun stat => ?_⟩⟩
  · obtain ⟨hpass, hopen⟩ := passes_entering hw f source chunk
    exact ⟨hpass.sound, hopen⟩
  · obtain ⟨⟨hpass, -, -⟩, h⟩ := sound_walkFile hfirst available f w hw
    exact ⟨h.putBack nofun nofun, h.keepsAllLocals, hpass.sound⟩
  · have hsafe : Safe .nothing w (visitExp env enter e) := safe_visitExp hfirst he e w
    have h := hsafe.restores w (.refl hw hopen)
    have hafter := hsafe.after (.refl hw hopen)
    exact ⟨h.putBack nofun nofun, h.keepsAllLocals, hafter.sound, hafter.isOpen⟩
  · have hsafe := safe_visitStat hfirst he stat w
    have h := hsafe.restores w (.refl hw hopen)
    have hafter := hsafe.after (.refl hw hopen)
    exact ⟨h.putBack nofun nofun, h.keepsLocals, hafter.sound, hafter.isOpen⟩

end Project

end LuaAnalysis
