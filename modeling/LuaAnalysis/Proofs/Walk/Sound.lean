import LuaAnalysis.Proofs.Symbol.SoundCopies
import LuaAnalysis.Proofs.Walk.Restore

/-!
# Sound walks

In a sound walk the store is sound, and the frame, the shared tables and the remembered loads hold
numbers of this store only.

`Gives` says of a computation inside a file that it passes to a sound state wherever it starts after
a state `b`, and restores the place of the walk. Facts about numbers are stated of the store of `b`:
they stay true, since stores retain what they hold.
-/

namespace LuaAnalysis

open Store

/-! ## Sound states -/

/-- The numbers in a frame are those of the store, and its globals are declared by no scope. Outside
files the frame is empty. -/
structure Frame.Owned (s : Store) (f : Frame) : Prop where
  place : f = {} ∨ s.Owns f.function ∧ s.Owns f.scope
  globals : s.OwnsGlobals f.globals
  rootGlobals : s.OwnsGlobals f.rootGlobals
  references : s.Owns f.references

instance : HoldsIds Frame :=
  ⟨Frame.Owned, fun h hf =>
    ⟨hf.place.imp_right fun hp => ⟨h.owns hp.1, h.owns hp.2⟩, h.ownsGlobals hf.globals,
    h.ownsGlobals hf.rootGlobals, h.owns hf.references⟩⟩

structure ProjectTables.Owned (s : Store) (t : ProjectTables) : Prop where
  globals : s.OwnsGlobals t.globals
  rootGlobals : s.OwnsGlobals t.rootGlobals
  files : s.Owns t.files

instance : HoldsIds ProjectTables :=
  ⟨ProjectTables.Owned,
    fun h ht => ⟨h.ownsGlobals ht.globals, h.ownsGlobals ht.rootGlobals, h.owns ht.files⟩⟩

namespace Walk

/-- The store is sound, and all numbers in the state are numbers of the store. -/
structure Sound (w : Walk) : Prop where
  store : w.store.Sound
  frame : w.store.Owns w.frame
  tables : w.store.Owns w.tables
  loaded : w.store.Owns w.loaded

theorem sound_start (pass : Pass) : (start pass).Sound where
  store := sound_empty
  frame := ⟨.inl rfl, ownsGlobals_empty, ownsGlobals_empty, owns_nil⟩
  tables := ⟨ownsGlobals_empty, ownsGlobals_empty, owns_empty⟩
  loaded := owns_empty

/-! ## Steps -/

/-- The second state is sound, and its store retains what the first one holds. -/
structure Passes (w w' : Walk) : Prop where
  sound : w'.Sound
  retains : w.store.Retains w'.store

variable {w w' w'' : Walk}

theorem Passes.trans (h : w.Passes w') (h' : w'.Passes w'') : w.Passes w'' :=
  ⟨h'.sound, h.retains.trans h'.retains⟩

namespace Sound

variable (h : w.Sound)

include h

theorem passes_refl : w.Passes w :=
  ⟨h, .refl⟩

theorem passes_store {s : Store} (hs : w.store.Passes s) : w.Passes { w with store := s } :=
  ⟨⟨hs.sound, hs.retains.owns h.frame, hs.retains.owns h.tables, hs.retains.owns h.loaded⟩,
    hs.retains⟩

theorem passes_frame {f : Frame} (hf : w.store.Owns f) : w.Passes { w with frame := f } :=
  ⟨{ h with frame := hf }, .refl⟩

theorem passes_tables {t : ProjectTables} (ht : w.store.Owns t) : w.Passes { w with tables := t } :=
  ⟨{ h with tables := ht }, .refl⟩

theorem passes_loaded {loaded : OrderedMap (FileId × LoadKind) (Option VariableId)}
    (hl : w.store.Owns loaded) : w.Passes { w with loaded } :=
  ⟨{ h with loaded := hl }, .refl⟩

/-- The numbers of a state are in its store, its frame, its tables and its loads. -/
theorem passes_rest {phase : PhaseTracker} {loadSites : List LoadSite}
    {occurrences : Array Occurrence} : w.Passes { w with phase, loadSites, occurrences } :=
  ⟨{ h with }, .refl⟩

end Sound

/-! ## Places in files -/

/-- The walk is in a scope of a function of a file, and the function is no copy. -/
structure Open (w : Walk) : Prop where
  function : w.store.Owns w.frame.function
  scope : w.store.Owns w.frame.scope
  own : (w.store.scopeAt w.frame.scope).function = w.frame.function
  original : w.frame.function ∉ w.store.importedFunctions.values

end Walk

def Frame.position (f : Frame) : FunctionId × ScopeId :=
  (f.function, f.scope)

/-- The numbers that have been collected in the file of a frame. -/
def Frame.held (f : Frame) :
    OrderedMap String VariableId × OrderedMap String VariableId × List ReferenceId :=
  (f.globals, f.rootGlobals, f.references)

namespace Walk

variable {b w w' : Walk}

theorem Sound.passes_place (h : w.Sound) {f : Frame} (hfunction : w.store.Owns f.function)
    (hscope : w.store.Owns f.scope) (hheld : f.held = w.frame.held) :
    w.Passes { w with frame := f } := by
  simp only [Frame.held, Prod.mk.injEq] at hheld
  obtain ⟨hglobals, hroot, hreferences⟩ := hheld
  exact h.passes_frame
    ⟨.inr ⟨hfunction, hscope⟩, hglobals ▸ h.frame.globals, hroot ▸ h.frame.rootGlobals,
    hreferences ▸ h.frame.references⟩

theorem Open.of_retains (h : w.Open) (hr : w.store.Retains w'.store)
    (hp : w'.frame.position = w.frame.position) : w'.Open := by
  obtain ⟨hfunction, hscope⟩ := Prod.mk.inj hp
  refine ⟨?_, ?_, ?_, ?_⟩
  · rw [hfunction]
    exact hr.owns h.function
  · rw [hscope]
    exact hr.owns h.scope
  · rw [hfunction, hscope, hr.function_eq _ h.scope]
    exact h.own
  · rw [hfunction]
    exact fun hcopy => h.original (hr.originals _ h.function hcopy)

/-- A sound state after `b` at the same place. -/
structure After (b w : Walk) : Prop where
  sound : w.Sound
  isOpen : w.Open
  retains : b.store.Retains w.store
  position : w.frame.position = b.frame.position

namespace After

theorem refl (hs : w.Sound) (ho : w.Open) : w.After w :=
  ⟨hs, ho, .refl, rfl⟩

theorem here (h : b.After w) : w.After w :=
  .refl h.sound h.isOpen

theorem trans (h : b.After w) (h' : w.After w') : b.After w' :=
  ⟨h'.sound, h'.isOpen, h.retains.trans h'.retains, h'.position.trans h.position⟩

theorem scope_eq (h : b.After w) : w.frame.scope = b.frame.scope :=
  congrArg Prod.snd h.position

theorem owns {α : Type} [HoldsIds α] {a : α} (h : b.After w) (ha : b.store.Owns a) :
    w.store.Owns a :=
  h.retains.owns ha

theorem isGlobal {v : VariableId} (h : b.After w) (hv : b.store.IsGlobal v) : w.store.IsGlobal v :=
  h.retains.toIncludes.isGlobal hv

theorem of_passes (h : b.After w) (hpass : w.Passes w')
    (hp : w'.frame.position = w.frame.position) : w.After w' :=
  ⟨hpass.sound, h.isOpen.of_retains hpass.retains hp, hpass.retains, hp⟩

theorem placed (h : b.After w) : w.store.Owns w.frame.function ∧ w.store.Owns w.frame.scope :=
  ⟨h.isOpen.function, h.isOpen.scope⟩

theorem passes_reframe (h : b.After w) {f : Frame} (hp : f.position = w.frame.position)
    (hheld : f.held = w.frame.held) : w.Passes { w with frame := f } := by
  obtain ⟨hfunction, hscope⟩ := Prod.mk.inj hp
  exact h.sound.passes_place (hfunction ▸ h.isOpen.function) (hscope ▸ h.isOpen.scope) hheld

end After

end Walk

/-! ## Computations inside a file -/

namespace WalkM

variable {α β : Type} {P Q : Store → α → Prop} {R : Store → β → Prop} {l l' : Leeway}
  {b w w' : Walk}
variable {m : WalkM α}

theorem Restores.position (h : Restores l w w') : w'.frame.position = w.frame.position :=
  Prod.ext (part_eq h.place Frame.function) (part_eq h.place Frame.scope)

/-- The computation passes to a sound state, comes back to the place where it started, and its value
holds numbers of the store only. -/
def StaysSound [HoldsIds α] (m : WalkM α) (w : Walk) : Prop :=
  w.Passes (m w).2 ∧ (m w).2.frame.position = w.frame.position ∧ (m w).2.store.Owns (m w).1

/-- From every state after `b` the computation passes to a sound state, changes what `l` frees only,
and gives a value of which `Q` holds. -/
structure Gives (l : Leeway) (Q : Store → α → Prop) (b : Walk) (m : WalkM α) : Prop where
  passes : ∀ w, b.After w → w.Passes (m w).2
  restores : ∀ w, b.After w → Restores l w (m w).2
  gives : ∀ w, b.After w → Q (m w).2.store (m w).1

/-- The value that is given holds numbers of the store only. -/
abbrev Safe [HoldsIds α] (l : Leeway) (b : Walk) (m : WalkM α) : Prop :=
  Gives l (fun s a => s.Owns a) b m

namespace Gives

theorem of_run (h : ∀ w, b.After w → w.Passes (m w).2 ∧ Restores l w (m w).2 ∧
      Q (m w).2.store (m w).1) : Gives l Q b m :=
  ⟨fun w hw => (h w hw).1, fun w hw => (h w hw).2.1, fun w hw => (h w hw).2.2⟩

theorem after (h : Gives l Q b m) (hw : b.After w) : w.After (m w).2 :=
  hw.of_passes (h.passes w hw) (h.restores w hw).position

theorem mono (h : Gives l P b m) (hPQ : ∀ w a, b.After w → P w.store a → Q w.store a) :
    Gives l Q b m :=
  ⟨h.passes, h.restores, fun w hw => hPQ _ _ (hw.trans (h.after hw)) (h.gives w hw)⟩

theorem weaken (h : Gives l Q b m)
    (hl : ∀ current x p, l.Frees current x p → l'.Frees current x p) : Gives l' Q b m :=
  { h with restores := fun w hw => (h.restores w hw).weaken hl }

theorem all {part : ScopePart} (h : Gives (.only part) Q b m) : Gives .all Q b m :=
  h.weaken fun _ _ _ => And.left

theorem later {b' : Walk} (h : Gives l Q b m) (hb : b.After b') : Gives l Q b' m :=
  ⟨fun w hw => h.passes w (hb.trans hw), fun w hw => h.restores w (hb.trans hw), fun w hw =>
    h.gives w (hb.trans hw)⟩

theorem query {m : WalkM α} (hm : ∀ w, (m w).2 = w) (hQ : ∀ w, b.After w → Q w.store (m w).1) :
    Gives l Q b m where
  passes w hw := by
    rw [hm]
    exact hw.sound.passes_refl
  restores w _ := by
    rw [hm]
    exact .refl
  gives w hw := by
    rw [hm]
    exact hQ w hw

theorem pure {a : α} (ha : ∀ w, b.After w → Q w.store a) : Gives l Q b (pure a) :=
  query (fun _ => rfl) ha

theorem held [HoldsIds α] {a : α} (ha : b.store.Owns a) : Safe l b (Pure.pure a) :=
  pure fun _ hw => hw.owns ha

theorem plain {a : PUnit} : Safe l b (Pure.pure a) :=
  pure fun _ _ => trivial

variable {f : α → WalkM β}

theorem bind (hm : Gives l P b m) (hf : ∀ a b', b.After b' → P b'.store a → Gives l R b' (f a)) :
    Gives l R b (m >>= f) := by
  have hrest : ∀ w, b.After w → Gives l R (m w).2 (f (m w).1) := fun w hw =>
    hf _ _ (hw.trans (hm.after hw)) (hm.gives w hw)
  have hhere : ∀ w, b.After w → (m w).2.After (m w).2 := fun w hw => (hm.after hw).here
  exact
    { passes := fun w hw => (hm.passes w hw).trans ((hrest w hw).passes _ (hhere w hw))
      restores := fun w hw => (hm.restores w hw).trans ((hrest w hw).restores _ (hhere w hw))
      gives := fun w hw => (hrest w hw).gives _ (hhere w hw) }

theorem seq (hm : Gives l P b m) (hf : ∀ a, Gives l R b (f a)) : Gives l R b (m >>= f) :=
  .bind hm fun a _ hb _ => (hf a).later hb

theorem map {f : α → β} (hm : Gives l P b m)
    (hf : ∀ w a, b.After w → P w.store a → R w.store (f a)) :
    Gives l R b (f <$> m) :=
  ⟨hm.passes, hm.restores, fun w hw => hf _ _ (hw.trans (hm.after hw)) (hm.gives w hw)⟩

theorem discard (hm : Gives l P b m) : Safe l b (discard m) :=
  .map hm fun _ _ _ _ => trivial

theorem query_bind {m : WalkM α} (hm : ∀ w, (m w).2 = w)
    (hf : ∀ b', b.After b' → Gives l R b' (f (m b').1)) : Gives l R b (m >>= f) where
  passes w hw := by
    rw [bind_apply, hm]
    exact (hf w hw).passes w hw.here
  restores w hw := by
    rw [bind_apply, hm]
    exact (hf w hw).restores w hw.here
  gives w hw := by
    rw [bind_apply, hm]
    exact (hf w hw).gives w hw.here

theorem get_bind {f : Walk → WalkM β} (hf : ∀ b', b.After b' → Gives l R b' (f b')) :
    Gives l R b (get >>= f) :=
  query_bind (fun _ => rfl) hf

theorem frame_bind {f : Frame → WalkM β} (hf : ∀ b', b.After b' → Gives l R b' (f b'.frame)) :
    Gives l R b (frame >>= f) :=
  query_bind (fun _ => rfl) hf

theorem ask_bind {g : Store → α} (hf : ∀ b', b.After b' → Gives l R b' (f (g b'.store))) :
    Gives l R b (ask g >>= f) :=
  query_bind (fun _ => rfl) hf

theorem ask {g : Store → α} (hg : ∀ w, b.After w → Q w.store (g w.store)) : Gives l Q b (ask g) :=
  query (fun _ => rfl) hg

theorem ite {c : Prop} [Decidable c] {m' : WalkM α} (h : Gives l Q b m) (h' : Gives l Q b m') :
    Gives l Q b (if c then m else m') := by
  split
  · exact h
  · exact h'

theorem changeStore {f : Store → Store} (hf : ∀ w, b.After w → w.store.Passes (f w.store))
    (hr : ∀ w, b.After w → Restores l w { w with store := f w.store }) : Safe l b (changeStore f) :=
  ⟨fun w hw => hw.sound.passes_store (hf w hw), hr, fun _ _ => trivial⟩

theorem add {f : Store → Store × α}
    (hf : ∀ w, b.After w → w.store.Passes (f w.store).1 ∧ Q (f w.store).1 (f w.store).2)
    (hr : ∀ w, b.After w → Restores l w { w with store := (f w.store).1 }) : Gives l Q b (add f) :=
  ⟨fun w hw => hw.sound.passes_store (hf w hw).1, hr, fun w hw => (hf w hw).2⟩

variable {f : Frame → Frame}

theorem changeFrame
    (hf : ∀ w, b.After w → w.store.Owns (f w.frame) ∧ (f w.frame).place = w.frame.place) :
    Safe l b (changeFrame f) :=
  ⟨fun w hw => hw.sound.passes_frame (hf w hw).1, fun w hw =>
    .of_grows .refl .refl (hf w hw).2 rfl rfl, fun _ _ => trivial⟩

theorem adjustFrame (hp : ∀ x, (f x).place = x.place) (hheld : ∀ x, (f x).held = x.held) :
    Safe l b (WalkM.changeFrame f) where
  passes _ hw :=
    hw.passes_reframe
    (Prod.ext (part_eq (hp _) Frame.function) (part_eq (hp _) Frame.scope)) (hheld _)
  restores _ _ := .of_grows .refl .refl (hp _) rfl rfl
  gives _ _ := trivial

theorem changeTables {env : WalkEnv} {f : ProjectTables → ProjectTables}
    (hf : ∀ w, b.After w → w.store.Owns (f w.tables)) : Safe l b (changeTables env f) := by
  unfold WalkM.changeTables
  split
  · exact ⟨fun w hw => hw.sound.passes_tables (hf w hw), fun w _ =>
      .of_grows .refl .refl rfl rfl rfl, fun _ _ => trivial⟩
  · exact .pure fun _ _ => trivial

theorem forM {f : α → WalkM PUnit} {xs : List α} (hf : ∀ a ∈ xs, Safe l b (f a)) :
    Safe l b (xs.forM f) := by
  induction xs with
  | nil => exact .pure fun _ _ => trivial
  | cons a xs ih =>
    rw [List.forall_mem_cons] at hf
    exact .seq hf.1 fun _ => ih hf.2

end Gives

end WalkM

end LuaAnalysis
