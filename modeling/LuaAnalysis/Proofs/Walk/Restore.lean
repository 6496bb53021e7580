import LuaAnalysis.Proofs.Walk.Quiet

/-!
# What a visit puts back

A visit may go into scopes, functions and files, but it comes back: the frame is in the same place,
the stacks of files and loads are as before, and scopes that were there have lost what was proven
about names at most (`Restores`). What a `Leeway` frees may change besides: the locals of the
current scope under a statement, what the conditions of a chain have proven while the chain is
walked, and scopes of a function whose body is walked.
-/

namespace LuaAnalysis

def Scope.childless (x : Scope) : Scope :=
  { x with children := [] }

/-- A function without its types and what its body was found to do, but with the number of its open
scopes. -/
def Function.depths (f : Function) : Function :=
  { f.core with scopeDepth := f.scopeDepth }

theorem Grows.depths_around {xs ys : Array Function} {i : Nat}
    (h : Grows Function.depths
      (xs.modify i fun f => { f with scopeDepth := f.scopeDepth + 1 }) ys) :
    Grows Function.depths xs (ys.modify i fun f => { f with scopeDepth := f.scopeDepth - 1 }) := by
  have hsize : xs.size ≤ ys.size := by simpa using h.size_le
  refine ⟨by simpa using hsize, fun j hj => ?_⟩
  have hcore := h.core_eq j (by simpa using hj)
  rw [Store.getD_modify] at hcore ⊢
  by_cases hij : i = j
  · rw [if_pos ⟨hij, hj⟩] at hcore
    rw [if_pos ⟨hij, Nat.lt_of_lt_of_le hj hsize⟩]
    have hback := congrArg (fun f : Function => { f with scopeDepth := f.scopeDepth - 1 }) hcore
    exact hback
  · rw [if_neg fun h => hij h.1] at hcore ⊢
    exact hcore

theorem Store.grows_addScope (s : Store) (kind : ScopeKind) (parent : Option ScopeId)
    (function : FunctionId) (range : TextRange) :
    Grows Scope.childless s.scopes (s.addScope kind parent function range).1.scopes := by
  have hpush : Grows Scope.childless s.scopes (s.scopes.push { kind, parent, function, range }) :=
    .push _ _ _
  cases parent with
  | none => exact hpush
  | some p =>
    exact hpush.trans
      (.modify (f := fun x : Scope => { x with children := x.children ++ [_] }) _ _ fun _ => rfl)

theorem Store.grows_addFunction (s : Store) (spec : FunctionSpec) :
    Grows Scope.childless s.scopes (s.addFunction spec).1.scopes ∧
      Grows Function.depths s.functions (s.addFunction spec).1.functions := by
  obtain ⟨f, hf⟩ := s.addFunction_eq spec
  rw [hf, functions_addScope]
  exact ⟨grows_addScope { s with functions := s.functions.push f } _ _ _ _, .push _ _ _⟩

namespace WalkM

/-- What a visit may put into a scope. -/
inductive ScopePart where
  | narrowed | chain | locals

/-- What may change in scopes that were there before: a part of the current one, or all of it, and
besides that the scopes of a function. -/
inductive Leeway where
  | nothing
  | only (part : ScopePart)
  | all
  | besides (function : FunctionId) (rest : Leeway)

namespace Leeway

variable {l : Leeway} {current : Prop} {x y z : Scope} {p : ScopePart}

def Frees (current : Prop) (x : Scope) (p : ScopePart) : Leeway → Prop
  | nothing => False
  | only q => current ∧ p = q
  | all => current
  | besides f l => x.function = f ∨ l.Frees current x p

theorem Frees.congr (hfree : l.Frees current y p) (h : y.function = x.function) :
    l.Frees current x p := by
  induction l with
  | nothing | only | all => exact hfree
  | besides f l ih => exact hfree.imp h.symm.trans ih

/-- A scope has lost what was proven about names at most, apart from what is free to change. -/
structure Allows (l : Leeway) (current : Prop) (x y : Scope) : Prop where
  function : y.function = x.function
  narrowed : l.Frees current x .narrowed ∨ ∀ name v, y.narrowed.get? name = some v →
    x.narrowed.get? name = some v
  chain : l.Frees current x .chain ∨ y.chainNarrowed = x.chainNarrowed
  locals : l.Frees current x .locals ∨ y.locals = x.locals

namespace Allows

theorem trans (h : l.Allows current x y) (h' : l.Allows current y z) : l.Allows current x z where
  function := h'.function.trans h.function
  narrowed := h.narrowed.elim .inl fun hxy =>
    h'.narrowed.imp (·.congr h.function) fun hyz name v hv => hxy name v (hyz name v hv)
  chain := h.chain.elim .inl fun hxy => h'.chain.imp (·.congr h.function) (·.trans hxy)
  locals := h.locals.elim .inl fun hxy => h'.locals.imp (·.congr h.function) (·.trans hxy)

theorem weaken {l' : Leeway} {current' : Prop} (h : l.Allows current x y)
    (hl : ∀ p, l.Frees current x p → l'.Frees current' x p) : l'.Allows current' x y :=
  ⟨h.function, h.narrowed.imp_left (hl _), h.chain.imp_left (hl _), h.locals.imp_left (hl _)⟩

theorem of_childless (h : y.childless = x.childless) : l.Allows current x y where
  function := part_eq h Scope.function
  narrowed := .inr fun name _ hv =>
    (congrArg (·.get? name) (part_eq h Scope.narrowed)).symm.trans hv
  chain := .inr (part_eq h Scope.chainNarrowed)
  locals := .inr (part_eq h Scope.locals)

theorem of_current (h : current) (hfunction : y.function = x.function) : all.Allows current x y :=
  ⟨hfunction, .inl h, .inl h, .inl h⟩

end Allows

end Leeway

/-- The walk is back where it was, and the scopes that were there are as they may be. -/
structure Restores (l : Leeway) (w w' : Walk) : Prop where
  place : w'.frame.place = w.frame.place
  active : w'.phase.active = w.phase.active
  loadSites : w'.loadSites = w.loadSites
  size_le : w.store.scopes.size ≤ w'.store.scopes.size
  functions : Grows Function.depths w.store.functions w'.store.functions
  scopes : ∀ id : ScopeId, id.index < w.store.scopes.size →
    l.Allows (id = w.frame.scope) (w.store.scopeAt id) (w'.store.scopeAt id)

namespace Restores

variable {l l' : Leeway} {w w' w'' : Walk}

/-- What the second visit may change besides was not there before the first one. -/
theorem trans_of_frees (h : Restores l w w') (h' : Restores l' w' w'')
    (hfrees : ∀ id : ScopeId, id.index < w.store.scopes.size → ∀ p,
      l'.Frees (id = w.frame.scope) (w'.store.scopeAt id) p →
      l.Frees (id = w.frame.scope) (w'.store.scopeAt id) p) :
    Restores l w w'' where
  place := h'.place.trans h.place
  active := h'.active.trans h.active
  loadSites := h'.loadSites.trans h.loadSites
  size_le := Nat.le_trans h.size_le h'.size_le
  functions := h.functions.trans h'.functions
  scopes id hid := by
    have hnext := h'.scopes id (Nat.lt_of_lt_of_le hid h.size_le)
    rw [part_eq h.place Frame.scope] at hnext
    exact (h.scopes id hid).trans (hnext.weaken (hfrees id hid))

theorem trans (h : Restores l w w') (h' : Restores l w' w'') : Restores l w w'' :=
  h.trans_of_frees h' fun _ _ _ hp => hp

theorem weaken (h : Restores l w w')
    (hl : ∀ current x p, l.Frees current x p → l'.Frees current x p) : Restores l' w w' :=
  { h with scopes := fun id hid => (h.scopes id hid).weaken fun p => hl _ _ p }

theorem of_grows (hscopes : Grows Scope.childless w.store.scopes w'.store.scopes)
    (hfunctions : Grows Function.depths w.store.functions w'.store.functions)
    (hplace : w'.frame.place = w.frame.place) (hactive : w'.phase.active = w.phase.active)
    (hsites : w'.loadSites = w.loadSites) : Restores l w w' :=
  ⟨hplace, hactive, hsites, hscopes.size_le, hfunctions,
    fun id hid => .of_childless (hscopes.core_eq id.index hid)⟩

theorem refl : Restores l w w :=
  .of_grows .refl .refl rfl rfl rfl

theorem of_rests {s : Store} (h : w.store.Rests s) : Restores l w { w with store := s } :=
  .of_grows (.of_id h.scopes) (.of_id h.functions) rfl rfl rfl

theorem of_eq {s : Store} (hscopes : s.scopes = w.store.scopes)
    (hfunctions : s.functions = w.store.functions) : Restores l w { w with store := s } :=
  .of_grows (hscopes ▸ .refl) (hfunctions ▸ .refl) rfl rfl rfl

theorem of_modifyScope (id : ScopeId) {f : Scope → Scope}
    (hf : ∀ x, l.Allows (id = w.frame.scope) x (f x)) :
    Restores l w { w with store := w.store.modifyScope id f } where
  place := rfl
  active := rfl
  loadSites := rfl
  size_le := by simp
  functions := .refl
  scopes i _ := by
    rw [Store.scopeAt_modifyScope]
    split
    · rename_i h
      obtain rfl : id = i := congrArg ScopeId.mk h.1
      exact hf _
    · exact .of_childless rfl

theorem foldl_modifyScope {α : Type} {f : α → Scope → Scope} {g : α → ScopeId} (xs : List α)
    (hf : ∀ a x, l.Allows (g a = w.frame.scope) x (f a x)) :
    Restores l w { w with store := xs.foldl (fun s a => s.modifyScope (g a) (f a)) w.store } := by
  induction xs generalizing w with
  | nil => exact .refl
  | cons a xs ih =>
    have hstep : Restores l w { w with store := w.store.modifyScope (g a) (f a) } :=
      .of_modifyScope _ (hf a)
    exact hstep.trans (ih hf)

theorem clearNarrowing {scope : ScopeId} {name : String} :
    Restores l w { w with store := w.store.clearNarrowing scope name } := by
  refine .foldl_modifyScope (g := id) (w.store.scopesOfFunction scope) fun _ x =>
    ⟨rfl, .inr fun k v h => ?_, .inr rfl, .inr rfl⟩
  rw [OrderedMap.get?_erase] at h
  split at h
  · cases h
  · exact h

theorem of_chain (h : Restores (.only .chain) w w')
    (hchain : (w'.store.scopeAt w.frame.scope).chainNarrowed =
    (w.store.scopeAt w.frame.scope).chainNarrowed) : Restores l w w' := by
  refine { h with scopes := fun id hid => ?_ }
  have hscope := h.scopes id hid
  refine ⟨hscope.function, .inr (hscope.narrowed.resolve_left nofun), .inr ?_,
    .inr (hscope.locals.resolve_left nofun)⟩
  rcases hscope.chain with ⟨rfl, -⟩ | hsame
  · exact hchain
  · exact hsame

theorem between {w₁ w₂ : Walk} (h : Restores l' w₁ w₂)
    (hinto : Grows Scope.childless w.store.scopes w₁.store.scopes)
    (hfrees : ∀ id : ScopeId, id.index < w.store.scopes.size → ∀ p,
      l'.Frees (id = w₁.frame.scope) (w₁.store.scopeAt id) p →
      l.Frees (id = w.frame.scope) (w₁.store.scopeAt id) p)
    (hback : w'.store.scopes = w₂.store.scopes)
    (hfunctions : Grows Function.depths w.store.functions w'.store.functions)
    (hplace : w'.frame.place = w.frame.place) (hactive : w'.phase.active = w.phase.active)
    (hsites : w'.loadSites = w.loadSites) : Restores l w w' where
  place := hplace
  active := hactive
  loadSites := hsites
  size_le := hback ▸ Nat.le_trans hinto.size_le h.size_le
  functions := hfunctions
  scopes id hid := by
    have hscope : w'.store.scopeAt id = w₂.store.scopeAt id :=
      congrArg (·.getD id.index default) hback
    have hsame : l.Allows (id = w.frame.scope) (w.store.scopeAt id) (w₁.store.scopeAt id) :=
      .of_childless (hinto.core_eq id.index hid)
    rw [hscope]
    exact hsame.trans ((h.scopes id (Nat.lt_of_lt_of_le hid hinto.size_le)).weaken (hfrees id hid))

end Restores

end WalkM
end LuaAnalysis
