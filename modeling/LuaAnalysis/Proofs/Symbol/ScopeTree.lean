import LuaAnalysis.Proofs.Symbol.Growth

/-!
# Scopes as trees

The scopes of a file, seen without the numbers of a store: a tree whose nodes have a kind, a range
and the declarations of each name. Growth of a store changes neither a tree nor what a name is bound
to, as long as the scopes that are read get no new locals or children.
-/

namespace LuaAnalysis

open List

/-- The place of a declaration. -/
def Variable.key (v : Variable) : DeclKey :=
  ⟨v.file, v.range⟩

variable {v : Variable}

theorem Variable.key_of_core {v' : Variable} (h : v.core = v'.core) : v.key = v'.key := by
  have hk : ∀ x : Variable, x.key = x.core.key := fun _ => rfl
  rw [hk v, hk v', h]

/-- A name with the place that declares it. -/
abbrev Declaration := String × DeclKey

/-- The declarations of each name in a scope, a shadowed one before the one that shadows it. -/
abbrev Locals := OrderedMap String (List DeclKey)

variable {name : String} {scope p : ScopeId} {s : Store}

namespace Locals

def declare (m : Locals) (d : Declaration) : Locals :=
  m.alter d.1 fun ks => ks.getD [] ++ [d.2]

def declareAll (m : Locals) (ds : List Declaration) : Locals :=
  ds.foldl declare m

/-- The declaration that is in force at the end of the scope. -/
def last? (m : Locals) (name : String) : Option DeclKey :=
  (m.get? name).bind (·.getLast?)

theorem last?_declare {m : Locals} {d : Declaration} :
    (m.declare d).last? name = if d.1 = name then some d.2 else m.last? name := by
  simp only [last?, declare, OrderedMap.alter, OrderedMap.get?_insert]
  split <;> simp

end Locals

/-- A scope of a file with the scopes inside it. -/
inductive ScopeTree where
  | node (kind : ScopeKind) (range : TextRange) (locals : Locals) (children : List ScopeTree)

namespace Store

/-! ## What a scope declares -/

def localsView (s : Store) (id : ScopeId) : Locals :=
  (s.scopeAt id).locals.mapValues (·.map fun v => (s.variableAt v).key)

variable {id : ScopeId}

theorem localsView_congr {s' : Store} (hl : (s'.scopeAt id).locals = (s.scopeAt id).locals)
    (hv : ∀ v ∈ s.localsOf id, (s'.variableAt v).key = (s.variableAt v).key) :
    s'.localsView id = s.localsView id := by
  rw [localsView, localsView, hl]
  refine OrderedMap.mapValues_congr fun vs hvs => map_congr_left fun v hv' => hv v ?_
  exact mem_flatten.2 ⟨vs, hvs, hv'⟩

variable {free : ScopeId → Prop} {s s' : Store}

theorem Extends.localsView_eq (h : Extends free s s') (hs : s.WellFormed)
    (hid : id.index < s.scopes.size) (hf : ¬ free id) : s'.localsView id = s.localsView id :=
  localsView_congr (h.locals_eq hid hf) fun v hv =>
    Variable.key_of_core (h.variable_core (hs.locals_lt id hid v hv))

theorem localsView_declared (hs : s.WellFormed) (hid : scope.index < s.scopes.size) :
    (s.declared scope v).localsView scope = (s.localsView scope).declare (v.name, v.key) := by
  have hold : ∀ x ∈ s.localsOf scope, ((s.declared scope v).variableAt x).key =
      (s.variableAt x).key := by
    intro x hx
    rw [variableAt_declared, if_neg (Nat.ne_of_lt (hs.locals_lt scope hid x hx))]
  have hnew : ((s.declared scope v).variableAt ⟨s.vars.size⟩).key = v.key := by
    rw [variableAt_declared, if_pos rfl]
    rfl
  rw [localsView, scopeAt_declared, if_pos ⟨rfl, hid⟩]
  simp only [OrderedMap.alter, OrderedMap.mapValues_insert, Locals.declare, map_append, map_cons,
    map_nil, hnew]
  have hview : (s.scopeAt scope).locals.mapValues (·.map fun x =>
    ((s.declared scope v).variableAt x).key) =
      s.localsView scope :=
    OrderedMap.mapValues_congr fun vs hvs => map_congr_left fun x hx => hold x (mem_flatten.2 ⟨vs, hvs, hx⟩)
  rw [hview, localsView, OrderedMap.get?_mapValues]
  cases hget : (s.scopeAt scope).locals.get? v.name with
  | none => simp
  | some vs =>
    have hvs : vs ∈ (s.scopeAt scope).locals.values := OrderedMap.mem_values_of_get? hget
    have hmap : vs.map (fun x => ((s.declared scope v).variableAt x).key) = vs.map fun x =>
      (s.variableAt x).key :=
      map_congr_left fun x hx => hold x (mem_flatten.2 ⟨vs, hvs, hx⟩)
    simp [hmap]

/-! ## What a name is bound to -/

theorem findSome?_congr {α β : Type} {f g : α → Option β} {xs : List α} (h : ∀ x ∈ xs, f x = g x) :
    xs.findSome? f = xs.findSome? g := by
  induction xs with
  | nil => rfl
  | cons x xs ih =>
    rw [findSome?_cons, findSome?_cons, h x mem_cons_self,
      ih fun y hy => h y (mem_cons_of_mem x hy)]

def bindingAt? (s : Store) (scope : ScopeId) (name : String) : Option DeclKey :=
  (s.lookupLocal? scope name).map fun v => (s.variableAt v).key

theorem isSome_bindingAt? (s : Store) (scope : ScopeId) (name : String) :
    (s.bindingAt? scope name).isSome = (s.lookupLocal? scope name).isSome :=
  Option.isSome_map

theorem bindingAt?_eq : s.bindingAt? scope name = (s.ancestors scope).findSome? fun a =>
    (s.localsView a).last? name := by
  have hlast : ∀ a, (s.localIn? a name).map (fun v => (s.variableAt v).key) =
      (s.localsView a).last? name := by
    intro a
    rw [localIn?, Locals.last?, localsView, OrderedMap.get?_mapValues]
    cases (s.scopeAt a).locals.get? name <;> simp
  rw [bindingAt?, lookupLocal?, map_findSome?]
  simp only [Function.comp_def, hlast]

theorem ancestors_le (s : Store) : ∀ a ∈ s.ancestors id, a.index ≤ id.index := by
  intro a ha
  induction id using ancestors.induct with
  | _ id ih =>
    rw [ancestors] at ha
    rcases mem_cons.1 ha with rfl | ha
    · exact Nat.le_refl _
    · cases hp : (s.scopeAt id).parent with
      | none => simp [hp] at ha
      | some p =>
        by_cases hlt : p.index < id.index
        · simp only [hp, if_pos hlt] at ha
          exact Nat.le_trans (ih p hlt ha) (Nat.le_of_lt hlt)
        · simp [hp, hlt] at ha

theorem ancestors_of_parent (hp : (s.scopeAt id).parent = some p) (hlt : p.index < id.index) :
    s.ancestors id = id :: s.ancestors p := by
  rw [ancestors, hp]
  simp [hlt]

theorem Extends.ancestors_eq (h : Extends free s s') (hid : id.index < s.scopes.size) :
    s'.ancestors id = s.ancestors id := by
  induction id using ancestors.induct with
  | _ id ih =>
    rw [ancestors, ancestors, h.parent_eq hid]
    cases hp : (s.scopeAt id).parent with
    | none => rfl
    | some p =>
      by_cases hlt : p.index < id.index
      · simp [hlt, ih p hlt (Nat.lt_trans hlt hid)]
      · simp [hlt]

def rootOf (s : Store) (id : ScopeId) : Option ScopeId :=
  (s.ancestors id).getLast?

theorem Extends.rootOf_eq (h : Extends free s s') (hid : id.index < s.scopes.size) :
    s'.rootOf id = s.rootOf id := by
  rw [rootOf, rootOf, h.ancestors_eq hid]

theorem rootOf_of_parent (hp : (s.scopeAt id).parent = some p) (hlt : p.index < id.index) :
    s.rootOf id = s.rootOf p := by
  rw [rootOf, rootOf, ancestors_of_parent hp hlt, ancestors, getLast?_cons_cons]

theorem rootOf_of_mem {a : ScopeId} (ha : id ∈ s.ancestors a) (hp : (s.scopeAt id).parent = none) :
    s.rootOf a = some id := by
  induction a using ancestors.induct with
  | _ a ih =>
    rw [ancestors] at ha
    rcases mem_cons.1 ha with rfl | ha
    · rw [rootOf, ancestors, hp]
      rfl
    · cases hpar : (s.scopeAt a).parent with
      | none => simp [hpar] at ha
      | some p =>
        by_cases hlt : p.index < a.index
        · rw [rootOf_of_parent hpar hlt]
          simp only [hpar, if_pos hlt] at ha
          exact ih p hlt ha
        · simp [hpar, hlt] at ha

theorem mem_ancestors_of_parent {c a : ScopeId} (ha : c ∈ s.ancestors a)
    (hp : (s.scopeAt c).parent = some id) (hlt : id.index < c.index) : id ∈ s.ancestors a := by
  induction a using ancestors.induct with
  | _ a ih =>
    rw [ancestors] at ha
    rcases mem_cons.1 ha with rfl | ha
    · rw [ancestors_of_parent hp hlt, ancestors]
      simp
    · cases hpar : (s.scopeAt a).parent with
      | none => simp [hpar] at ha
      | some p =>
        by_cases hlt' : p.index < a.index
        · rw [ancestors_of_parent hpar hlt']
          simp only [hpar, if_pos hlt'] at ha
          exact mem_cons_of_mem a (ih p hlt' ha)
        · simp [hpar, hlt'] at ha

theorem Extends.bindingAt?_eq (h : Extends free s s') (hs : s.WellFormed)
    (hid : id.index < s.scopes.size) (hf : ∀ a : ScopeId, a.index ≤ id.index → ¬ free a) :
    s'.bindingAt? id name = s.bindingAt? id name := by
  rw [Store.bindingAt?_eq, Store.bindingAt?_eq, h.ancestors_eq hid]
  refine findSome?_congr fun a ha => ?_
  have hle := s.ancestors_le a ha
  rw [h.localsView_eq hs (Nat.lt_of_le_of_lt hle hid) (hf a hle)]

theorem bindingAt?_of_empty (hp : (s.scopeAt id).parent = some p) (hlt : p.index < id.index)
    (hl : (s.scopeAt id).locals = {}) : s.bindingAt? id name = s.bindingAt? p name := by
  have hview : s.localsView id = {} := by
    rw [localsView, hl]
    rfl
  rw [bindingAt?_eq, bindingAt?_eq, ancestors_of_parent hp hlt, findSome?_cons, hview]
  rfl

theorem bindingAt?_of_root (hp : (s.scopeAt id).parent = none) (hl : (s.scopeAt id).locals = {})
    (name : String) : s.bindingAt? id name = none := by
  have hview : s.localsView id = {} := by
    rw [localsView, hl]
    rfl
  rw [bindingAt?_eq, ancestors, hp, findSome?_cons, hview]
  rfl

theorem bindingAt?_declared (hs : s.WellFormed) (hid : scope.index < s.scopes.size) :
    (s.declared scope v).bindingAt? scope name = if v.name =
      name then some v.key else s.bindingAt? scope name := by
  have hext := (within_declared s scope v).toExtends
  rw [bindingAt?_eq, hext.ancestors_eq hid, bindingAt?_eq, ancestors, findSome?_cons,
    findSome?_cons, localsView_declared hs hid, Locals.last?_declare]
  by_cases hname : v.name = name
  · simp [hname]
  · simp only [if_neg hname]
    cases (s.localsView scope).last? name with
    | some k => rfl
    | none =>
      refine findSome?_congr fun a ha => ?_
      -- The scopes further out have smaller numbers.
      have hlt : a.index < scope.index := by
        cases hp : (s.scopeAt scope).parent with
        | none => simp [hp] at ha
        | some p =>
          by_cases hlt : p.index < scope.index
          · simp only [hp, if_pos hlt] at ha
            exact Nat.lt_of_le_of_lt (s.ancestors_le a ha) hlt
          · simp [hp, hlt] at ha
      rw [hext.localsView_eq hs (Nat.lt_trans hlt hid) fun h => absurd hlt (by simp [h])]

/-! ## Trees of scopes -/

def isChild (s : Store) (id c : ScopeId) : Bool :=
  id.index < c.index && c.index < s.scopes.size && (s.scopeAt c).parent == some id

/-- The tree of the scopes that hang together by the lists of children and the links to parents. -/
def scopeTree (s : Store) (id : ScopeId) : ScopeTree :=
  .node (s.scopeAt id).kind (s.scopeAt id).range (s.localsView id)
    (((s.scopeAt id).children.filter (s.isChild id)).attach.map fun c => s.scopeTree c.1)
termination_by s.scopes.size - id.index
decreasing_by
  have hc := (mem_filter.1 c.2).2
  simp only [isChild, Bool.and_eq_true, decide_eq_true_eq] at hc
  omega

theorem WellFormed.scopeTree_eq (hs : s.WellFormed) (hid : id.index < s.scopes.size) :
    s.scopeTree id = .node (s.scopeAt id).kind (s.scopeAt id).range (s.localsView id)
      ((s.scopeAt id).children.map s.scopeTree) := by
  have hall : (s.scopeAt id).children.filter (s.isChild id) = (s.scopeAt id).children := by
    refine filter_eq_self.2 fun c hc => ?_
    obtain ⟨h1, h2, h3⟩ := hs.child id hid c hc
    simp [isChild, h1, h2, h3]
  rw [scopeTree]
  simp only [map_attach_eq_pmap, pmap_eq_map, hall]

theorem Extends.scopeTree_eq (h : Extends free s s') (hs : s.WellFormed)
    (hid : id.index < s.scopes.size) (hf : ∀ a : ScopeId, id ∈ s.ancestors a →
      a.index < s.scopes.size → ¬ free a) : s'.scopeTree id = s.scopeTree id := by
  -- The children of a scope have greater numbers.
  induction hn : s.scopes.size - id.index using Nat.strongRecOn generalizing id with
  | _ n ih =>
    have hshape := h.scope_shape hid
    have hnf := hf id (by rw [ancestors]; exact mem_cons_self) hid
    rw [hs.scopeTree_eq hid, (h.wellFormed hs).scopeTree_eq (h.scope_lt hid), h.children_eq hid hnf,
      h.localsView_eq hs hid hnf, part_eq hshape Scope.kind, part_eq hshape Scope.range]
    congr 1
    refine map_congr_left fun c hc => ?_
    obtain ⟨hlt, hc', hparent⟩ := hs.child id hid c hc
    refine ih (s.scopes.size - c.index) (by omega) hc' (fun a ha => hf a ?_) rfl
    exact mem_ancestors_of_parent ha hparent hlt

end Store

end LuaAnalysis
