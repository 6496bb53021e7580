import LuaAnalysis.Proofs.Resolution.Grounded
import LuaAnalysis.Proofs.Resolution.Ledger

/-!
# Walks keep a ledger

The tables of a file lead from a name to a variable, and the variable knows where it was declared:
this is a ledger (`Walk.ledger`). In a pass that walks files one by one, who provides a name is what
the ledger and the definitions of other files say (`key_known?`, `declaration?_lookup`), and a write
books its event (`ledger_entered`).
-/

namespace LuaAnalysis

/-- The place of a global with its declaration. -/
def Occurrence.free? (o : Occurrence) : Option (TextRange × DeclKey) :=
  if o.symbolClass.isLocal then none else o.declaration.map (o.range, ·)

namespace Store

/-- Where the variables of a table are declared. -/
def keysOf (s : Store) (m : OrderedMap String VariableId) (name : String) : Option DeclKey :=
  (m.get? name).map fun id => (s.variableAt id).key

variable {s s' : Store} {m : OrderedMap String VariableId} {name : String} {id : VariableId}

theorem keysOf_of_grows {x : FileIndex} (h : x.AreGlobals s m)
    (hv : Grows Variable.core s.vars s'.vars) : s'.keysOf m = s.keysOf m := by
  funext name
  unfold keysOf
  cases hid : m.get? name with
  | none => rfl
  | some id => exact congrArg some (Variable.key_of_core (hv.core_eq id.index (h name id hid).lt))

theorem keysOf_insertIfNew :
    s.keysOf (m.insertIfNew name id) = Ledger.note (s.keysOf m) name (s.variableAt id).key := by
  funext x
  unfold Ledger.note
  rw [keysOf, keysOf, OrderedMap.get?_insertIfNew]
  by_cases hx : name = x
  · subst hx
    rw [if_pos rfl, if_pos rfl]
    cases m.get? name <;> rfl
  · rw [if_neg hx, if_neg (Ne.symm hx)]
    cases m.get? x <;> rfl

end Store

def FirstPass.abroad (p : FirstPass) : Abroad where
  global name := (p.global? name).map fun found => (found.1.store.variableAt found.2).key
  root name := (p.rootGlobal? name).map fun found => (found.1.store.variableAt found.2).key

def WalkEnv.abroad (env : WalkEnv) : Abroad :=
  env.firstPass.abroad

/-- A pass that walks files one by one. While files are walked alone, nothing is known of the
others. -/
structure WalkEnv.OneByOne (env : WalkEnv) : Prop where
  pass : env.pass ≠ .project
  alone : env.pass = .fileLocal → env.firstPass = {}

/-- What the names of the current file stand for. -/
def Walk.ledger (w : Walk) : Ledger where
  globals := w.store.keysOf w.frame.globals
  roots := w.store.keysOf w.frame.rootGlobals

variable {id? : Option VariableId}

namespace WalkM

variable {env : WalkEnv} {f : FileId} {w w' : Walk} {name : String} {range : TextRange}

theorem Mute.ledger_eq (hm : Mute env w w') (h : Grounded env w) : w'.ledger = w.ledger := by
  unfold Walk.ledger
  rw [hm.globals, hm.rootGlobals, Store.keysOf_of_grows h.globals hm.vars,
    Store.keysOf_of_grows h.rootGlobals hm.vars]

theorem key_outside? (he : env.OneByOne) {found? : Option (FileAnalysis × VariableId)}
    (hnone : env.firstPass = {} → found? = none) :
    (outside? env.pass id? found?).map (·.key w) = found?.map fun found =>
      (found.1.store.variableAt found.2).key := by
  unfold outside?
  cases hp : env.pass with
  | fileLocal => rw [hnone (he.alone hp)]; rfl
  | project => exact absurd hp he.pass
  | _ => exact Option.map_map ..

theorem key_visible? (he : env.OneByOne) :
    (visible? env w name).map (·.key w) = env.abroad.global name :=
  key_outside? he fun h => by rw [h]; rfl

theorem key_or {p? : Option Provider} :
    ((id?.map .table).or p?).map (·.key w) =
      (id?.map fun id => (w.store.variableAt id).key).or (p?.map (·.key w)) := by
  cases id? <;> rfl

theorem key_known? {e : Event} (he : env.OneByOne) (hkey : e.globalKey? = some name) :
    e.declaration? env.abroad f w.ledger =
      some (((known? env w e).map (·.key w)).getD ⟨f, e.range⟩) := by
  rcases e with _ | ⟨name, range, _ | _⟩ | ⟨name, range⟩ | _
  · cases hkey
  · rw [known?, key_or, key_visible? he]
    exact congrArg (fun d? => some (Option.getD d? _)) (Option.or_eq_orElse ..).symm
  · cases hkey
  · rw [known?, key_or, key_outside? he fun h => by rw [h]; rfl]
    exact congrArg (fun d? => some (Option.getD d? _)) (Option.or_eq_orElse ..).symm
  · cases hkey

/-- Where the variable is declared that a name is looked up to be. -/
def Lookup.declaration? (s : Store) : Lookup → Option DeclKey
  | .found id | .tooEarly id _ => some (s.variableAt id).key
  | .builtin | .unresolved => none

theorem declaration?_lookup (he : env.OneByOne) (h : Grounded env w)
    (hl : w.store.lookupLocal? w.frame.scope name = none) {out : Lookup × Walk}
    (hlooks : Looks env w name out) {exempt top : Bool} :
    (Event.read name range none exempt top).declaration? env.abroad f w.ledger =
      Lookup.declaration? out.2.store out.1 := by
  have hseen : (Event.read name range none exempt top).declaration? env.abroad f w.ledger =
      (seen? env w name).map (·.key w) := by
    have hroot : w.tables.rootGlobals.get? name = none := by rw [h.unshared he.pass]; rfl
    rw [seen?, key_or, hroot, Option.map_none, Option.none_or, Option.map_or, Option.map_map,
      key_visible? he, Option.or_eq_orElse, Option.or_eq_orElse]
    rfl
  rw [hseen]
  cases hlooks with
  | bound hbound => rw [hl] at hbound; cases hbound
  | seen _ hp => rw [hp]; exact congrArg some (h.fetch (provides_seen? hp)).2.symm
  | unseen _ hnone hm =>
    rw [hnone]
    cases hm with
    | builtin | lost => rfl
    | waits _ hp => exact absurd hp he.pass

theorem ledger_entered {e : Event} {id : VariableId} (hkey : e.globalKey? = some name)
    (hd : e.declaration? env.abroad f w.ledger = some (w.store.variableAt id).key) {isNew : Bool} :
    (entered env e id isNew w).ledger = e.book env.abroad f w.ledger := by
  rcases e with _ | ⟨name, range, _ | _⟩ | ⟨name, range⟩ | _
  · cases hkey
  · rw [Event.book, Option.some.inj hd]
    exact congrArg (Ledger.mk · _) Store.keysOf_insertIfNew
  · cases hkey
  · rw [Event.book, Option.some.inj hd]
    exact congrArg₂ Ledger.mk Store.keysOf_insertIfNew Store.keysOf_insertIfNew
  · cases hkey

end WalkM

end LuaAnalysis
