import LuaAnalysis.Proofs.Project.Passes
import LuaAnalysis.Proofs.Walk.Globals

/-!
# When a global has one variable

A name that is defined both plainly and as a member of `_G` should lead to one variable, whichever
table is asked. It does exactly if no plain definition came first (`agreeOn_iff_rootFirst`).
Otherwise the name has two variables, a plain one and a member (`not_agreeOn_plainFirst`).
-/

namespace LuaAnalysis

def AgreeOn (ms : List (OrderedMap String VariableId)) (name : String) : Prop :=
  ∀ m ∈ ms, ∀ m' ∈ ms, ∀ v ∈ m.get? name, ∀ v' ∈ m'.get? name, v = v'

instance (ms : List (OrderedMap String VariableId)) (name : String) : Decidable (AgreeOn ms name) :=
  inferInstanceAs (Decidable (∀ m ∈ ms, ∀ m' ∈ ms, ∀ v ∈ m.get? name, ∀ v' ∈ m'.get? name, v = v'))

def GlobalTables.both (t : GlobalTables) : List (OrderedMap String VariableId) :=
  [t.globals, t.rootGlobals]

variable {m : OrderedMap String VariableId} {t : GlobalTables}

theorem GlobalTables.mem_both : m ∈ t.both ↔ m = t.globals ∨ m = t.rootGlobals := by
  simp [both]

namespace ProjectTables

def globalTables (t : ProjectTables) : GlobalTables :=
  ⟨t.globals, t.rootGlobals⟩

def allGlobals (t : ProjectTables) : List (OrderedMap String VariableId) :=
  t.globalTables.both ++ t.files.values.flatMap fun r => r.globalTables.both

def allRoots (t : ProjectTables) : List (OrderedMap String VariableId) :=
  t.rootGlobals :: t.files.values.map (·.rootGlobals)

end ProjectTables

namespace GlobalTables

variable {s : Store} {shared : GlobalTables} {rs : List FileResult} {name : String}

def RootFirst (s : Store) (t : GlobalTables) (name : String) : Prop :=
  ∀ u ∈ t.globals.get? name, t.rootGlobals.contains name = true →
    (s.variableAt u).flags.rootNamespace = true

theorem contains_globals
    (h : ∀ v, t.rootGlobals.get? name = some v → ∃ u, t.globals.get? name = some u)
    (hroot : t.rootGlobals.contains name = true) : t.globals.contains name = true := by
  obtain ⟨v, hv⟩ := Option.isSome_iff_exists.1 hroot
  exact Option.isSome_iff_exists.2 (h v hv)

theorem get?_shared_of_follows (hrs : ∀ r ∈ rs, r.globalTables.Follows shared)
    (hm : m ∈ shared.both ++ rs.flatMap fun r => r.globalTables.both) {v : VariableId}
    (hv : m.get? name = some v) :
    shared.globals.get? name = some v ∨ shared.rootGlobals.get? name = some v := by
  rcases List.mem_append.1 hm with hm | hm
  · rcases mem_both.1 hm with rfl | rfl
    · exact .inl hv
    · exact .inr hv
  · obtain ⟨r, hr, hm⟩ := List.mem_flatMap.1 hm
    rcases mem_both.1 hm with rfl | rfl
    · exact (hrs r hr).plain name v hv
    · exact .inr ((hrs r hr).root name v hv).1

theorem Paired.agreeOn_iff (h : Paired s shared) (hrs : ∀ r ∈ rs, r.globalTables.Follows shared) :
    AgreeOn (shared.both ++ rs.flatMap fun r => r.globalTables.both) name ↔
    shared.RootFirst s name := by
  constructor
  · intro hagree u hu hroot
    obtain ⟨v, hv⟩ := Option.isSome_iff_exists.1 hroot
    obtain rfl : u = v := hagree shared.globals (List.mem_append_left _ (mem_both.2 (.inl rfl)))
      shared.rootGlobals (List.mem_append_left _ (mem_both.2 (.inr rfl))) u hu v hv
    exact (h.root name u hv).1.flag
  · intro hfirst m hm m' hm' v hv v' hv'
    -- The shared global and the shared member are the same, if there are both.
    have hsame : ∀ u w, shared.globals.get? name = some u → shared.rootGlobals.get? name = some w →
        u = w := by
      intro u w hu hw
      have hmark := hfirst u hu (by rw [OrderedMap.contains, hw]; rfl)
      obtain ⟨root, hholds, hroot⟩ := h.plain name u hu
      rw [hholds.flag] at hmark
      exact Option.some.inj ((hroot hmark).symm.trans hw)
    rcases get?_shared_of_follows hrs hm
      hv with hv | hv <;> rcases get?_shared_of_follows hrs hm' hv' with hv' | hv'
    · exact Option.some.inj (hv.symm.trans hv')
    · exact hsame v v' hv hv'
    · exact (hsame v' v hv' hv).symm
    · exact Option.some.inj (hv.symm.trans hv')

end GlobalTables

namespace Project

open WalkM

variable (p : Project)

theorem paired_analyse? {f : FileId} {a : FileAnalysis} (h : p.analyse? f = some a) :
    a.result.globalTables.Paired a.store := by
  obtain ⟨-, w, hwalks, hs⟩ := walks_of_analyse? h
  rw [hs]
  exact hwalks.pairs rfl

/-- In a file that is walked alone every member of `_G` is a global, and the two tables agree on a
name exactly if its global came as a member of `_G`. In a walk from entry files the members of `_G`
are the same in all tables, every global of a file is the shared global or the shared member, and
all tables agree on a name exactly if its shared global came as a member. -/
theorem agreeOn_iff_rootFirst (name : String) :
    (∀ f a, p.analyse? f = some a →
      (a.result.rootGlobals.contains name = true → a.result.globals.contains name = true) ∧
      (AgreeOn a.result.globalTables.both name ↔ a.result.globalTables.RootFirst a.store name)) ∧
    ∀ firstPass entries,
      let r := p.walkFrom firstPass entries
      (∀ result ∈ r.tables.files.values,
        (result.rootGlobals.contains name = true → result.globals.contains name = true) ∧
        ∀ u ∈ result.globals.get? name, u ∈ r.tables.globals.get? name ∨
        u ∈ r.tables.rootGlobals.get? name) ∧
      AgreeOn r.tables.allRoots name ∧
      (AgreeOn r.tables.allGlobals name ↔ r.tables.globalTables.RootFirst r.store name) := by
  refine ⟨fun f a ha => ?_, fun firstPass entries => ?_⟩
  · have hpaired := p.paired_analyse? ha
    have hno : ∀ r ∈ ([] : List FileResult), r.globalTables.Follows a.result.globalTables := nofun
    exact ⟨GlobalTables.contains_globals fun v hv =>
      (hpaired.root name v hv).2, hpaired.agreeOn_iff hno⟩
  · intro r
    have h := coherent_start.forM_walkEntry rfl
      (idle_start (p.env .project firstPass) .project) entries
    have hshared : r.tables.globalTables.Paired r.store := h.shared
    have hfiles : ∀ result ∈ r.tables.files.values,
      result.globalTables.Follows r.tables.globalTables := h.files
    refine ⟨fun result hresult => ⟨?_, (hfiles result hresult).plain name⟩, ?_,
      hshared.agreeOn_iff hfiles⟩
    · exact GlobalTables.contains_globals fun v hv => ((hfiles result hresult).root name v hv).2
    · have hroot : ∀ m ∈ r.tables.allRoots, ∀ v ∈ m.get? name, r.tables.rootGlobals.get? name =
        some v := by
        intro m hm v hv
        rcases List.mem_cons.1 hm with rfl | hm
        · exact hv
        · obtain ⟨result, hresult, rfl⟩ := List.mem_map.1 hm
          exact ((hfiles result hresult).root name v hv).1
      intro m hm m' hm' v hv v' hv'
      exact Option.some.inj ((hroot m hm v hv).symm.trans (hroot m' hm' v' hv'))

/-- A file that defines a global plainly and then as a member of `_G`. -/
def plainFirst : Project :=
  ((ofConfig {}).addFile "a.lua" "x = 1\n_G.x = 2\n").1

/-- The name has two variables then, both when the file is walked alone and in a walk from it. -/
theorem not_agreeOn_plainFirst :
    (∃ a ∈ plainFirst.analyse? ⟨0⟩, ¬ AgreeOn a.result.globalTables.both "x") ∧
      ¬ AgreeOn (plainFirst.walkFrom plainFirst.computeFirstPass [⟨0⟩]).tables.allGlobals "x" := by
  decide +kernel

end Project

end LuaAnalysis
