import LuaAnalysis.Proofs.Project.Edits
import LuaAnalysis.Proofs.Walk.Twin

/-!
# The first pass sees one file at a time

What the first pass finds in a file is settled by its text, its path and the settings. In two
projects that share these, with whatever other files in whatever order, it finds the same; only the
number of the file, the targets of its loads and the complaints about missing targets may differ.
-/

namespace LuaAnalysis

def FileAnalysis.rename (ρ : FileId → FileId) (a : FileAnalysis) : FileAnalysis :=
  { store := a.store.rename ρ, result := a.result.rename ρ }

def FileAnalysis.apartFromLoads (a : FileAnalysis) : FileAnalysis :=
  { store := a.store.withoutTargets, result := a.result.apartFromLoads }

namespace Project

theorem apart_env {p q : Project} (hconfig : q.config = p.config)
    (hrealtime : q.realtime = p.realtime) (hsuppression : q.suppression = p.suppression) :
    (p.env .fileLocal {}).Apart (q.env .fileLocal {}) where
  pass := rfl
  pass' := rfl
  config := hconfig
  realtime := hrealtime
  suppression := hsuppression
  firstPass := rfl
  firstPass' := rfl

theorem analyse?_twin {p q : Project} (h : (p.env .fileLocal {}).Apart (q.env .fileLocal {}))
    {f g : FileId} {source source' : SourceFile}
    (hs : WalkM.SameFile (p.env .fileLocal {}) (q.env .fileLocal {}) source source')
    (hf : p.files.get? f = some source) (hg : q.files.get? g = some source') :
    ∃ a b, p.analyse? f = some a ∧ q.analyse? g = some b ∧
      ∀ ρ : FileId → FileId, ρ f = g → (a.rename ρ).apartFromLoads = b.apartFromLoads := by
  obtain ⟨r, r', w, w', hr, hr', -, -⟩ :=
    WalkM.twin_walkFile (ρ := fun _ => g) h hs hf hg (p.files.ids.erase f) (q.files.ids.erase g)
  refine ⟨⟨w.store, r⟩, ⟨w'.store, r'⟩, ?_, ?_, fun ρ hρ => ?_⟩
  · rw [analyse?_eq]
    exact congrArg (fun x => x.1.map fun result => (⟨x.2.store, result⟩ : FileAnalysis)) hr
  · rw [analyse?_eq]
    exact congrArg (fun x => x.1.map fun result => (⟨x.2.store, result⟩ : FileAnalysis)) hr'
  · subst hρ
    obtain ⟨_, _, _, _, heq, heq', hresult, hstore⟩ :=
      WalkM.twin_walkFile h hs hf hg (p.files.ids.erase f) (q.files.ids.erase (ρ f))
    rw [hr, Prod.mk.injEq, Option.some.injEq] at heq
    rw [hr', Prod.mk.injEq, Option.some.injEq] at heq'
    obtain ⟨rfl, rfl⟩ := heq
    obtain ⟨rfl, rfl⟩ := heq'
    exact congrArg₂ FileAnalysis.mk (Store.twin_iff.1 hstore) hresult

variable {config : Config} {realtime : Bool}

theorem exists_idOf?_replay {history : List Operation} {path text : String}
    (h : (FileIndex.textsOf {} (additions history)).get? (Path.normalize path) = some text) :
    ∃ f, (replay config realtime history).files.idOf? path = some f ∧
      (replay config realtime history).files.get? f =
        some (.ofText f (Path.normalize path) text) := by
  have hfiles := congrArg Project.files (fresh_replay config realtime history).2
  change (replay config realtime history).files = _ at hfiles
  rw [hfiles]
  exact FileIndex.exists_idOf?_ofTexts h

theorem apart_replay {history history' : List Operation} :
    ((replay config realtime history).env .fileLocal {}).Apart
      ((replay config realtime history').env .fileLocal {}) := by
  have h := (fresh_replay config realtime history).2
  have h' := (fresh_replay config realtime history').2
  refine apart_env ?_ ?_ ?_
  · exact (congrArg Project.config h').trans (congrArg Project.config h).symm
  · exact (congrArg Project.realtime h').trans (congrArg Project.realtime h).symm
  · exact (congrArg Project.suppression h').trans (congrArg Project.suppression h).symm

theorem ofFile_replay {history : List Operation} {path text : String}
    (h : (FileIndex.textsOf {} (additions history)).get? path = some text) :
    (replay config realtime history).annotations.ofFile path =
      .ofComments (Source.parse text).comments := by
  have hannotations := congrArg Project.annotations (fresh_replay config realtime history).2
  change (replay config realtime history).annotations = _ at hannotations
  rw [hannotations, holding, annotationsOf, AnnotationTable.ofFile, OrderedMap.get?_mapValues, h]
  rfl

/-- A file has the same analysis in any two projects with the same settings in which its last text
is the same, whatever else has been registered or asked, and in whatever order. -/
theorem firstPass_apartFromLoads_eq (config : Config) (realtime : Bool)
    (history history' : List Operation) (path text : String)
    (h : (FileIndex.textsOf {} (additions history)).get? (Path.normalize path) = some text)
    (h' : (FileIndex.textsOf {} (additions history')).get? (Path.normalize path) = some text) :
    ∃ f g a b,
      (replay config realtime history).files.idOf? path = some f ∧
      (replay config realtime history').files.idOf? path = some g ∧
      (replay config realtime history).ensureFirstPass.2.get? f = some a ∧
      (replay config realtime history').ensureFirstPass.2.get? g = some b ∧
      ∀ ρ : FileId → FileId, ρ f = g → (a.rename ρ).apartFromLoads = b.apartFromLoads := by
  obtain ⟨f, hf, hfile⟩ := exists_idOf?_replay h
  obtain ⟨g, hg, hfile'⟩ := exists_idOf?_replay h'
  have hsame : WalkM.SameFile ((replay config realtime history).env .fileLocal {})
      ((replay config realtime history').env .fileLocal {}) (.ofText f (Path.normalize path) text)
      (.ofText g (Path.normalize path) text) :=
      ⟨rfl, rfl, (ofFile_replay h').trans (ofFile_replay h).symm⟩
  obtain ⟨a, b, ha, hb, heq⟩ := analyse?_twin apart_replay hsame hfile hfile'
  refine ⟨f, g, a, b, hf, hg, ?_, ?_, heq⟩
  · rw [(fresh_replay config realtime history).1.ensureFirstPass, get?_computeFirstPass]
    exact ha
  · rw [(fresh_replay config realtime history').1.ensureFirstPass, get?_computeFirstPass]
    exact hb

def loading : List Operation :=
  [.add "main.lua" "local m = require('lib')\nshared = m.x"]

/-- The same file after the one that it loads, which gives it another number, and with an older text
that was checked. -/
def loadingFound : List Operation :=
  [.add "lib.lua" "return {}", .add "./main.lua" "x =", .ask (.check []),
    .add ".\\main.lua" "local m = require('lib')\nshared = m.x"]

theorem firstPass_apartFromLoads_eq_loading :
    (FileIndex.textsOf {} (additions loading)).get? "main.lua" =
        (FileIndex.textsOf {} (additions loadingFound)).get? "main.lua" ∧
      ∃ f g a b,
        (replay {} false loading).files.idOf? "main.lua" = some f ∧
        (replay {} false loadingFound).files.idOf? "main.lua" = some g ∧
        (replay {} false loading).ensureFirstPass.2.get? f = some a ∧
        (replay {} false loadingFound).ensureFirstPass.2.get? g = some b ∧
        ∀ ρ : FileId → FileId, ρ f = g → (a.rename ρ).apartFromLoads = b.apartFromLoads := by
  refine ⟨by decide, ?_⟩
  exact firstPass_apartFromLoads_eq {} false loading loadingFound "main.lua"
    "local m = require('lib')\nshared = m.x"
    (by decide) (by decide)

end Project

end LuaAnalysis
