import LuaAnalysis.Proofs.Project.Run
import LuaAnalysis.Proofs.Project.Sound
import LuaAnalysis.Proofs.Tree.Statements
import LuaAnalysis.Proofs.Walk.Nesting

/-!
# Scopes in a store nest

A scope of a sound store is the main scope of a file, lies below one, or has nothing inside. The
scopes below the main scope of a file that was read are those of its tree, which is well ranged. So
after the run of any pass every scope lies inside its parent, and scopes with the same parent do not
overlap (`outcome_nests`).
-/

namespace LuaAnalysis

namespace Store

variable {s : Store}

/-- Scopes lie inside their parents, and the children of a scope, which are those that have it as
their parent, do not overlap. -/
structure Nests (s : Store) : Prop where
  inside : ∀ x p : ScopeId, s.Owns x → (s.scopeAt x).parent = some p →
    (s.scopeAt p).range.containsRange (s.scopeAt x).range = true
  mem_children : ∀ p x : ScopeId, s.Owns p → s.Owns x →
    (x ∈ (s.scopeAt p).children ↔ (s.scopeAt x).parent = some p)
  apart : ∀ p : ScopeId, s.Owns p →
    (s.scopeAt p).children.Pairwise fun x y =>
    (s.scopeAt x).range.overlaps (s.scopeAt y).range = false

theorem range_scopeTree (s : Store) (x : ScopeId) :
    (s.scopeTree x).range = (s.scopeAt x).range := by
  rw [scopeTree, ScopeTree.range]

theorem WellFormed.of_nested (hs : s.WellFormed) {p : ScopeId} (hp : s.Owns p)
    (h : (s.scopeTree p).Nested) :
    (∀ x ∈ (s.scopeAt p).children, (s.scopeTree x).Nested ∧
      (s.scopeAt p).range.containsRange (s.scopeAt x).range = true) ∧
    (s.scopeAt p).children.Pairwise fun x y => (s.scopeAt x).range.overlaps (s.scopeAt y).range =
      false := by
  rw [hs.scopeTree_eq hp] at h
  cases h with
  | mk hinside hapart hchildren =>
    refine ⟨fun x hx => ⟨hchildren _ (List.mem_map_of_mem hx), ?_⟩, ?_⟩
    · rw [← range_scopeTree s x]
      exact hinside _ (List.mem_map_of_mem hx)
    · refine (List.pairwise_map.1 hapart).imp fun {x y} hxy => ?_
      rw [range_scopeTree, range_scopeTree] at hxy
      exact hxy.not_overlaps

theorem Sound.isMain (h : s.Sound) {x : ScopeId} (hx : s.Owns x)
    (hparent : (s.scopeAt x).parent = none) (hchildren : (s.scopeAt x).children ≠ []) :
    ∃ main ∈ s.mains, (s.functionAt main).mainScope = x := by
  obtain ⟨hmain, hnone⟩ := h.rooted.outermost x hx hparent
  have hfunction : s.Owns (s.scopeAt x).function := (h.closed.scopes x hx).function
  have hcopy : (s.scopeAt x).function ∉ s.importedFunctions.values := fun hmem =>
    hchildren (h.rooted.copies x hx hmem)
  refine ⟨(s.scopeAt x).function, List.mem_filter.2 ⟨?_, ?_⟩, hmain⟩
  · exact List.mem_map.2 ⟨_, List.mem_range.2 hfunction, rfl⟩
  · simp [hnone, hcopy]

theorem Sound.nested_scopeTree (h : s.Sound) (hs : s.WellFormed)
    (hmains : ∀ main ∈ s.mains, (s.scopeTree (s.functionAt main).mainScope).Nested) (x : ScopeId)
    (hx : s.Owns x) : (s.scopeTree x).Nested := by
  -- Parents have smaller numbers.
  induction hn : x.index using Nat.strongRecOn generalizing x with
  | _ n ih =>
    cases hparent : (s.scopeAt x).parent with
    | some p =>
      have hp : s.Owns p := (h.closed.scopes x hx).parent p hparent
      have hlt := h.forest.parent_lt x hx p hparent
      have hnested := ih p.index (hn ▸ hlt) p hp rfl
      exact ((hs.of_nested hp hnested).1 x ((h.forest.mem_children p x hp hx).2 hparent)).1
    | none =>
      by_cases hchildren : (s.scopeAt x).children = []
      · rw [hs.scopeTree_eq hx, hchildren]
        exact .mk nofun .nil nofun
      · obtain ⟨main, hmain, rfl⟩ := h.isMain hx hparent hchildren
        exact hmains main hmain

theorem Sound.nests (h : s.Sound) (hs : s.WellFormed)
    (hmains : ∀ main ∈ s.mains, (s.scopeTree (s.functionAt main).mainScope).Nested) : s.Nests where
  inside x p hx hparent := by
    have hp : s.Owns p := (h.closed.scopes x hx).parent p hparent
    have hnested := h.nested_scopeTree hs hmains p hp
    exact ((hs.of_nested hp hnested).1 x ((h.forest.mem_children p x hp hx).2 hparent)).2
  mem_children := h.forest.mem_children
  apart p hp := (hs.of_nested hp (h.nested_scopeTree hs hmains p hp)).2

end Store

/-! ## Runs of a pass -/

namespace Project

open WalkM

variable {p p' : Project}

/-- After the run of any pass over any files all scopes nest, and those of the files that were read
are there. -/
theorem outcome_nests (hp : p.Reachable) (pass : Pass) (files : List FileId) :
    let s := (p.outcome pass files).store
    s.Nests ∧ ∀ f ∈ files, ∀ source chunk, p.files.get? f = some source →
    source.source.tree = .ok chunk →
      ∃ main, s.Owns main ∧ (s.functionAt main).file = f ∧
        s.scopeTree (s.functionAt main).mainScope = chunk.scopeTree f p.config.imports := by
  intro s
  have hrun := (idle_start (p.env pass (p.firstPassFor pass)) pass).advances_mapM files
  have hfirst : (p.env pass (p.firstPassFor pass)).firstPass.Sound := p.sound_firstPassFor pass
  obtain ⟨hpass, -⟩ := sound_mapM hfirst files (Walk.sound_start pass)
  have hsound : s.Sound := hpass.sound.store
  refine ⟨hsound.nests hrun.idle.wellFormed fun main hmain =>
    ?_, fun f hf source chunk hsource htree => ?_⟩
  · obtain hopened | ⟨f, r, hfit, hr⟩ := hrun.idle.mains main hmain
    · cases hopened
    · have hscopes := hfit.scopes_eq
      rw [hr, Option.map_some] at hscopes
      obtain ⟨chunk, hchunk, htree⟩ := Option.map_eq_some_iff.1 hscopes.symm
      obtain ⟨source, hsource, hok⟩ := WalkEnv.of_chunk? hchunk
      obtain ⟨text, htext⟩ := hp.parsed hsource
      rw [htext] at hok
      exact htree ▸ Chunk.nested_scopeTree (Source.wellRanged hok) f p.config.imports
  · obtain ⟨r, hfit⟩ := hrun.fits f hf ((p.files.mem_ids_iff f).2 ⟨source, hsource⟩)
    have hscopes := hfit.scopes_eq
    rw [WalkEnv.chunk?_of_ok hsource htree, Option.map_some] at hscopes
    obtain ⟨main, hmain, heq⟩ := Option.map_eq_some_iff.1 hscopes
    exact ⟨main, hfit.main_lt main hmain, hfit.main_file main hmain, heq⟩

/-- A loop inside a loop, and an assignment whose value is walked before its target. -/
def loops : Project :=
  ((ofConfig {}).addFile "a.lua"
    "while g do repeat local x = f until x end t[function() end] = function() end").1

theorem outcome_nests_loops :
    let s := (loops.outcome .scattered [⟨0⟩]).store
    loops.Reachable ∧ (s.scopeAt ⟨2⟩).parent = some ⟨1⟩ ∧
    (s.scopeAt ⟨0⟩).children = [⟨1⟩, ⟨3⟩, ⟨4⟩] ∧ s.Nests ∧
      ∃ chunk main, (loops.env .scattered {}).chunk? ⟨0⟩ = some chunk ∧
      (s.functionAt main).file = ⟨0⟩ ∧
        s.scopeTree (s.functionAt main).mainScope = chunk.scopeTree ⟨0⟩ loops.config.imports := by
  intro s
  have hreach : loops.Reachable := .addFile (.ofConfig {}) _ _
  obtain ⟨hnests, hscopes⟩ := outcome_nests hreach .scattered [⟨0⟩]
  have hsome : ((loops.env .scattered {}).chunk? ⟨0⟩).isSome = true := by decide +kernel
  have hshape : (s.scopeAt ⟨2⟩).parent = some ⟨1⟩ ∧ (s.scopeAt ⟨0⟩).children = [⟨1⟩, ⟨3⟩, ⟨4⟩] := by
    decide +kernel
  obtain ⟨chunk, hchunk⟩ := Option.isSome_iff_exists.1 hsome
  obtain ⟨source, hsource, htree⟩ := WalkEnv.of_chunk? hchunk
  obtain ⟨main, -, hmain⟩ := hscopes ⟨0⟩ (List.mem_singleton_self _) source chunk hsource htree
  exact ⟨hreach, hshape.1, hshape.2, hnests, chunk, main, hchunk, hmain⟩

end Project

end LuaAnalysis
