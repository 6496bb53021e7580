import LuaAnalysis.Proofs.Project.Resolution

/-!
# What the names of a project stand for

The passes that color a file and that search for references walk files one by one, in one store, and
know what the first pass found. `Stands` says, without a walk, which declaration a name at a place
has, and whether it is a local. Both passes announce exactly this, whatever else they walk
(`mem_occurrences_iff`).
-/

namespace LuaAnalysis

open List WalkM

theorem Occurrence.free?_eq_some {o : Occurrence} {r : TextRange} {d : DeclKey} :
    o.free? = some (r, d) ↔ o.symbolClass.isLocal = false ∧ o.range = r ∧
    o.declaration = some d := by
  unfold Occurrence.free?
  cases o.symbolClass.isLocal <;> cases o.declaration <;> simp

variable {files : List FileId}

namespace Project

variable {p : Project} {f : FileId}

/-! ## What files define -/

def events (p : Project) (f : FileId) : List Event :=
  p.files.events p.config.imports f

/-- What the files define. -/
def abroad (p : Project) : Abroad :=
  .ofEvents p.files.ids p.events

def resolved (p : Project) (f : FileId) : List (TextRange × DeclKey) :=
  Ledger.resolved p.abroad f {} (p.events f)

theorem findSome?_analyses (p : Project) (table : FileResult → OrderedMap String VariableId)
    {entries : Ledger → String → Option DeclKey}
    (htable : ∀ g a, p.analyse? g = some a →
      a.store.keysOf (table a.result) = entries (Ledger.alone g (p.events g)))
    (name : String) :
    ((p.computeFirstPass.analyses.findSome? fun a => ((table a.result).get? name).map (a, ·)).map
      fun found =>
      (found.1.store.variableAt found.2).key) =
      p.files.ids.findSome? fun g => entries (Ledger.alone g (p.events g)) name := by
  have hall : ∀ g ∈ p.files.ids, ∃ a, p.analyse? g = some a := fun g hg => p.exists_analyse? hg
  rw [computeFirstPass]
  generalize p.files.ids = ids at hall
  induction ids with
  | nil => rfl
  | cons g ids ih =>
    obtain ⟨⟨a, ha⟩, hrest⟩ := forall_mem_cons.1 hall
    rw [filterMap_cons_some ha, findSome?_cons, findSome?_cons, ← htable g a ha, Store.keysOf]
    cases (table a.result).get? name with
    | none => exact ih hrest
    | some id => rfl

theorem abroad_computeFirstPass (p : Project) : p.computeFirstPass.abroad = p.abroad := by
  have hglobal := p.findSome?_analyses (·.globals) fun g a ha =>
    congrArg Ledger.globals (tallied_of_analyse? ha).2
  have hroot := p.findSome?_analyses (·.rootGlobals) fun g a ha =>
    congrArg Ledger.roots (tallied_of_analyse? ha).2
  exact congrArg₂ Abroad.mk (funext hglobal) (funext hroot)

/-- A pass that is told what the first pass found, and walks files one by one. -/
def IsLater (pass : Pass) : Prop :=
  pass ≠ .project ∧ pass ≠ .fileLocal

variable {pass : Pass}

/-! ## What names stand for -/

/-- The name at a place of a file stands for a declaration: for a local that the text binds it to,
or for a global. -/
def Stands (p : Project) (f : FileId) (r : TextRange) (d : DeclKey) : Bool → Prop
  | true => ∃ u ∈ p.files.mentions f, u.range = r ∧ u.binding = some d
  | false => (r, d) ∈ p.resolved f

theorem announced_later (hpass : IsLater pass) :
    (∀ o ∈ p.occurrences pass p.computeFirstPass files, o.file ∈ files) ∧
    ∀ f, List.Forall₂ (p.files.Reports f)
      (List.replicate (files.count f) (p.files.mentions f)).flatten
        ((p.occurrences pass p.computeFirstPass files).filter (·.file = f)) ∧
      ((p.occurrences pass p.computeFirstPass files).filter
        (·.file = f)).filterMap Occurrence.free? =
        (List.replicate (files.count f) (p.resolved f)).flatten := by
  have hfirst : p.firstPassFor pass = p.computeFirstPass := by
    cases pass with
    | fileLocal => exact absurd rfl hpass.2
    | _ => rfl
  have hgrounded := p.grounded_firstPassFor pass
  rw [hfirst] at hgrounded
  have hidle := idle_start (p.env pass p.computeFirstPass) pass
  have hresolved : ∀ f, resolvedIn (p.env pass p.computeFirstPass) f = p.resolved f := fun f => by
    rw [resolvedIn, WalkEnv.abroad]
    exact congrArg (Ledger.resolved · f {} (p.events f)) p.abroad_computeFirstPass
  obtain ⟨os, hos, hfiles, hnames⟩ := hidle.announced_forM_walkAlone hpass.1 hgrounded files
  have hall : p.occurrences pass p.computeFirstPass files = os := hos
  rw [hall]
  refine ⟨hfiles, fun f => ⟨(hnames f).1, ?_⟩⟩
  rw [(hnames f).2 ⟨hpass.1, fun h => absurd h hpass.2⟩, hresolved]

theorem exists_of_forall₂ {α β : Type} {R : α → β → Prop} {as : List α} {bs : List β}
    (h : List.Forall₂ R as bs) {a : α} (ha : a ∈ as) : ∃ b ∈ bs, R a b := by
  induction h with
  | nil => cases ha
  | cons hhead _ ih =>
    rcases mem_cons.1 ha with rfl | ha
    · exact ⟨_, .head _, hhead⟩
    · obtain ⟨b, hb, hrel⟩ := ih ha
      exact ⟨b, .tail _ hb, hrel⟩

theorem mem_flatten_replicate_count {α : Type} {x : α} {xs : List α} :
    x ∈ (List.replicate (files.count f) xs).flatten ↔ f ∈ files ∧ x ∈ xs := by
  rw [mem_flatten, ← count_pos_iff, Nat.pos_iff_ne_zero]
  simp only [mem_replicate]
  exact ⟨fun ⟨_, ⟨hne, rfl⟩, hx⟩ => ⟨hne, hx⟩, fun ⟨hne, hx⟩ => ⟨_, ⟨hne, rfl⟩, hx⟩⟩

theorem mem_occurrences_iff (hpass : IsLater pass) {r : TextRange} {d : DeclKey} {isLocal : Bool} :
    (∃ o ∈ p.occurrences pass p.computeFirstPass files,
      o.file = f ∧ o.range = r ∧ o.declaration = some d ∧ o.symbolClass.isLocal = isLocal) ↔
      f ∈ files ∧ p.Stands f r d isLocal := by
  obtain ⟨hfiles, hannounced⟩ := announced_later hpass
  obtain ⟨hnames, hfree⟩ := hannounced f
  generalize p.occurrences pass p.computeFirstPass files = os at hfiles hnames hfree
  have hmem : ∀ o, o ∈ os.filter (·.file = f) ↔ o ∈ os ∧ o.file = f := fun o => by simp
  constructor
  · rintro ⟨o, ho, rfl, rfl, hd, rfl⟩
    refine ⟨hfiles o ho, ?_⟩
    cases hlocal : o.symbolClass.isLocal with
    | true =>
      obtain ⟨u, hu, hreports⟩ := exists_of_forall₂ hnames.flip ((hmem o).2 ⟨ho, rfl⟩)
      refine ⟨u, (mem_flatten_replicate_count.1 hu).2, hreports.range.symm, ?_⟩
      cases hbinding : u.binding with
      | none => exact absurd hlocal (Bool.eq_false_iff.1 (hreports.free hbinding).1)
      | some d' => rw [← hd, (hreports.bound d' hbinding).2.1]
    | false =>
      have hfound : (o.range, d) ∈ (os.filter (·.file = o.file)).filterMap Occurrence.free? :=
        mem_filterMap.2 ⟨o, (hmem o).2 ⟨ho, rfl⟩, Occurrence.free?_eq_some.2 ⟨hlocal, rfl, hd⟩⟩
      rw [hfree, mem_flatten_replicate_count] at hfound
      exact hfound.2
  · rintro ⟨hf, hstands⟩
    cases isLocal with
    | true =>
      obtain ⟨u, hu, rfl, hbinding⟩ := hstands
      obtain ⟨o, ho, hreports⟩ := exists_of_forall₂ hnames (mem_flatten_replicate_count.2 ⟨hf, hu⟩)
      obtain ⟨-, hd, hlocal⟩ := hreports.bound d hbinding
      exact ⟨o, ((hmem o).1 ho).1, hreports.file, hreports.range, hd, hlocal⟩
    | false =>
      have hfound : (r, d) ∈ (os.filter (·.file = f)).filterMap Occurrence.free? := by
        rw [hfree, mem_flatten_replicate_count]
        exact ⟨hf, hstands⟩
      obtain ⟨o, ho, heq⟩ := mem_filterMap.1 hfound
      obtain ⟨hlocal, hr, hd⟩ := Occurrence.free?_eq_some.1 heq
      exact ⟨o, ((hmem o).1 ho).1, ((hmem o).1 ho).2, hr, hd, hlocal⟩

end Project

end LuaAnalysis
