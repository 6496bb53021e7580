import LuaAnalysis.Proofs.Project.Occurrences
import LuaAnalysis.Proofs.Resolution.Places

/-!
# References of a declaration

The question for the references at a place first colors the file, to learn what the name there
stands for, and then searches the files for names that stand for the same. What a name stands for
does not depend on the walk that announces it, a place touches at most one name, and a declaration
stands for itself. So each of the places in the answer gives the same answer, and they are all the
names with that declaration (`findReferences_equivalence`). The `self` of a method is declared by no
name, and is the one exception.
-/

namespace LuaAnalysis

open List

/-- The place comes earlier, by file and then by start. -/
def DeclKey.Precedes (a b : DeclKey) : Prop :=
  a.file.index < b.file.index ∨ a.file = b.file ∧ a.range.start < b.range.start

variable {a b : DeclKey} {f : FileId}

theorem DeclKey.Precedes.trans {c : DeclKey} (h : a.Precedes b) (h' : b.Precedes c) :
    a.Precedes c := by
  rcases h with h | ⟨h, hlt⟩ <;> rcases h' with h' | ⟨h', hlt'⟩
  · exact .inl (Nat.lt_trans h h')
  · exact .inl (h' ▸ h)
  · exact .inl (h ▸ h')
  · exact .inr ⟨h.trans h', Position.lt_of_lt_of_le hlt (Position.le_of_lt hlt')⟩

theorem DeclKey.Precedes.ne (h : a.Precedes b) : a ≠ b := by
  rintro rfl
  rcases h with h | ⟨-, h⟩
  · exact Nat.lt_irrefl _ h
  · exact Position.lt_irrefl h

theorem Position.lt_or_eq_of_le {a b : Position} (h : a ≤ b) : a < b ∨ a = b := by
  by_cases hlt : a < b
  · exact .inl hlt
  · exact .inr (Position.le_antisymm h (Position.not_lt.1 hlt))

theorem TextRange.Clear.eq_of_start_eq {rs : List TextRange} (h : Clear rs) {a b : TextRange}
    (ha : a ∈ rs) (hb : b ∈ rs) (heq : a.start = b.start) : a = b :=
  h.touch a ha b hb a.start (h.start a ha) (heq ▸ h.start b hb)

/-- A place as an editor shows it: a path and a range. -/
def FileIndex.location (x : FileIndex) (d : DeclKey) : SymbolLocation :=
  ⟨x.path d.file, d.range⟩

namespace Project

/-! ## Lists without repeats -/

theorem mem_dropRepeats {α : Type} [DecidableEq α] {as : List α} {x : α} :
    x ∈ dropRepeats as ↔ x ∈ as := by
  induction as with
  | nil => rfl
  | cons a as ih =>
    rw [dropRepeats, mem_cons, ← ih]
    cases dropRepeats as with
    | nil => simp
    | cons b bs =>
      dsimp only
      by_cases hab : a = b
      · rw [if_pos hab, hab]
        simp
      · rw [if_neg hab, mem_cons]

/-- Sorted elements are strictly sorted once repeats are dropped, if only equal ones are on a
par. -/
theorem pairwise_dropRepeats {α : Type} [DecidableEq α] {le lt : α → α → Prop} {as : List α}
    (h : as.Pairwise le) (htrans : ∀ {a b c}, lt a b → lt b c → lt a c)
    (hstrict : ∀ a ∈ as, ∀ b ∈ as, le a b → a = b ∨ lt a b) :
    (dropRepeats as).Pairwise lt := by
  induction as with
  | nil => exact .nil
  | cons a as ih =>
    obtain ⟨hle, hrest⟩ := pairwise_cons.1 h
    have ih' := ih hrest fun x hx y hy => hstrict x (.tail _ hx) y (.tail _ hy)
    have hmem : ∀ x ∈ dropRepeats as, x ∈ as := fun x => mem_dropRepeats.1
    rw [dropRepeats]
    cases hdrop : dropRepeats as with
    | nil => exact pairwise_singleton _ _
    | cons b bs =>
      rw [hdrop] at ih' hmem
      dsimp only
      by_cases hab : a = b
      · rwa [if_pos hab]
      · rw [if_neg hab]
        have hb := hmem b (.head _)
        have hlt : lt a b := (hstrict a (.head _) b (.tail _ hb) (hle b hb)).resolve_left hab
        refine .cons (fun x hx => ?_) ih'
        rcases mem_cons.1 hx with rfl | hx
        · exact hlt
        · exact htrans hlt ((pairwise_cons.1 ih').1 x hx)

/-! ## Files of a project -/

variable {p p' : Project} {f f' : FileId} {r r' : TextRange} {d k : DeclKey}
  {isLocal isLocal' : Bool} {files : List FileId}

theorem Reachable.clear_mentions (h : p.Reachable) :
    TextRange.Clear ((p.files.mentions f).map Mention.range) :=
  FileIndex.clear_mentions fun _ => h.parsed

theorem Reachable.idOf?_path (h : p.Reachable) (hf : f ∈ p.files.ids) :
    p.files.idOf? (p.files.path f) = some f :=
  idOf?_path_of_orderly h.files_eq hf

/-! ## Names and their places -/

theorem isLater_coloring : IsLater .coloring :=
  ⟨nofun, nofun⟩

theorem isLater_referenceSearch : IsLater .referenceSearch :=
  ⟨nofun, nofun⟩

/-- The names of a file with what they stand for. -/
theorem mem_namesOf_iff :
    (∃ o ∈ p.namesOf p.computeFirstPass f, o.range = r ∧ o.declaration = some d ∧
      o.symbolClass.isLocal = isLocal) ↔
      p.Stands f r d isLocal := by
  have hsingle : p.Stands f r d isLocal ↔ f ∈ [f] ∧ p.Stands f r d isLocal :=
    (and_iff_right (mem_singleton.2 rfl)).symm
  rw [hsingle, ← mem_occurrences_iff isLater_coloring]
  obtain ⟨hfiles, -⟩ := announced_later isLater_coloring
  unfold namesOf inTextOrder
  simp only [mem_mergeSort]
  exact exists_congr fun o => and_congr_right fun ho =>
    (and_iff_right (mem_singleton.1 (hfiles o ho))).symm

theorem perm_ranges_namesOf (p : Project) :
    ((p.namesOf p.computeFirstPass f).map Occurrence.range).Perm
      ((p.files.mentions f).map Mention.range) := by
  obtain ⟨hfiles, hannounced⟩ := announced_later isLater_coloring
  obtain ⟨hreports, -⟩ := hannounced f
  have hall : (p.occurrences .coloring p.computeFirstPass [f]).filter (·.file = f) =
      p.occurrences .coloring p.computeFirstPass [f] :=
    filter_eq_self.2 fun o ho => by simpa using hfiles o ho
  rw [hall, count_singleton_self, replicate_one, flatten_singleton] at hreports
  have hranges : (p.occurrences .coloring p.computeFirstPass [f]).map Occurrence.range =
      (p.files.mentions f).map Mention.range := by
    generalize p.occurrences .coloring p.computeFirstPass [f] = os at hreports
    generalize p.files.mentions f = us at hreports
    induction hreports with
    | nil => rfl
    | cons hhead _ ih => rw [map_cons, map_cons, hhead.range, ih]
  rw [← hranges]
  exact (mergeSort_perm _ _).map _

theorem Reachable.clear_namesOf (h : p.Reachable) (f : FileId) :
    TextRange.Clear ((p.namesOf p.computeFirstPass f).map Occurrence.range) :=
  h.clear_mentions.subperm p.perm_ranges_namesOf.subperm

theorem Stands.mem_ranges (hs : p.Stands f r d isLocal) :
    r ∈ (p.files.mentions f).map Mention.range := by
  obtain ⟨o, ho, rfl, -⟩ := mem_namesOf_iff.2 hs
  exact p.perm_ranges_namesOf.mem_iff.1 (mem_map_of_mem ho)

theorem Stands.mem_ids (hs : p.Stands f r d isLocal) : f ∈ p.files.ids := by
  obtain ⟨u, hu, -⟩ := mem_map.1 hs.mem_ranges
  refine (p.files.mem_ids_iff f).2 (Option.ne_none_iff_exists'.1 fun hnone => ?_)
  rw [FileIndex.mentions_of_none hnone] at hu
  cases hu

theorem Reachable.stands_unique (h : p.Reachable) {d' : DeclKey} (hs : p.Stands f r d isLocal)
    (hs' : p.Stands f r d' isLocal') : d = d' ∧ isLocal = isLocal' := by
  obtain ⟨o, ho, hr, hd, rfl⟩ := mem_namesOf_iff.2 hs
  obtain ⟨o', ho', hr', hd', rfl⟩ := mem_namesOf_iff.2 hs'
  obtain rfl : o = o' := inj_on_of_nodup_map (h.clear_namesOf f).nodup ho ho' (hr.trans hr'.symm)
  exact ⟨Option.some.inj (hd.symm.trans hd'), rfl⟩

theorem Stands.declaration (hs : p.Stands f r d isLocal) (hself : d.range ∉ p.files.selves d.file) :
    p.Stands d.file d.range d isLocal ∧ (isLocal = true → d.file = f) := by
  cases isLocal with
  | true =>
    obtain ⟨u, hu, -, hbinding⟩ := hs
    obtain ⟨rfl, hdeclared⟩ := FileIndex.bound_mentions hu hbinding
    exact ⟨hdeclared.resolve_left hself, fun _ => rfl⟩
  | false => exact ⟨Abroad.resolved_declaration hs, nofun⟩

theorem Reachable.stands_alike (h : p.Reachable) (hs : p.Stands f r d isLocal)
    (hs' : p.Stands f' r' d isLocal') (hself : d.range ∉ p.files.selves d.file) :
    isLocal = isLocal' :=
  (h.stands_unique (hs.declaration hself).1 (hs'.declaration hself).1).2

/-! ## Answers -/

/-- The declaration of the name at a position. -/
def declarationAt? (p : Project) (f : FileId) (position : Position) : Option (DeclKey × Bool) :=
  ((p.namesOf p.computeFirstPass f).find? (·.range.contains position)).bind fun o =>
    o.declaration.map (·, o.symbolClass.isLocal)

/-- The declaration with all its uses, as the answer lists them. -/
def references (p : Project) (f : FileId) (d : DeclKey) (isLocal : Bool) : List DeclKey :=
  d :: p.usesOf p.computeFirstPass (if isLocal then [f] else p.files.ids) d

/-- The question is answered by `declarationAt?` and `references`. -/
theorem findReferences_eq {path : String} (hp : p.Fresh) (hid : p.files.idOf? path = some f)
    (position : Position) : p.findReferences path position = .ok (p.withFirstPass,
      (((p.declarationAt? f position).map fun x => p.references f x.1 x.2).getD []).map
        p.files.location) := by
  have hfile : p.fileId path = .ok f := by rw [fileId, hid]
  have hnames : p.withFirstPass.namesOf p.computeFirstPass f = p.namesOf p.computeFirstPass f := rfl
  unfold findReferences declarationAt?
  rw [hfile, hp.ensureFirstPass]
  dsimp only [bind, Except.bind]
  rw [hnames]
  generalize (p.namesOf p.computeFirstPass f).find? _ = found
  rcases found with - | ⟨name, file, range, role, declaration, symbolClass⟩
  · rfl
  · cases declaration <;> rfl

theorem stands_of_declarationAt? {position : Position}
    (hd : p.declarationAt? f position = some (d, isLocal)) :
    ∃ r, p.Stands f r d isLocal := by
  obtain ⟨o, ho, hdecl⟩ := Option.bind_eq_some_iff.1 hd
  obtain ⟨d', hd', heq⟩ := Option.map_eq_some_iff.1 hdecl
  cases heq
  exact ⟨o.range, mem_namesOf_iff.1 ⟨o, mem_of_find?_eq_some ho, rfl, hd', rfl⟩⟩

theorem Reachable.declarationAt?_eq (h : p.Reachable) (hs : p.Stands f r d isLocal) :
    p.declarationAt? f r.start = some (d, isLocal) := by
  have hclear := h.clear_namesOf f
  obtain ⟨o, ho, rfl, hd, rfl⟩ := mem_namesOf_iff.2 hs
  have hstart := hclear.start o.range (mem_map_of_mem ho)
  unfold declarationAt?
  cases hfind : (p.namesOf p.computeFirstPass f).find? (·.range.contains o.range.start) with
  | none => exact absurd hstart (find?_eq_none.1 hfind o ho)
  | some o' =>
    have ho' := mem_of_find?_eq_some hfind
    have hfound : o'.range.contains o.range.start = true := by simpa using find?_some hfind
    have htouch : o'.range = o.range :=
      hclear.touch _ (mem_map_of_mem ho') _ (mem_map_of_mem ho) _ hfound hstart
    obtain rfl := inj_on_of_nodup_map hclear.nodup ho' ho htouch
    rw [Option.bind_some, hd]
    rfl

/-! ## Uses -/

theorem mem_usesOf :
    k ∈ p.usesOf p.computeFirstPass files d ↔ k ≠ d ∧ k.file ∈ files ∧
    ∃ isLocal, p.Stands k.file k.range d isLocal := by
  have hfound : (∃ o ∈ p.occurrences .referenceSearch p.computeFirstPass files,
    o.declaration = some d ∧
      (⟨o.file, o.range⟩ : DeclKey) = k) ↔ k.file ∈ files ∧
      ∃ isLocal, p.Stands k.file k.range d isLocal := by
    constructor
    · rintro ⟨o, ho, hd, rfl⟩
      obtain ⟨hfile, hs⟩ :=
        (mem_occurrences_iff isLater_referenceSearch).1 ⟨o, ho, rfl, rfl, hd, rfl⟩
      exact ⟨hfile, _, hs⟩
    · rintro ⟨hfile, isLocal, hs⟩
      obtain ⟨o, ho, hf, hr, hd, -⟩ := (mem_occurrences_iff isLater_referenceSearch).2 ⟨hfile, hs⟩
      exact ⟨o, ho, hd, by rw [hf, hr]⟩
  unfold usesOf usesAmong
  rw [mem_dropRepeats, mem_mergeSort, mem_filter, decide_eq_true_iff, and_comm, ← hfound]
  simp [and_assoc]

theorem pairwise_mergeSort_places {ks : List DeclKey} : (ks.mergeSort fun a b =>
      a.file.index <
        b.file.index || (a.file.index == b.file.index && a.range.start ≤ b.range.start)).Pairwise
      fun a b => a.file.index < b.file.index ∨ a.file.index = b.file.index ∧
      a.range.start ≤ b.range.start := by
  refine (pairwise_mergeSort ?_ ?_ ks).imp fun hab => by simpa using hab
  · intro a b c hab hbc
    simp only [Bool.or_eq_true, Bool.and_eq_true, beq_iff_eq, decide_eq_true_eq] at hab hbc ⊢
    rcases hab with hab | ⟨hab, hle⟩ <;> rcases hbc with hbc | ⟨hbc, hle'⟩
    · exact .inl (Nat.lt_trans hab hbc)
    · exact .inl (hbc ▸ hab)
    · exact .inl (hab ▸ hbc)
    · exact .inr ⟨hab.trans hbc, Position.le_trans hle hle'⟩
  · intro a b
    simp only [Bool.or_eq_true, Bool.and_eq_true, beq_iff_eq, decide_eq_true_eq]
    rcases Nat.lt_trichotomy a.file.index b.file.index with hlt | heq | hgt
    · exact .inl (.inl hlt)
    · by_cases hle : a.range.start ≤ b.range.start
      · exact .inl (.inr ⟨heq, hle⟩)
      · have hge : b.range.start ≤ a.range.start :=
          Position.not_lt.1 fun hlt => hle (Position.le_of_lt hlt)
        exact .inr (.inr ⟨heq.symm, hge⟩)
    · exact .inr (.inl hgt)

theorem Reachable.pairwise_usesOf (h : p.Reachable) :
    (p.usesOf p.computeFirstPass files d).Pairwise DeclKey.Precedes := by
  have hmem : ∀ k ∈ p.usesOf p.computeFirstPass files d,
      k.range ∈ (p.files.mentions k.file).map Mention.range := by
    intro k hk
    obtain ⟨-, -, _, hs⟩ := mem_usesOf.1 hk
    exact hs.mem_ranges
  unfold usesOf usesAmong at hmem ⊢
  refine pairwise_dropRepeats pairwise_mergeSort_places .trans fun a ha b hb hle => ?_
  have hranges := hmem a (mem_dropRepeats.2 ha)
  have hranges' := hmem b (mem_dropRepeats.2 hb)
  rcases hle with hlt | ⟨hindex, hle⟩
  · exact .inr (.inl hlt)
  · obtain ⟨⟨i⟩, range⟩ := a
    obtain ⟨⟨j⟩, range'⟩ := b
    obtain rfl : i = j := hindex
    rcases Position.lt_or_eq_of_le hle with hlt | heq
    · exact .inr (.inr ⟨rfl, hlt⟩)
    · obtain rfl : range = range' := h.clear_mentions.eq_of_start_eq hranges hranges' heq
      exact .inl rfl

/-! ## The same answer everywhere -/

theorem Reachable.mem_references (h : p.Reachable) (hs : p.Stands f r d isLocal)
    (hself : d.range ∉ p.files.selves d.file) :
    k ∈ p.references f d isLocal ↔ p.Stands k.file k.range d isLocal := by
  obtain ⟨hdecl, hfile⟩ := hs.declaration hself
  unfold references
  rw [mem_cons, mem_usesOf]
  constructor
  · rintro (rfl | ⟨-, -, isLocal', hk⟩)
    · exact hdecl
    · rwa [h.stands_alike hs hk hself]
  · intro hk
    by_cases hkd : k = d
    · exact .inl hkd
    · refine .inr ⟨hkd, ?_, isLocal, hk⟩
      cases isLocal with
      | true => exact mem_singleton.2 (((hk.declaration hself).2 rfl).symm.trans (hfile rfl))
      | false => exact hk.mem_ids

theorem references_eq (hs : p.Stands f r d isLocal) (hself : d.range ∉ p.files.selves d.file)
    (hs' : p.Stands f' r' d isLocal) : p.references f' d isLocal = p.references f d isLocal := by
  cases isLocal with
  | true => rw [← (hs.declaration hself).2 rfl, ← (hs'.declaration hself).2 rfl]
  | false => rfl

theorem Stands.mem_ids_declaration (hs : p.Stands f r d isLocal) : d.file ∈ p.files.ids := by
  cases isLocal with
  | true =>
    have hf := hs.mem_ids
    obtain ⟨u, hu, -, hbinding⟩ := hs
    obtain ⟨rfl, -⟩ := FileIndex.bound_mentions hu hbinding
    exact hf
  | false =>
    have hdecl : p.Stands d.file d.range d false := Abroad.resolved_declaration hs
    exact hdecl.mem_ids

theorem Reachable.location_inj (h : p.Reachable) (ha : a.file ∈ p.files.ids)
    (hb : b.file ∈ p.files.ids) (heq : p.files.location a = p.files.location b) : a = b := by
  obtain ⟨hpath, hrange⟩ := SymbolLocation.mk.inj heq
  have hid := h.idOf?_path ha
  rw [hpath, h.idOf?_path hb] at hid
  cases a
  cases b
  cases hid
  cases hrange
  rfl

theorem Reachable.nodup_places (h : p.Reachable) (hs : p.Stands f r d isLocal) :
    ((p.references f d isLocal).map p.files.location).Nodup := by
  have hmem : ∀ k ∈ p.references f d isLocal, k.file ∈ p.files.ids := by
    refine forall_mem_cons.2 ⟨hs.mem_ids_declaration, fun k hk => ?_⟩
    obtain ⟨-, -, _, hk⟩ := mem_usesOf.1 hk
    exact hk.mem_ids
  refine List.Nodup.map_on (fun a ha b hb => h.location_inj (hmem a ha) (hmem b hb)) ?_
  exact nodup_cons.2 ⟨fun hd => (mem_usesOf.1 hd).1 rfl, h.pairwise_usesOf.imp DeclKey.Precedes.ne⟩

/-- The answer for a position in a file is empty, or it lists a declaration and then its uses in the
order of their places, none of them twice and none at the declaration. Unless the declaration is the
`self` of a method, the answer holds every name that has this declaration, and the position where
any of them starts gets the same answer. -/
theorem findReferences_equivalence (hp : p.Reachable) {path : String}
    (hid : p.files.idOf? path = some f) (position : Position) :
    ∃ p' places, p.findReferences path position = .ok (p', places) ∧
      (places = [] ∨ ∃ d uses, places = (d :: uses).map p.files.location ∧
        uses.Pairwise DeclKey.Precedes ∧ d ∉ uses ∧
        places.Nodup ∧
        (d.range ∉ p.files.selves d.file →
          (∀ k, k ∈ d :: uses ↔
            ∃ o ∈ p.namesOf p.computeFirstPass k.file, o.range = k.range ∧ o.declaration = some d) ∧
          ∀ place ∈ places, ∃ p'', p'.findReferences place.path place.range.start =
            .ok (p'', places))) := by
  refine ⟨_, _, findReferences_eq hp.fresh hid position, ?_⟩
  cases hdecl : p.declarationAt? f position with
  | none => exact .inl rfl
  | some x =>
    obtain ⟨d, isLocal⟩ := x
    obtain ⟨r, hs⟩ := stands_of_declarationAt? hdecl
    refine .inr ⟨d, _, rfl, hp.pairwise_usesOf,
      fun hd => (mem_usesOf.1 hd).1 rfl, hp.nodup_places hs, fun hself => ?_⟩
    have hmem := fun k => hp.mem_references hs hself (k := k)
    refine ⟨fun k => (hmem k).trans ⟨fun hk => ?_, ?_⟩, fun place hplace => ?_⟩
    · obtain ⟨o, ho, hr, hd, -⟩ := mem_namesOf_iff.2 hk
      exact ⟨o, ho, hr, hd⟩
    · rintro ⟨o, ho, hr, hd⟩
      have hk : p.Stands k.file k.range d o.symbolClass.isLocal :=
        mem_namesOf_iff.1 ⟨o, ho, hr, hd, rfl⟩
      rwa [hp.stands_alike hs hk hself]
    · obtain ⟨k, hk, rfl⟩ := mem_map.1 hplace
      have hk' := (hmem k).1 hk
      have hsame := findReferences_eq p.fresh_withFirstPass
        (hp.idOf?_path hk'.mem_ids) k.range.start
      have hat : p.withFirstPass.declarationAt? k.file k.range.start = some (d, isLocal) :=
        hp.declarationAt?_eq hk'
      rw [hat] at hsame
      have hplaces : p.withFirstPass.references k.file d isLocal = p.references f d isLocal :=
        references_eq hs hself hk'
      refine ⟨p.withFirstPass.withFirstPass, hsame.trans ?_⟩
      exact congrArg (fun ks => Except.ok (_, ks.map p.files.location)) hplaces

theorem selves_pair : pair.files.selves f = [] := by
  have hids : ∀ f ∈ pair.files.ids, pair.files.selves f = [] := by decide +kernel
  by_cases hf : f ∈ pair.files.ids
  · exact hids f hf
  · have hnone : pair.files.get? f = none :=
      Option.eq_none_iff_forall_ne_some.2 fun source hsource =>
      hf ((pair.files.mem_ids_iff f).2 ⟨source, hsource⟩)
    rw [FileIndex.selves, hnone]
    rfl

theorem findReferences_equivalence_pair :
    pair.Reachable ∧ pair.files.idOf? "b.lua" = some ⟨1⟩ ∧
      ∃ p' places, pair.findReferences "b.lua" ⟨0, 19⟩ = .ok (p', places) ∧
        places.head? = some ⟨"a.lua", .ofCoords 0 13 0 14⟩ ∧
        ⟨"b.lua", .ofCoords 0 19 0 20⟩ ∈ places ∧
        ∀ place ∈ places, ∃ p'', p'.findReferences place.path place.range.start =
          .ok (p'', places) := by
  have hid : pair.files.idOf? "b.lua" = some ⟨1⟩ := by decide +kernel
  have hs : pair.Stands ⟨1⟩ (.ofCoords 0 19 0 20) ⟨⟨0⟩, .ofCoords 0 13 0 14⟩ false := by
    unfold Stands
    decide +kernel
  have hself : (⟨⟨0⟩, .ofCoords 0 13 0 14⟩ : DeclKey).range ∉ pair.files.selves ⟨0⟩ := by
    decide +kernel
  have hanswer := findReferences_eq reachable_pair.fresh hid ⟨0, 19⟩
  have hat : pair.declarationAt? ⟨1⟩ ⟨0, 19⟩ = some (⟨⟨0⟩, .ofCoords 0 13 0 14⟩, false) :=
    reachable_pair.declarationAt?_eq hs
  rw [hat] at hanswer
  obtain ⟨p', places, hanswer', hplaces⟩ := findReferences_equivalence reachable_pair hid ⟨0, 19⟩
  obtain ⟨rfl, rfl⟩ := Prod.mk.inj (Except.ok.inj (hanswer'.symm.trans hanswer))
  have hpath : pair.files.path ⟨0⟩ = "a.lua" ∧ pair.files.path ⟨1⟩ = "b.lua" := by decide +kernel
  refine ⟨reachable_pair, hid, _, _, hanswer', ?_, ?_, ?_⟩
  · exact congrArg (fun path => some (SymbolLocation.mk path (.ofCoords 0 13 0 14))) hpath.1
  · refine mem_map.2 ⟨⟨⟨1⟩, _⟩, (reachable_pair.mem_references hs hself).2 hs, ?_⟩
    exact congrArg (SymbolLocation.mk · _) hpath.2
  · obtain hnil | ⟨d, uses, heq, -, -, -, hsame⟩ := hplaces
    · cases hnil
    · refine (hsame ?_).2
      rw [selves_pair]
      exact not_mem_nil

end Project

end LuaAnalysis
