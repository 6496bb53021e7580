import LuaAnalysis.Proofs.Resolution.Mentions
import Mathlib.Data.List.Perm.Subperm

/-!
# Where names stand and are bound

A name that is bound to a local is bound to a declaration of the same file: to a name that the text
declares, or to the `self` of a method, which is written nowhere and stands at the parenthesis that
opens the parameters (`selves`). This follows from the rules of scoping alone
(`Chunk.bound_mentions`): what is visible anywhere was declared on the way. The names that a tree
mentions stand on different sites. Both are shown in one induction over trees (`Tied`).
-/

namespace LuaAnalysis

open List

/-- The first `self` of a method: it is declared, but not written. -/
def hiddenParams (isMethod : Bool) : List Name → List Name
  | [] => []
  | first :: _ => if isMethod && first.text == "self" then [first] else []

variable {n : Name} {ds : List Declaration} {d : DeclKey} {u : Mention}

theorem mem_hiddenParams_or_writtenParams {isMethod : Bool} {params : List Name} (h : n ∈ params) :
    n ∈ hiddenParams isMethod params ∨ n ∈ writtenParams isMethod params := by
  cases params with
  | nil => cases h
  | cons first rest =>
    rw [hiddenParams, writtenParams]
    by_cases hself : (isMethod && first.text == "self") = true
    · rw [if_pos hself, if_pos hself]
      rcases mem_cons.1 h with rfl | h
      · exact .inl (.head _)
      · exact .inr h
    · rw [if_neg hself, if_neg hself]
      exact .inr h

/-! ## The `self` of methods -/

mutual

/-- The places of the parameters `self` that are not written. -/
def Exp.selves : Exp → List TextRange
  | .function _ body => body.selves false
  | .table _ fields => Field.selves fields
  | .index _ obj key _ => obj.selves ++ key.selves
  | .call _ func args => func.selves ++ Exp.listSelves args
  | .methodCall _ obj _ args => obj.selves ++ Exp.listSelves args
  | .binary _ _ lhs rhs => lhs.selves ++ rhs.selves
  | .unary _ _ operand => operand.selves
  | .paren _ inner => inner.selves
  | .name _ _ | .nil _ | .bool _ _ | .vararg _ | .number _ _ | .string _ _ => []

def Exp.listSelves : List Exp → List TextRange
  | [] => []
  | e :: es => e.selves ++ Exp.listSelves es

def Field.selves : List Field → List TextRange
  | [] => []
  | .named _ value :: rest => value.selves ++ Field.selves rest
  | .keyed key value :: rest => key.selves ++ (value.selves ++ Field.selves rest)
  | .positional value :: rest => value.selves ++ Field.selves rest

def FunctionBody.selves (isMethod : Bool) : FunctionBody → List TextRange
  | ⟨_, params, _, block⟩ => (hiddenParams isMethod params).map Name.range ++ block.selves

def Block.selves : Block → List TextRange
  | ⟨_, stats, ret⟩ => Stat.listSelves stats ++ ReturnStat.selves? ret

def ReturnStat.selves? : Option ReturnStat → List TextRange
  | none => []
  | some ret => ret.selves

def ReturnStat.selves : ReturnStat → List TextRange
  | ⟨_, values⟩ => Exp.listSelves values

def Stat.listSelves : List Stat → List TextRange
  | [] => []
  | s :: ss => s.selves ++ Stat.listSelves ss

def Stat.selves : Stat → List TextRange
  | .locals _ _ values => Exp.listSelves values
  | .localFunction _ _ body => body.selves false
  | .function _ name body => body.selves name.method.isSome
  | .assign _ targets values => Exp.listSelves values ++ Exp.listSelves targets
  | .call _ e => e.selves
  | .doBlock _ block => block.selves
  | .whileLoop _ cond block => cond.selves ++ block.selves
  | .repeatLoop _ block cond => block.selves ++ cond.selves
  | .ifChain _ clauses orElse => Clause.selves clauses ++ Block.elseSelves orElse
  | .numericFor _ _ first limit step block =>
    first.selves ++ (limit.selves ++ (Exp.selves? step ++ block.selves))
  | .genericFor _ _ values block => Exp.listSelves values ++ block.selves
  | .empty _ | .breakLoop _ | .goto _ _ | .label _ _ => []

def Exp.selves? : Option Exp → List TextRange
  | none => []
  | some e => e.selves

def Clause.selves : List Clause → List TextRange
  | [] => []
  | ⟨cond, block⟩ :: rest => cond.selves ++ (block.selves ++ Clause.selves rest)

def Block.elseSelves : Option Block → List TextRange
  | none => []
  | some block => block.selves

end

/-! ## Declarations on the way -/

/-- Every name that is visible, mentioned as a declaration or hidden is declared at a place with
`D`. -/
structure Anchored (D : DeclKey → Prop) (v : Visible) (us : List Mention)
    (hidden : List TextRange) : Prop where
  visible : ∀ l ∈ v.locals, D l.2
  declared : ∀ n : Name, v.declaring n ∈ us → D ⟨v.file, n.range⟩
  hidden : ∀ r ∈ hidden, D ⟨v.file, r⟩

/-- Every mention that is bound is bound to a place with `D`. -/
def Bound (D : DeclKey → Prop) (us : List Mention) : Prop :=
  ∀ u ∈ us, ∀ d, u.binding = some d → D d

section

variable {D : DeclKey → Prop} {v : Visible} {us us' : List Mention} {rs rs' : List TextRange}

namespace Anchored

theorem left (h : Anchored D v (us ++ us') (rs ++ rs')) : Anchored D v us rs :=
  ⟨h.visible, fun n hn => h.declared n (mem_append_left _ hn), fun r hr =>
    h.hidden r (mem_append_left _ hr)⟩

theorem right (h : Anchored D v (us ++ us') (rs ++ rs')) : Anchored D v us' rs' :=
  ⟨h.visible, fun n hn => h.declared n (mem_append_right _ hn), fun r hr =>
    h.hidden r (mem_append_right _ hr)⟩

theorem left_of_nil (h : Anchored D v (us ++ us') rs) : Anchored D v us rs :=
  ⟨h.visible, fun n hn => h.declared n (mem_append_left _ hn), h.hidden⟩

theorem right_of_nil (h : Anchored D v (us ++ us') rs) : Anchored D v us' rs :=
  ⟨h.visible, fun n hn => h.declared n (mem_append_right _ hn), h.hidden⟩

theorem declare (h : Anchored D v us rs) (hds : ∀ l ∈ ds, D l.2) :
    Anchored D (v.declare ds) us rs := by
  refine ⟨fun l hl => ?_, h.declared, h.hidden⟩
  rcases mem_append.1 hl with hl | hl
  · exact hds l (mem_reverse.1 hl)
  · exact h.visible l hl

theorem lookup (h : Anchored D v us rs) {name : String}
    (hd : v.locals.lookup name = some d) : D d := by
  obtain ⟨l₁, l₂, heq, -⟩ := lookup_eq_some_iff.1 hd
  exact h.visible (name, d) (heq ▸ mem_append_right _ (.head _))

theorem bound_read (h : Anchored D v us rs) : Bound D [v.read n] :=
  forall_mem_singleton.2 fun _ hd => h.lookup hd

theorem bound_write (h : Anchored D v us rs) : Bound D [v.write n] :=
  forall_mem_singleton.2 fun _ hd => h.lookup hd

theorem tail (h : Anchored D v (u :: us) rs) : Anchored D v us rs :=
  ⟨h.visible, fun n hn => h.declared n (.tail _ hn), h.hidden⟩

theorem bound_declaring {α : Type} {f : α → Name} {as : List α}
    (h : Anchored D v (as.map fun a => v.declaring (f a)) rs) :
    Bound D (as.map fun a => v.declaring (f a)) := by
  intro u hu d hd
  obtain ⟨a, ha, rfl⟩ := mem_map.1 hu
  cases hd
  exact h.declared (f a) (mem_map_of_mem ha)

end Anchored

theorem Bound.append (h : Bound D us) (h' : Bound D us') : Bound D (us ++ us') := by
  intro u hu
  rcases mem_append.1 hu with hu | hu
  · exact h u hu
  · exact h' u hu

theorem Bound.cons (h : Bound D [u]) (h' : Bound D us) : Bound D (u :: us) :=
  h.append h'

theorem Anchored.bound_declaring_cons (h : Anchored D v (v.declaring n :: us) rs)
    (hus : (∀ l ∈ [n.declaration v.file], D l.2) → Bound D us) : Bound D (v.declaring n :: us) := by
  have hname := h.declared n (.head _)
  refine Bound.cons ?_ (hus (forall_mem_singleton.2 hname))
  rintro _ (_ | ⟨_, ⟨⟩⟩) _ ⟨⟩
  exact hname

theorem bound_nil : Bound D [] :=
  nofun

theorem bound_global : Bound D [n.global] :=
  forall_mem_singleton.2 nofun

theorem Stat.declares_of_anchored (s : Stat) (h : Anchored D v (s.mentions v) rs) :
    ∀ l ∈ s.declares v.file, D l.2 := by
  cases s with
  | locals range names values =>
    rw [Stat.mentions] at h
    intro l hl
    obtain ⟨n, hn, rfl⟩ := mem_map.1 hl
    exact h.declared n.name (mem_append_right _ (mem_map_of_mem hn))
  | localFunction range name body =>
    rw [Stat.mentions] at h
    intro l hl
    obtain rfl := mem_singleton.1 hl
    exact h.declared name (.head _)
  | _ => nofun

theorem Stat.listDeclares_of_anchored {ss : List Stat}
    (h : Anchored D v (Stat.listMentions v ss) rs) :
    ∀ l ∈ ss.flatMap (Stat.declares v.file), D l.2 := by
  induction ss generalizing v with
  | nil => nofun
  | cons s ss ih =>
    rw [Stat.listMentions] at h
    have hfirst := s.declares_of_anchored h.left_of_nil
    have hrest := ih (h.right_of_nil.declare hfirst)
    rw [flatMap_cons]
    exact forall_mem_append.2 ⟨hfirst, hrest⟩

theorem Block.declares_of_anchored (b : Block) (h : Anchored D v (b.mentions v) rs) :
    ∀ l ∈ b.declares v.file, D l.2 := by
  obtain ⟨range, stats, ret⟩ := b
  exact Stat.listDeclares_of_anchored h.left_of_nil

theorem FunctionName.bound_mentions (n : FunctionName) (h : Anchored D v us rs) :
    Bound D (n.mentions v) := by
  unfold FunctionName.mentions
  split
  · exact h.bound_write
  · refine h.bound_read.cons ?_
    by_cases hroot : n.first.text = "_G"
    · rw [if_pos hroot]
      exact bound_global
    · rw [if_neg hroot]
      exact bound_nil
  · exact h.bound_read

end

/-! ## Mentions and sites -/

/-- Each mention has the range of a site, and no two use the same one. -/
def Within (us : List Mention) (sites : List Site) : Prop :=
  (us.map Mention.range).Subperm (sites.filterMap Site.place?)

namespace Within

variable {us vs : List Mention} {sites sites' : List Site}

theorem nil (sites : List Site) : Within [] sites :=
  nil_subperm

theorem append (h : Within us sites) (h' : Within vs sites') :
    Within (us ++ vs) (sites ++ sites') := by
  unfold Within
  rw [map_append, filterMap_append]
  exact List.Subperm.append h h'

theorem append_swap (h : Within us sites) (h' : Within vs sites') :
    Within (vs ++ us) (sites ++ sites') := by
  have hswap := h.append h'
  unfold Within at hswap ⊢
  rw [map_append] at hswap ⊢
  exact perm_append_comm.subperm.trans hswap

theorem append_right (h : Within us sites) : Within us (sites ++ sites') := by
  have hright := h.append (nil sites')
  rwa [append_nil] at hright

theorem single (h : u.range = n.range) : Within [u] [n.site] := by
  unfold Within
  rw [map_singleton, h]
  exact List.Subperm.refl _

theorem cons (h : u.range = n.range) (h' : Within us sites) : Within (u :: us) (n.site :: sites) :=
  (single h).append h'

theorem map {α : Type} {f : α → Mention} {g : α → Name} (h : ∀ a, (f a).range = (g a).range)
    (as : List α) : Within (as.map f) (as.map fun a => (g a).site) := by
  induction as with
  | nil => exact nil _
  | cons a as ih => exact cons (h a) ih

end Within

theorem FunctionName.within_mentions (n : FunctionName) {v : Visible} :
    Within (n.mentions v) (n.segments.map Name.site) := by
  have hsegments : n.segments = n.first :: (n.more ++ n.method.toList) := rfl
  unfold FunctionName.mentions
  rw [hsegments, map_cons]
  split
  · exact (Within.single rfl).append_right
  · rename_i key hmore
    rw [hmore]
    refine Within.cons rfl ?_
    by_cases hroot : n.first.text = "_G"
    · rw [if_pos hroot]
      exact Within.single rfl
    · rw [if_neg hroot]
      exact Within.nil _
  · exact (Within.single rfl).append_right

theorem Exp.within_key (obj key : Exp) (dotted : Bool) (v : Visible)
    (h : Within (key.mentions v) key.sites) :
    Within (key.mentions v ++ (Exp.rootKey? obj key).toList.map Name.global)
      (match key.asString? with
        | some _ => [if dotted then .name key.range else .key key.range]
        | none => key.sites) := by
  cases hstring : key.asString? with
  | none =>
    have hroot : Exp.rootKey? obj key = none := by
      unfold Exp.rootKey?
      split
      · cases hstring
      · rfl
    rwa [hroot, Option.toList_none, map_nil, append_nil]
  | some text =>
    rw [Exp.mentions_of_asString hstring, nil_append]
    have hkey : ∀ n ∈ Exp.rootKey? obj key, n.range = key.range := by
      rw [Exp.eq_string hstring]
      intro n hn
      unfold Exp.rootKey? at hn
      split at hn
      · rename_i heq
        cases heq
        rw [Option.mem_def, Option.ite_none_right_eq_some] at hn
        cases hn.2
        rfl
      · cases hn
    cases hroot : Exp.rootKey? obj key with
    | none => exact Within.nil _
    | some n =>
      unfold Within
      simp only [Option.toList_some, map_cons, map_nil, Name.global, hkey n hroot]
      cases dotted <;> exact List.Subperm.refl _

/-! ## Trees -/

/-- The mentions stand on different sites, and what they are bound to has the property if they are
anchored. -/
structure Tied (D : DeclKey → Prop) (v : Visible) (us : List Mention) (hidden : List TextRange)
    (sites : List Site) : Prop where
  within : Within us sites
  bound : Anchored D v us hidden → Bound D us

section

variable {D : DeclKey → Prop} {v : Visible} {us us' : List Mention} {rs rs' : List TextRange}
  {sites sites' : List Site}

namespace Tied

theorem nil : Tied D v [] rs sites :=
  ⟨.nil _, fun _ => bound_nil⟩

theorem append (h : Tied D v us rs sites) (h' : Tied D v us' rs' sites') :
    Tied D v (us ++ us') (rs ++ rs') (sites ++ sites') :=
  ⟨h.within.append h'.within, fun ha => (h.bound ha.left).append (h'.bound ha.right)⟩

/-- What comes later sees what has been declared. -/
theorem append_declare (h : Tied D v us rs sites) (h' : Tied D (v.declare ds) us' rs' sites')
    (hds : Anchored D v us rs → ∀ l ∈ ds, D l.2) :
    Tied D v (us ++ us') (rs ++ rs') (sites ++ sites') :=
  ⟨h.within.append h'.within,
    fun ha => (h.bound ha.left).append (h'.bound (ha.right.declare (hds ha.left)))⟩

theorem key {e : Exp} (h : Tied D v (e.mentions v) e.selves e.sites) (dotted : Bool) :
    Tied D v (e.mentions v) e.selves
      (match e.asString? with
        | some _ => [if dotted then .name e.range else .key e.range]
        | none => e.sites) := by
  cases hstring : e.asString? with
  | none => exact h
  | some text =>
    rw [Exp.mentions_of_asString hstring]
    exact .nil

end Tied

mutual

theorem Exp.tied (e : Exp) (v : Visible) : Tied D v (e.mentions v) e.selves e.sites := by
  cases e with
  | name range text => exact ⟨.single (n := ⟨text, range⟩) rfl, fun ha => ha.bound_read⟩
  | function range body => exact body.tied v false
  | table range fields => exact Field.tied fields v
  | index range obj key dotted =>
    have hkey := (key.tied v).key dotted
    rw [Exp.sites]
    revert hkey
    cases key.asString? <;> exact (obj.tied v).append
  | call range func args => exact (func.tied v).append (Exp.tied_list args v)
  | methodCall range obj method args => exact (obj.tied v).append (Exp.tied_list args v)
  | binary range op lhs rhs => exact (lhs.tied v).append (rhs.tied v)
  | unary range op operand => exact operand.tied v
  | paren range inner => exact inner.tied v
  | nil | bool | vararg | number | string => exact .nil

theorem Exp.tied_list (es : List Exp) (v : Visible) :
    Tied D v (Exp.listMentions v es) (Exp.listSelves es) (Exp.listSites es) := by
  cases es with
  | nil => exact .nil
  | cons e es => exact (e.tied v).append (Exp.tied_list es v)

theorem Field.tied (fs : List Field) (v : Visible) :
    Tied D v (Field.mentions v fs) (Field.selves fs) (Field.listSites fs) := by
  cases fs with
  | nil => exact .nil
  | cons f fs =>
    have hrest := Field.tied fs v
    cases f with
    | named key value => exact (value.tied v).append hrest
    | keyed key value =>
      rw [Field.listSites, Field.sites, append_assoc]
      exact (key.tied v).append ((value.tied v).append hrest)
    | positional value => exact (value.tied v).append hrest

theorem FunctionBody.tied (b : FunctionBody) (v : Visible) (isMethod : Bool) :
    Tied D v (b.mentions v isMethod) (b.selves isMethod) (b.sites isMethod) := by
  obtain ⟨range, params, isVararg, block⟩ := b
  refine .append_declare ⟨.map (fun _ => rfl) _, Anchored.bound_declaring⟩ (block.tied _)
    fun ha l hl => ?_
  obtain ⟨n, hn, rfl⟩ := mem_map.1 hl
  rcases mem_hiddenParams_or_writtenParams hn with hn | hn
  · exact ha.hidden n.range (mem_map_of_mem hn)
  · exact ha.declared n (mem_map_of_mem hn)

theorem Block.tied (b : Block) (v : Visible) : Tied D v (b.mentions v) b.selves b.sites := by
  obtain ⟨range, stats, ret⟩ := b
  refine (Stat.tied_list stats v).append_declare ?_ Stat.listDeclares_of_anchored
  cases ret with
  | none => exact .nil
  | some ret =>
    obtain ⟨range', values⟩ := ret
    exact Exp.tied_list values _

theorem Stat.tied_list (ss : List Stat) (v : Visible) :
    Tied D v (Stat.listMentions v ss) (Stat.listSelves ss) (Stat.listSites ss) := by
  cases ss with
  | nil => exact .nil
  | cons s ss => exact (s.tied v).append_declare (Stat.tied_list ss _) s.declares_of_anchored

theorem Stat.tied (s : Stat) (v : Visible) : Tied D v (s.mentions v) s.selves s.sites := by
  cases s with
  | locals range names values =>
    have hvalues := Exp.tied_list values v
    exact ⟨(Within.map (fun _ => rfl) names).append_swap hvalues.within,
      fun ha => (hvalues.bound ha.left_of_nil).append ha.right_of_nil.bound_declaring⟩
  | localFunction range name body =>
    have hbody := body.tied (v.declare [name.declaration v.file]) false
    refine ⟨.cons rfl hbody.within, fun ha => ?_⟩
    exact ha.bound_declaring_cons fun hname => hbody.bound (ha.tail.declare hname)
  | function range name body =>
    have hbody := body.tied v name.method.isSome
    exact ⟨name.within_mentions.append hbody.within,
      fun ha => (name.bound_mentions ha).append (hbody.bound ha.right_of_nil)⟩
  | assign range targets values =>
    have htargets := Exp.tied_targets targets v
    have hvalues := Exp.tied_list values v
    exact ⟨htargets.within.append_swap hvalues.within,
      fun ha => (hvalues.bound ha.left).append (htargets.bound ha.right)⟩
  | call range e => exact e.tied v
  | doBlock range block => exact block.tied v
  | whileLoop range test block => exact (test.tied v).append (block.tied v)
  | repeatLoop range block test =>
    exact (block.tied v).append_declare (test.tied _) block.declares_of_anchored
  | ifChain range clauses orElse =>
    refine (Clause.tied clauses v).append ?_
    cases orElse with
    | none => exact .nil
    | some block => exact block.tied v
  | numericFor range var first limit step block =>
    have hstep : Tied D v (Exp.mentions? v step) (Exp.selves? step) (Exp.sites? step) := by
      cases step with
      | none => exact .nil
      | some e => exact e.tied v
    have hblock := block.tied (v.declare [var.declaration v.file])
    have hhead := (first.tied v).append ((limit.tied v).append hstep)
    constructor
    · -- The variable stands before what is computed and is declared after it.
      have hvar := Within.single (u := v.declaring var) (n := var) rfl
      have hrest := (hvar.append_swap hhead.within).append hblock.within
      simpa only [Stat.mentions, Stat.sites, append_assoc, cons_append, nil_append] using hrest
    · intro ha
      simp only [Stat.mentions,
        Stat.selves, ← append_assoc _ _ (_ :: _), ← append_assoc _ _ block.selves] at ha ⊢
      exact (hhead.bound ha.left).append
        (ha.right.bound_declaring_cons fun hvar => hblock.bound (ha.right.tail.declare hvar))
  | genericFor range names values block =>
    have hnames := Within.map (f := v.declaring) (fun _ => rfl) names
    have hvalues := Exp.tied_list values v
    have hblock := block.tied (v.declare (names.map (·.declaration v.file)))
    constructor
    · have hrest := (hnames.append_swap hvalues.within).append hblock.within
      simpa only [Stat.mentions, Stat.sites, append_assoc] using hrest
    · intro ha
      have hrest := ha.right
      have hdeclared : ∀ l ∈ names.map (·.declaration v.file), D l.2 := by
        intro l hl
        obtain ⟨n, hn, rfl⟩ := mem_map.1 hl
        exact hrest.declared n (mem_append_left _ (mem_map_of_mem hn))
      exact (hvalues.bound ha.left).append
        (hrest.left_of_nil.bound_declaring.append
          (hblock.bound (hrest.right_of_nil.declare hdeclared)))
  | empty | breakLoop | goto | label => exact .nil

theorem Exp.tied_targets (es : List Exp) (v : Visible) :
    Tied D v (Exp.targetMentions v es) (Exp.listSelves es) (Exp.listSites es) := by
  cases es with
  | nil => exact .nil
  | cons e es =>
    have hrest := Exp.tied_targets es v
    cases e with
    | name range text =>
      exact ⟨.cons (n := ⟨text, range⟩) rfl hrest.within,
        fun ha => ha.bound_write.cons (hrest.bound ha.tail)⟩
    | index range obj key dotted =>
      have hobj := obj.tied v
      have hkey := key.tied v
      constructor
      · have htarget :=
          (hobj.within.append (Exp.within_key obj key dotted v hkey.within)).append hrest.within
        rw [Exp.targetMentions, Exp.listSites, Exp.sites]
        revert htarget
        cases key.asString? <;> simp only [append_assoc] <;> exact id
      · intro ha
        rw [Exp.listSelves, Exp.selves, append_assoc] at ha
        refine (hobj.bound ha.left).append ((hkey.bound ha.right.left).append (.append ?_ ?_))
        · cases Exp.rootKey? obj key with
          | none => exact bound_nil
          | some n => exact bound_global
        · exact hrest.bound ha.right.right.right_of_nil
    | nil range => exact ⟨hrest.within, hrest.bound⟩
    | _ => exact (Exp.tied _ v).append hrest

theorem Clause.tied (cs : List Clause) (v : Visible) :
    Tied D v (Clause.mentions v cs) (Clause.selves cs) (Clause.listSites cs) := by
  cases cs with
  | nil => exact .nil
  | cons c cs =>
    obtain ⟨test, block⟩ := c
    rw [Clause.listSites, Clause.sites, append_assoc]
    exact (test.tied v).append ((block.tied v).append (Clause.tied cs v))

end

end

theorem Chunk.bound_mentions {chunk : Chunk} {file : FileId} (hu : u ∈ chunk.mentions file)
    (hd : u.binding = some d) :
    d.file = file ∧ (d.range ∈ chunk.block.selves ∨ ∃ t ∈ chunk.mentions file, t.range = d.range ∧
      t.binding = some d) := by
  refine (chunk.block.tied (D := fun d => d.file = file ∧ (d.range ∈ chunk.block.selves ∨
    ∃ t ∈ chunk.mentions file, t.range = d.range ∧ t.binding = some d)) { file }).bound ?_ u hu d hd
  refine ⟨nofun, fun n hn => ⟨rfl, .inr ⟨_, hn, rfl, rfl⟩⟩, fun r hr => ⟨rfl, .inl hr⟩⟩

namespace FileIndex

/-- The places of the parameters `self` of a file that are not written; a file without a tree has
none. -/
def selves (x : FileIndex) (f : FileId) : List TextRange :=
  match (x.get? f).bind fun source => source.source.tree.toOption with
  | some chunk => chunk.block.selves
  | none => []

theorem bound_mentions {x : FileIndex} {f : FileId} (hu : u ∈ x.mentions f)
    (hd : u.binding = some d) :
    d.file = f ∧ (d.range ∈ x.selves f ∨ ∃ t ∈ x.mentions f, t.range = d.range ∧
      t.binding = some d) := by
  unfold mentions selves at *
  cases hchunk : (x.get? f).bind fun source => source.source.tree.toOption with
  | none =>
    rw [hchunk] at hu
    cases hu
  | some chunk =>
    rw [hchunk] at hu
    exact Chunk.bound_mentions hu hd

end FileIndex

end LuaAnalysis
