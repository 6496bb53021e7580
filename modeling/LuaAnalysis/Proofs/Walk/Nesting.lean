import LuaAnalysis.Proofs.Tree.Layout
import LuaAnalysis.Proofs.Walk.Script

/-!
# Scopes nest as the tree does

A walk opens scopes for the bodies of functions and for the blocks of statements. The scopes that it
opens on the way through a row of nodes lie inside these nodes, so those of different nodes do not
overlap. Scopes do not always come in the order of the text, since the values of an assignment are
walked before its targets. In a well-ranged tree all scopes nest (`Chunk.nested_scopeTree`).
-/

namespace LuaAnalysis

open List

namespace TextRange

variable {a b r : TextRange}

/-- One of the ranges ends where the other one starts, or earlier. -/
def Apart (a b : TextRange) : Prop :=
  a.Before b ∨ b.Before a

theorem Apart.not_overlaps (h : a.Apart b) : a.overlaps b = false :=
  h.elim (·.not_overlaps.1) (·.not_overlaps.2)

theorem containsRange_trans (hra : r.containsRange a = true) (hab : a.containsRange b = true) :
    r.containsRange b = true := by
  rw [containsRange_iff] at *
  exact ⟨Position.le_trans hra.1 hab.1, Position.le_trans hab.2 hra.2⟩

theorem containsRange_refl : r.containsRange r = true :=
  containsRange_iff.2 ⟨Position.le_refl _, Position.le_refl _⟩

theorem Before.of_contains {a' b' : TextRange} (h : a.Before b) (ha : a.containsRange a' = true)
    (hb : b.containsRange b' = true) : a'.Before b' :=
  Position.le_trans (containsRange_iff.1 ha).2 (Position.le_trans h (containsRange_iff.1 hb).1)

theorem Before.cover_eq (h : a.Before b) (ha : a.start ≤ a.stop) (hb : b.start ≤ b.stop) :
    a.cover b = ⟨a.start, b.stop⟩ :=
  cover_of_le (Position.le_trans ha h) (Position.le_trans h hb)

end TextRange

/-! ## Nested scopes -/

namespace ScopeTree

def range : ScopeTree → TextRange
  | node _ range _ _ => range

/-- The children of every scope lie inside it and do not overlap. -/
inductive Nested : ScopeTree → Prop
  | mk {kind : ScopeKind} {range : TextRange} {locals : Locals} {children : List ScopeTree}
      (hinside : ∀ x ∈ children, range.containsRange x.range = true)
      (hapart : children.Pairwise fun x y => x.range.Apart y.range)
      (hchildren : ∀ x ∈ children, x.Nested) : Nested (.node kind range locals children)

end ScopeTree

/-! ## Rows of nodes -/

namespace Node

/-- The nodes follow each other in the text and are well ranged. -/
structure InRow (row : List Node) : Prop where
  order : row.Pairwise fun a b => a.range.Before b.range
  parts : ∀ n ∈ row, n.WellRanged

variable {n : Node} {row row' : List Node}

theorem InRow.head (h : InRow (n :: row)) : n.WellRanged :=
  h.parts n mem_cons_self

theorem InRow.tail (h : InRow (n :: row)) : InRow row where
  order := h.order.of_cons
  parts m hm := h.parts m (mem_cons_of_mem n hm)

theorem InRow.left (h : InRow (row ++ row')) : InRow row where
  order := (pairwise_append.1 h.order).1
  parts m hm := h.parts m (mem_append_left row' hm)

theorem InRow.right (h : InRow (row ++ row')) : InRow row' where
  order := (pairwise_append.1 h.order).2.1
  parts m hm := h.parts m (mem_append_right row hm)

theorem WellRanged.inRow (h : n.WellRanged) (hrow : row ∈ n.rows) :
    InRow row ∧ ∀ m ∈ row, n.range.containsRange m.range = true := by
  cases h with
  | mk _ hrows hinside hparts => exact ⟨⟨hrows row hrow, hparts row hrow⟩, hinside row hrow⟩

theorem WellRanged.start_le (h : n.WellRanged) : n.range.start ≤ n.range.stop := by
  cases h with
  | mk horder _ _ _ => exact horder

end Node

/-! ## Scopes along a row -/

open Node (InRow)

/-- The scopes of a trail nest and do not overlap, and each lies inside a node of the row. -/
structure Trail.Along (t : Trail) (row : List Node) : Prop where
  nested : ∀ x ∈ t.scopes, x.Nested
  inside : ∀ x ∈ t.scopes, ∃ n ∈ row, n.range.containsRange x.range = true
  apart : t.scopes.Pairwise fun x y => x.range.Apart y.range

variable {range : TextRange}

namespace Trail.Along

variable {t t' : Trail} {n : Node} {row row' : List Node} {kind : ScopeKind}

theorem of_nil (h : t.scopes = []) : t.Along row where
  nested := by simp [h]
  inside := by simp [h]
  apart := by simp [h]

theorem of_perm (h : t.Along row) (hp : t'.scopes.Perm t.scopes) : t'.Along row where
  nested x hx := h.nested x (hp.mem_iff.1 hx)
  inside x hx := h.inside x (hp.mem_iff.1 hx)
  apart := (hp.pairwise_iff fun hxy => hxy.symm).2 h.apart

theorem mono (h : t.Along row) (hsub : row ⊆ row') : t.Along row' where
  nested := h.nested
  inside x hx := by
    obtain ⟨n, hn, hin⟩ := h.inside x hx
    exact ⟨n, hsub hn, hin⟩
  apart := h.apart

theorem skip (h : t.Along row) : t.Along (n :: row) :=
  h.mono (subset_cons_self n row)

theorem before (h : t.Along row) (h' : t'.Along row') (hrow : InRow (row ++ row')) :
    ∀ x ∈ t.scopes, ∀ y ∈ t'.scopes, x.range.Before y.range := by
  intro x hx y hy
  obtain ⟨n, hn, hin⟩ := h.inside x hx
  obtain ⟨n', hn', hin'⟩ := h'.inside y hy
  exact ((pairwise_append.1 hrow.order).2.2 n hn n' hn').of_contains hin hin'

theorem append (h : t.Along row) (h' : t'.Along row') (hrow : InRow (row ++ row')) :
    (t ++ t').Along (row ++ row') where
  nested x hx := (mem_append.1 hx).elim (h.nested x) (h'.nested x)
  inside x hx := (mem_append.1 hx).elim ((h.mono (subset_append_left ..)).inside x)
    ((h'.mono (subset_append_right ..)).inside x)
  apart := pairwise_append.2 ⟨h.apart, h'.apart, fun x hx y hy => .inl (h.before h' hrow x hx y hy)⟩

theorem append_swap (h : t.Along row) (h' : t'.Along row') (hrow : InRow (row ++ row')) :
    (t' ++ t).Along (row ++ row') :=
  (h.append h' hrow).of_perm perm_append_comm

theorem within (h : t.Along row) (hin : ∀ m ∈ row, n.range.containsRange m.range = true) :
    t.Along [n] where
  nested := h.nested
  inside x hx := by
    obtain ⟨m, hm, hx⟩ := h.inside x hx
    exact ⟨n, mem_singleton_self n, TextRange.containsRange_trans (hin m hm) hx⟩
  apart := h.apart

theorem of_row (hn : n.WellRanged) (hrow : row ∈ n.rows) (h : InRow row → t.Along row) :
    t.Along [n] :=
  (h (hn.inRow hrow).1).within (hn.inRow hrow).2

theorem nested_node (h : t.Along row) (hin : ∀ m ∈ row, range.containsRange m.range = true)
    {locals : Locals} : (ScopeTree.node kind range locals t.scopes).Nested := by
  refine .mk (fun x hx => ?_) h.apart h.nested
  obtain ⟨m, hm, hx⟩ := h.inside x hx
  exact TextRange.containsRange_trans (hin m hm) hx

theorem inScope (h : t.Along row) (hin : ∀ m ∈ row, range.containsRange m.range = true)
    (hrange : n.range.containsRange range = true) {ds : List Declaration} :
    (t.inScope kind range ds).Along [n] where
  nested := forall_mem_singleton.2 (h.nested_node hin)
  inside := forall_mem_singleton.2 ⟨n, mem_singleton_self n, hrange⟩
  apart := pairwise_singleton _ _

theorem around (h : t.Along [n]) (kind : ScopeKind) (ds : List Declaration) :
    (t.inScope kind n.range ds).Along [n] :=
  h.inScope (forall_mem_singleton.2 TextRange.containsRange_refl) TextRange.containsRange_refl

end Trail.Along

/-! ## Trees -/

/-- The scope of a loop with its condition at the end reaches from its block to the condition. -/
theorem Node.InRow.cover {n m : Node} (h : InRow [n, m]) :
    (∀ k ∈ [n, m], (n.range.cover m.range).containsRange k.range = true) ∧
      ∀ r : TextRange, (∀ k ∈ [n, m], r.containsRange k.range = true) →
        r.containsRange (n.range.cover m.range) = true := by
  have hn := h.head.start_le
  have hm := h.tail.head.start_le
  have hbefore : n.range.Before m.range := (pairwise_cons.1 h.order).1 m (mem_singleton_self m)
  simp only [hbefore.cover_eq hn hm, TextRange.containsRange_iff, forall_mem_cons]
  refine ⟨⟨⟨Position.le_refl _, Position.le_trans hbefore hm⟩,
    ⟨Position.le_trans hn hbefore, Position.le_refl _⟩, nofun⟩, ?_⟩
  exact fun r hr => ⟨hr.1.1, hr.2.1.2⟩

open Node (WellRanged)

theorem Exp.parts_index {obj key : Exp} {dotted : Bool} :
    ∃ n, (Exp.index range obj key dotted).parts = [.exp obj, n] ∧
      (n = .exp key ∨ ∃ r text, key = .string r text) := by
  cases key <;> cases dotted <;> simp [Exp.parts]

theorem Exp.along_index {obj key : Exp} {dotted : Bool} {t t' : Trail}
    (h : (Node.exp (.index range obj key dotted)).WellRanged) (hobj : (Node.exp obj).WellRanged →
      t.Along [.exp obj]) (hkey : (Node.exp key).WellRanged → t'.Along [.exp key])
    (hstring : ∀ r text, key = .string r text → t'.scopes = []) :
    (t ++ t').Along [.exp (.index range obj key dotted)] := by
  obtain ⟨n, hparts, hn⟩ := Exp.parts_index
  obtain ⟨hrow, hin⟩ : InRow [.exp obj, n] ∧
      ∀ m ∈ [.exp obj, n], range.containsRange m.range = true := by
    rw [← hparts]
    exact h.inRow (mem_singleton_self _)
  have hn' : t'.Along [n] := by
    rcases hn with rfl | ⟨r, text, heq⟩
    · exact hkey hrow.tail.head
    · exact .of_nil (hstring r text heq)
  exact ((hobj hrow.head).append hn' hrow).within hin

mutual

theorem Exp.along_trail (c : Lexical) :
    ∀ e : Exp, (Node.exp e).WellRanged → (e.trail c).Along [.exp e]
  | .nil _, _ | .bool _ _, _ | .vararg _, _ | .number _ _, _ | .string _ _, _ | .name _ _, _ =>
    .of_nil rfl
  | .function _ body, h => .of_row h (.head _) fun hrow => body.along_trail c hrow.head
  | .table _ fields, h => .of_row h (.head _) fun hrow => Field.along_trails c fields hrow
  | .index _ obj key _, h => by
    simp only [Exp.trail]
    split
    · rw [← Trail.append_empty (obj.trail c)]
      exact Exp.along_index h (obj.along_trail c) (fun _ => .of_nil rfl) fun _ _ _ => rfl
    · exact Exp.along_index h (obj.along_trail c) (key.along_trail c)
        fun r text heq => by rw [heq, Exp.trail]
  | .call _ func args, h => by
    simp only [Exp.trail]
    obtain ⟨hrow, hin⟩ := h.inRow (mem_singleton_self _)
    have hargs := Exp.along_trails c args hrow.tail
    split
    · refine (hargs.skip.of_perm (.of_eq ?_)).within hin
      simp [c.scopes_loadFunction, Trail.event]
    · exact ((func.along_trail c hrow.head).append hargs hrow).within hin
  | .methodCall _ obj _ args, h => .of_row h (.head _) fun hrow =>
    (obj.along_trail c hrow.head).append (Exp.along_trails c args hrow.tail.tail).skip hrow
  | .binary _ _ lhs rhs, h => .of_row h (.head _) fun hrow =>
    (lhs.along_trail c hrow.head).append (rhs.along_trail c hrow.tail.head) hrow
  | .unary _ _ operand, h => .of_row h (.head _) fun hrow => operand.along_trail c hrow.head
  | .paren _ e, h => .of_row h (.head _) fun hrow => e.along_trail c hrow.head

theorem Exp.along_trails (c : Lexical) :
    ∀ es : List Exp, InRow (es.map .exp) → (Exp.trails c es).Along (es.map .exp)
  | [], _ => .of_nil rfl
  | e :: es, h => (e.along_trail c h.head).append (Exp.along_trails c es h.tail) h

theorem Field.along_trails (c : Lexical) :
    ∀ fields : List Field, InRow (fields.flatMap Field.parts) →
    (Field.trails c fields).Along (fields.flatMap Field.parts)
  | [], _ => .of_nil rfl
  | .named _ value :: rest, h =>
    ((value.along_trail c h.tail.head).append (Field.along_trails c rest h.tail.tail) h.tail).skip
  | .keyed key value :: rest, h => by
    have hrest := (value.along_trail c h.tail.head).append
      (Field.along_trails c rest h.tail.tail) h.tail
    exact (key.along_trail c h.head).append hrest h
  | .positional value :: rest, h =>
    (value.along_trail c h.head).append (Field.along_trails c rest h.tail) h

theorem FunctionBody.along_trail (c : Lexical) : ∀ b : FunctionBody, (Node.body b).WellRanged →
    (b.trail c).Along [.body b]
  | ⟨range, params, isVararg, block⟩, h => by
    obtain ⟨hrow, hin⟩ := h.inRow (mem_singleton_self _)
    have hblock := (block.along_trail (c.inFunction.declare (params.map (·.declaration c.file)))
      hrow.right.head).mono (subset_append_right (params.map Node.name) _)
    exact hblock.inScope hin TextRange.containsRange_refl

theorem Block.along_trail (c : Lexical) : ∀ b : Block, (Node.block b).WellRanged →
    (b.trail c).Along [.block b]
  | ⟨_, stats, ret⟩, h => .of_row h (.head _) fun hrow =>
    (Stat.along_trails c stats hrow.left).append (ReturnStat.along_trail? _ ret hrow.right) hrow

theorem ReturnStat.along_trail? (c : Lexical) :
    ∀ ret : Option ReturnStat, InRow (ret.toList.map .ret) →
    (ReturnStat.trail? c ret).Along (ret.toList.map .ret)
  | none, _ => .of_nil rfl
  | some ret, h => ret.along_trail c h.head

theorem ReturnStat.along_trail (c : Lexical) : ∀ ret : ReturnStat, (Node.ret ret).WellRanged →
    (ret.trail c).Along [.ret ret]
  | ⟨_, values⟩, h => .of_row h (.head _) fun hrow => Exp.along_trails c values hrow

theorem Stat.along_trails (c : Lexical) : ∀ stats : List Stat, InRow (stats.map .stat) →
    (Stat.trails c stats).Along (stats.map .stat)
  | [], _ => .of_nil rfl
  | stat :: stats, h => (stat.along_trail c h.head).append (Stat.along_trails _ stats h.tail) h

theorem Stat.along_trail (c : Lexical) : ∀ stat : Stat, (Node.stat stat).WellRanged →
    (stat.trail c).Along [.stat stat]
  | .locals _ names values, h => .of_row h (.head _) fun hrow =>
    (Exp.along_trails _ values hrow.right).mono (subset_append_right _ _)
  | .localFunction _ name body, h => .of_row h (.tail _ (.head _)) fun hrow =>
    body.along_trail _ hrow.head
  | .function _ name body, h => by
    simp only [Stat.trail]
    obtain ⟨hrow, hin⟩ := h.inRow (mem_cons_of_mem _ (mem_singleton_self _))
    refine ((body.along_trail c hrow.head).of_perm (.of_eq ?_)).within hin
    simp [c.scopes_writeFunction]
  | .assign _ targets values, h => .of_row h (.head _) fun hrow =>
    (Exp.along_targetTrails c targets hrow.left).append_swap
    (Exp.along_trails _ values hrow.right) hrow
  | .call _ e, h => .of_row h (.head _) fun hrow => e.along_trail c hrow.head
  | .doBlock _ block, h => .of_row h (.head _) fun hrow =>
    (block.along_trail c hrow.head).around _ _
  | .whileLoop _ cond block, h => .of_row h (.head _) fun hrow =>
    (cond.along_trail c hrow.head).append ((block.along_trail c hrow.tail.head).around _ _) hrow
  | .repeatLoop _ block cond, h => by
    obtain ⟨hrow, hin⟩ := h.inRow (mem_singleton_self _)
    obtain ⟨hcover, hleast⟩ := hrow.cover
    exact ((block.along_trail c hrow.head).append (cond.along_trail _ hrow.tail.head) hrow).inScope
      hcover
      (hleast _ hin)
  | .ifChain _ clauses orElse, h => .of_row h (.head _) fun hrow =>
    (Clause.along_trails c clauses hrow.left).append
    (Block.along_elseTrail c orElse hrow.right) hrow
  | .numericFor _ var first limit step block, h => by
    obtain ⟨hrow, hin⟩ := h.inRow (mem_singleton_self _)
    have hend : InRow (step.toList.map .exp ++ [.block block]) := hrow.tail.tail.tail
    have hblock :=
      (block.along_trail (c.declare [var.declaration c.file]) hend.right.head).around .loop
      ([var.declaration c.file] ++ block.declares c.file)
    have hlimit := (limit.along_trail c hrow.tail.tail.head).append
      ((Exp.along_trail? c step hend.left).append hblock hend)
      hrow.tail.tail
    exact ((first.along_trail c hrow.tail.head).append hlimit hrow.tail).skip.within hin
  | .genericFor _ names values block, h => by
    obtain ⟨hrow, hin⟩ := h.inRow (mem_singleton_self _)
    have hvalues :=
      (Exp.along_trails c values hrow.left.right).mono (subset_append_right (names.map Node.name) _)
    exact (hvalues.append ((block.along_trail _ hrow.right.head).around _ _) hrow).within hin
  | .empty _, _ | .breakLoop _, _ | .goto _ _, _ | .label _ _, _ => .of_nil rfl

theorem Exp.along_trail? (c : Lexical) : ∀ e : Option Exp, InRow (e.toList.map .exp) →
    (Exp.trail? c e).Along (e.toList.map .exp)
  | none, _ => .of_nil rfl
  | some e, h => e.along_trail c h.head

theorem Exp.along_targetTrails (c : Lexical) : ∀ targets : List Exp, InRow (targets.map .exp) →
    (Exp.targetTrails c targets).Along (targets.map .exp)
  | [], _ => .of_nil rfl
  | e :: ts, h => by
    have hmore := Exp.along_targetTrails c ts h.tail
    cases e with
    | name range text =>
      have hname : (c.write text range).Along [.exp (.name range text)] := .of_nil rfl
      exact hname.append hmore h
    | index range obj key dotted =>
      refine Trail.Along.append (?_ : Trail.Along _ [.exp (.index range obj key dotted)]) hmore h
      split
      · exact .of_nil (c.scopes_writeMember ..)
      · exact Exp.along_index h.head (obj.along_trail c) (key.along_trail c)
          fun r text heq => by rw [heq, Exp.trail]
    | _ => exact (Exp.along_trail c _ h.head).append hmore h

theorem Clause.along_trails (c : Lexical) :
    ∀ clauses : List Clause, InRow (clauses.flatMap Clause.parts) →
    (Clause.trails c clauses).Along (clauses.flatMap Clause.parts)
  | [], _ => .of_nil rfl
  | ⟨cond, block⟩ :: rest, h => by
    have hrest := ((block.along_trail c h.tail.head).around .branch (block.declares c.file)).append
      (Clause.along_trails c rest h.tail.tail) h.tail
    exact (cond.along_trail c h.head).append hrest h

theorem Block.along_elseTrail (c : Lexical) :
    ∀ orElse : Option Block, InRow (orElse.toList.map .block) →
    (Block.elseTrail c orElse).Along (orElse.toList.map .block)
  | none, _ => .of_nil rfl
  | some block, h => (block.along_trail c h.head).around _ _

end

theorem Chunk.nested_scopeTree {chunk : Chunk} (h : (Node.chunk chunk).WellRanged) (file : FileId)
    (imports : ImportsConfig) : (chunk.scopeTree file imports).Nested := by
  obtain ⟨hrow, hin⟩ := h.inRow (mem_singleton_self _)
  exact (chunk.block.along_trail _ hrow.head).nested_node hin

end LuaAnalysis
