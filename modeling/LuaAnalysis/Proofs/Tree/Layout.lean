import LuaAnalysis.Proofs.Token.Order
import LuaAnalysis.Proofs.Tree.Grammar

/-!
# How a tree is laid out over its tokens

A node is any part of a tree that has a range, and its parts come in rows: the parts of one row
follow each other in the text. All parts of a node make one row, but for function statements, where
the body begins with the statement itself and so covers the name.

A node is placed on a stretch of tokens when the stretch writes it, its range goes from the first to
the last token of the stretch, and every row of its parts is placed on stretches of that stretch,
one after another. Where the tokens are in order, a placed node is well ranged: no range runs
backwards, parts stay inside, and the parts of a row do not overlap (`Node.Placed.wellRanged`).
-/

namespace LuaAnalysis

/-- A part of a tree that has a range. -/
inductive Node where
  | chunk (chunk : Chunk)
  | block (block : Block)
  | stat (stat : Stat)
  | ret (ret : ReturnStat)
  | body (body : FunctionBody)
  | path (path : FunctionName)
  | name (name : Name)
  | exp (exp : Exp)

/-! ## Parts -/

def Field.parts : Field → List Node
  | .named key value => [.name key, .exp value]
  | .keyed key value => [.exp key, .exp value]
  | .positional value => [.exp value]

def Clause.parts (c : Clause) : List Node :=
  [.exp c.cond, .block c.block]

/-- The key behind a dot is a name of the text. -/
def Exp.parts : Exp → List Node
  | .function _ body => [.body body]
  | .table _ fields => fields.flatMap Field.parts
  | .index _ obj (.string r text) true => [.exp obj, .name ⟨text, r⟩]
  | .index _ obj key _ => [.exp obj, .exp key]
  | .call _ func args => .exp func :: args.map .exp
  | .methodCall _ obj method args => .exp obj :: .name method :: args.map .exp
  | .binary _ _ lhs rhs => [.exp lhs, .exp rhs]
  | .unary _ _ operand => [.exp operand]
  | .paren _ e => [.exp e]
  | .nil _ | .bool .. | .vararg _ | .number .. | .string .. | .name .. => []

def Stat.rows : Stat → List (List Node)
  | .locals _ names values => [names.map (.name ·.name) ++ values.map .exp]
  | .localFunction _ name body => [[.name name], [.body body]]
  | .function _ name body => [[.path name], [.body body]]
  | .assign _ targets values => [targets.map .exp ++ values.map .exp]
  | .call _ e => [[.exp e]]
  | .doBlock _ block => [[.block block]]
  | .whileLoop _ cond block => [[.exp cond, .block block]]
  | .repeatLoop _ block cond => [[.block block, .exp cond]]
  | .ifChain _ clauses orElse => [clauses.flatMap Clause.parts ++ orElse.toList.map .block]
  | .numericFor _ var first limit step block =>
    [.name var :: .exp first :: .exp limit :: step.toList.map .exp ++ [.block block]]
  | .genericFor _ names values block => [names.map .name ++ values.map .exp ++ [.block block]]
  | .goto _ name | .label _ name => [[.name name]]
  | .empty _ | .breakLoop _ => []

namespace Node

def range : Node → TextRange
  | chunk c => c.range
  | block b => b.range
  | stat s => s.range
  | ret r => r.range
  | body b => b.range
  | path p => p.range
  | name n => n.range
  | exp e => e.range

def rows : Node → List (List Node)
  | chunk c => [[.block c.block]]
  | block b => [b.stats.map .stat ++ b.ret.toList.map .ret]
  | stat s => s.rows
  | ret r => [r.values.map .exp]
  | body b => [b.params.map .name ++ [.block b.block]]
  | path p => [p.segments.map .name]
  | name _ => []
  | exp e => [e.parts]

/-- The range of the node does not run backwards, its parts lie inside of it, those of a row follow
each other, and all of them are well ranged again. -/
inductive WellRanged : Node → Prop
  | mk (horder : n.range.start ≤ n.range.stop)
    (hrows : ∀ row ∈ n.rows, row.Pairwise fun a b => a.range.Before b.range)
    (hinside : ∀ row ∈ n.rows, ∀ m ∈ row, n.range.containsRange m.range = true)
    (hparts : ∀ row ∈ n.rows, ∀ m ∈ row, m.WellRanged) : WellRanged n

/-! ## Placement -/

/-- The kinds of the tokens that write a node. The body of a function begins with what stands before
its parameters, and the parameter `self` of a method is written by its opening parenthesis. -/
def WrittenBy : Node → List TokenKind → Prop
  | chunk c, ts => ∃ n, c.block.Written n ts
  | block b, ts => ∃ n, b.Written n ts
  | stat s, ts => ∃ n, s.Written n ts
  | ret r, ts => ∃ n, r.Written n ts
  | body b, ts => ∃ n isMethod head us, ts = head ++ us ∧ b.Written n isMethod us
  | path p, ts => ts = p.tokens
  | name n, ts => ts = [n.token] ∨ n.text = "self" ∧ ts = [.symbol .lparen]
  | exp e, ts => ∃ n, e.Written n ts

mutual

/-- The node is written by the tokens `ts`, which stand in front of the position `next`, and ranges
over them. -/
inductive Placed : Node → List Token → Position → Prop
  | mk (hwritten : n.WrittenBy (ts.map (·.kind))) (hrange : n.range = Token.span ts next)
    (hrows : ∀ row ∈ n.rows, RowPlaced row ts next) : Placed n ts next

/-- The nodes are placed one after another on stretches of the tokens. A node without tokens has a
token behind it. -/
inductive RowPlaced : List Node → List Token → Position → Prop
  | nil : RowPlaced [] [] next
  | token (hrow : RowPlaced row ts next) : RowPlaced row (t :: ts) next
  | part (hpart : Placed n us (Token.startOf ts next)) (hne : us ++ ts ≠ [])
      (hrow : RowPlaced row ts next) :
    RowPlaced (n :: row) (us ++ ts) next

end

variable {ts : List Token} {next : Position}

theorem Placed.range_eq {n : Node} (h : n.Placed ts next) : n.range = Token.span ts next := by
  cases h with | mk _ hrange _ => exact hrange

theorem RowPlaced.ne_nil {row : List Node}
    (h : RowPlaced row ts next) (hrow : row ≠ []) : ts ≠ [] := by
  cases h with
  | nil => exact absurd rfl hrow
  | token => exact List.cons_ne_nil _ _
  | part _ hne _ => exact hne

theorem rowPlaced_nil : RowPlaced [] ts next := by
  induction ts with
  | nil => exact .nil
  | cons t ts ih => exact .token ih

theorem RowPlaced.append {row row' : List Node} {us : List Token}
    (h : RowPlaced row us (Token.startOf ts next)) (h' : RowPlaced row' ts next) :
    RowPlaced (row ++ row') (us ++ ts) next := by
  match h with
  | .nil => exact h'
  | .token hrow => exact .token (hrow.append h')
  | @RowPlaced.part _ _ ws _ _ hpart hne hrow =>
    rw [List.append_assoc]
    refine .part (Token.startOf_append ▸ hpart) ?_ (hrow.append h')
    intro hnil
    simp only [List.append_eq_nil_iff] at hnil
    exact hne (by simp [hnil.1, hnil.2.1])

/-! ## Placed nodes are well ranged -/

theorem RowPlaced.inside {row : List Node} {ts : List Token}
    (h : RowPlaced row ts next) (hts : Token.InOrder ts next) :
    ∀ m ∈ row, Token.startOf ts next ≤ m.range.start ∧ m.range.stop ≤ Token.stopOf ts next := by
  intro m hm
  match h with
  | .nil => cases hm
  | @RowPlaced.token _ us _ _ hrow =>
    have hne : us ≠ [] := hrow.ne_nil (List.ne_nil_of_mem hm)
    obtain ⟨hstart, hstop⟩ := hrow.inside hts.2.2 m hm
    refine ⟨Position.le_trans hts.1 (Position.le_trans hts.2.1 hstart), ?_⟩
    rwa [Token.stopOf, Token.stopOf_of_ne_nil hne]
  | @RowPlaced.part _ us vs _ _ hpart hne hrow =>
    obtain ⟨hus, hvs⟩ := Token.inOrder_append.1 hts
    rw [Token.startOf_append, Token.stopOf_append]
    rcases List.mem_cons.1 hm with rfl | hm
    · rw [hpart.range_eq]
      refine ⟨Position.le_refl _, ?_⟩
      cases us with
      | nil =>
        have hvs' : vs ≠ [] := hne
        rw [Token.stopOf_of_ne_nil hvs']
        exact hvs.le_stopOf (Position.le_refl _)
      | cons u us => exact hvs.le_stopOf hus.span_stop_le
    · obtain ⟨hstart, hstop⟩ := hrow.inside hvs m hm
      refine ⟨Position.le_trans hus.startOf_le hstart, ?_⟩
      rwa [Token.stopOf_of_ne_nil (hrow.ne_nil (List.ne_nil_of_mem hm))]

theorem RowPlaced.pairwise {row : List Node} {ts : List Token} (h : RowPlaced row ts next)
    (hts : Token.InOrder ts next) : row.Pairwise fun a b => a.range.Before b.range := by
  match h with
  | .nil => exact .nil
  | .token hrow => exact hrow.pairwise hts.2.2
  | .part hpart _ hrow =>
    obtain ⟨hus, hvs⟩ := Token.inOrder_append.1 hts
    refine .cons (fun m hm => ?_) (hrow.pairwise hvs)
    show _ ≤ m.range.start
    rw [hpart.range_eq]
    exact Position.le_trans hus.span_stop_le (hrow.inside hvs m hm).1

mutual

theorem Placed.wellRanged {n : Node} {ts : List Token} {next : Position} (h : n.Placed ts next)
    (hts : Token.InOrder ts next) : n.WellRanged := by
  match h with
  | .mk _ hrange hrows =>
    refine .mk ?_ (fun row hrow => (hrows row hrow).pairwise hts) (fun row hrow m hm => ?_)
      (fun row hrow => (hrows row hrow).wellRanged hts)
    · rw [hrange]
      exact hts.span_start_le
    · rw [hrange]
      exact TextRange.containsRange_iff.2 ((hrows row hrow).inside hts m hm)

theorem RowPlaced.wellRanged {row : List Node} {ts : List Token}
    {next : Position} (h : RowPlaced row ts next) (hts : Token.InOrder ts next) :
    ∀ m ∈ row, m.WellRanged := by
  match h with
  | .nil => exact fun _ hm => nomatch hm
  | .token hrow => exact hrow.wellRanged hts.2.2
  | .part hpart _ hrow =>
    obtain ⟨hus, hvs⟩ := Token.inOrder_append.1 hts
    exact List.forall_mem_cons.2 ⟨hpart.wellRanged hus, hrow.wellRanged hvs⟩

end

end Node

end LuaAnalysis
