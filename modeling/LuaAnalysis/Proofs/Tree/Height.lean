import LuaAnalysis.Proofs.Token.Printing
import LuaAnalysis.Proofs.Tree.Completeness
import LuaAnalysis.Proofs.Tree.Statements

/-!
# How high a tree is

The limit on levels bounds how deep a text is nested. Left operands and prefixes open no level,
since loops read what follows them, so along them a tree is as high as its text is long
(`height_unbounded`). The other steps of a way down a tree are bounded (`nested_steps_le`): a level
costs at most four of them, such as those from a function to its body, its block, a statement of it
and an expression there.
-/

namespace LuaAnalysis

open List

def Exp.left? : Exp → Option Exp
  | .index _ e _ _ | .call _ e _ | .methodCall _ e _ _ | .binary _ _ e _ => some e
  | _ => none

namespace Node

/-- The parts of a node, but for a left operand or a prefix, which comes first. -/
def nested : Node → List Node
  | exp e => e.parts.drop e.left?.toList.length
  | n => n.rows.flatten

/-- A way down a tree with so many steps to nested parts and to left operands or prefixes. -/
inductive Descends : Node → Nat → Nat → Prop
  | here : Descends n 0 0
  | nested (hm : m ∈ n.nested) (h : Descends m i j) : Descends n (i + 1) j
  | left (he : e.left? = some e') (h : Descends (.exp e') i j) : Descends (.exp e) i (j + 1)

/-! ## Ranks -/

/-- How many steps to nested parts the levels of a node allow. A table that is the argument of a
call opens none. -/
inductive Ranked : Node → Nat → Prop
  | exp (h : e.Written n ts) : Ranked (.exp e) (4 * n)
  | string : Ranked (.exp (.string r text)) 0
  | table (h : Field.ListWritten n fields ts) : Ranked (.exp (.table r fields)) (4 * n + 1)
  | stat (h : s.Written n ts) : Ranked (.stat s) (4 * n + 1)
  | ret (h : r.Written n ts) : Ranked (.ret r) (4 * n + 1)
  | block (h : b.Written n ts) : Ranked (.block b) (4 * n + 2)
  | body (h : f.Written n isMethod ts) : Ranked (.body f) (4 * n + 3)
  | path : Ranked (.path p) 1
  | name : Ranked (.name x) 0

/-- All of the nodes have a lower rank. -/
def Below (b : Nat) (ms : List Node) : Prop :=
  ∀ m ∈ ms, ∃ k < b, m.Ranked k

variable {n b c k : Nat} {ts : List TokenKind} {m : Node}

namespace Below

variable {ms ms' : List Node}

theorem nil : Below b [] :=
  nofun

theorem cons (h : m.Ranked k) (hk : k < b) (hms : Below b ms) : Below b (m :: ms) :=
  forall_mem_cons.2 ⟨⟨k, hk, h⟩, hms⟩

theorem append (h : Below b ms) (h' : Below b ms') : Below b (ms ++ ms') :=
  forall_mem_append.2 ⟨h, h'⟩

theorem name {x : Name} (hms : Below (b + 1) ms) : Below (b + 1) (.name x :: ms) :=
  .cons .name b.succ_pos hms

theorem names {α : Type} {f : α → Name} {xs : List α} :
    Below (b + 1) (xs.map fun x => .name (f x)) :=
  forall_mem_map.2 fun _ _ => ⟨0, b.succ_pos, .name⟩

theorem exp {e : Exp} (h : e.Written n ts) (hms : Below (4 * n + (c + 1)) ms) :
    Below (4 * n + (c + 1)) (.exp e :: ms) :=
  .cons (.exp h) (by omega) hms

theorem block {b : Block} (h : b.Written n ts) (hms : Below (4 * n + (c + 3)) ms) :
    Below (4 * n + (c + 3)) (.block b :: ms) :=
  .cons (.block h) (by omega) hms

theorem body {f : FunctionBody} {isMethod : Bool} (h : f.Written n isMethod ts) :
    Below (4 * n + (c + 4)) [.body f] :=
  .cons (.body h) (by omega) .nil

theorem exps {es : List Exp} {ts} (h : Exp.ListWritten n es ts) :
    Below (4 * n + (c + 1)) (es.map .exp) := by
  match h with
  | .one he => exact .exp he .nil
  | .more he hes => exact .exp he (exps hes)

theorem field {f : Field} (h : f.Written n ts) : Below (4 * n + (c + 1)) f.parts := by
  cases h with
  | named hvalue => exact .name (.exp hvalue .nil)
  | keyed hkey hvalue => exact .exp hkey (.exp hvalue .nil)
  | positional hvalue => exact .exp hvalue .nil

theorem fields {fs : List Field} {ts} (h : Field.ListWritten n fs ts) :
    Below (4 * n + (c + 1)) (fs.flatMap Field.parts) := by
  match h with
  | .none => exact .nil
  | .last hf => exact .append (field hf) .nil
  | .more hf _ hfs => exact .append (field hf) (fields hfs)

theorem args {args : List Exp} (h : Exp.ArgsWritten n args ts) :
    Below (4 * n + (c + 2)) (args.map .exp) := by
  cases h with
  | none => exact .nil
  | list hargs => exact .exps hargs
  | string => exact .cons .string (by omega) .nil
  | table hfields => exact .cons (.table hfields) (by omega) .nil

theorem clauses {cs : List Clause} {ts} (h : Clause.ListWritten n cs ts) :
    Below (4 * n + (c + 3)) (cs.flatMap Clause.parts) := by
  match h with
  | .one htest hblock => exact .exp htest (.block hblock .nil)
  | .more htest hblock hcs => exact .exp htest (.block hblock (clauses hcs))

theorem stats {ss : List Stat} {ret : Option ReturnStat} {ts} (h : Stat.ListWritten n ss ret ts) :
    Below (4 * n + 2) (ss.map .stat ++ ret.toList.map .ret) := by
  match h with
  | .done => exact .nil
  | .ret hret => exact .cons (.ret hret) (by omega) .nil
  | .stat hstat hstats => exact .cons (.stat hstat) (by omega) (stats hstats)

end Below

/-! ## What a step costs -/

theorem nested_index {r : TextRange} {obj key : Exp} :
    nested (.exp (.index r obj key false)) = [.exp key] := by
  cases key <;> rfl

theorem below_exp {e : Exp} (h : e.Written (n + 1) ts) : Below (4 * n + 4) (nested (.exp e)) := by
  cases h with
  | nil | bool | vararg | number | string | name => exact .nil
  | function hbody => exact .body hbody
  | table hfields => exact .fields hfields
  | member => exact .name .nil
  | index _ _ hkey =>
    rw [nested_index]
    exact .exp hkey .nil
  | call _ _ hargs => exact .args hargs
  | methodCall _ _ hargs => exact .name (.args hargs)
  | binary _ h _ _ | unary h _ | paren h => exact .exp h .nil

theorem below_stat {s : Stat} (h : s.Written (n + 1) ts) :
    Below (4 * n + 5) (nested (.stat s)) := by
  cases h with
  | empty | breakLoop => exact .nil
  | locals => exact .append (.append .names .nil) .nil
  | localsInit _ hvalues => exact .append (.append .names (.exps hvalues)) .nil
  | localFunction hbody => exact .name (.body hbody)
  | function hbody => exact .cons .path (by omega) (.body hbody)
  | assign htargets _ hvalues =>
    have hlevel : Below (4 * (n + 1) + 1) _ := .exps htargets
    exact .append (.append hlevel (.exps hvalues)) .nil
  | call hexp => exact .cons (.exp hexp) (by omega) .nil
  | doBlock hblock => exact .block hblock .nil
  | whileLoop htest hblock => exact .exp htest (.block hblock .nil)
  | repeatLoop hblock htest => exact .block hblock (.exp htest .nil)
  | ifChain hclauses => exact .append (.append (.clauses hclauses) .nil) .nil
  | ifElse hclauses helse => exact .append (.append (.clauses hclauses) (.block helse .nil)) .nil
  | numericFor hfirst hlimit hblock => exact .name (.exp hfirst (.exp hlimit (.block hblock .nil)))
  | steppedFor hfirst hlimit hstep hblock =>
    exact .name (.exp hfirst (.exp hlimit (.exp hstep (.block hblock .nil))))
  | genericFor _ hvalues hblock =>
    exact .append (.append (.append .names (.exps hvalues)) (.block hblock .nil)) .nil
  | goto | label => exact .name .nil

theorem Ranked.below (h : m.Ranked b) : Below b m.nested := by
  cases h with
  | @exp e n ts h =>
    cases n with
    | zero => cases h
    | succ n => exact below_exp h
  | table h => exact .fields h
  | @stat s n ts h =>
    cases n with
    | zero => cases h
    | succ n => exact below_stat h
  | ret h =>
    cases h with
    | bare => exact .nil
    | values _ hvalues => exact .append (.exps hvalues) .nil
  | block h =>
    cases h with | mk hstats => exact .append (.stats hstats) .nil
  | body h =>
    cases h with | mk _ hblock => exact .append (.append .names (.block hblock .nil)) .nil
  | path => exact .append .names .nil
  | string | name => exact .nil

theorem Ranked.left {e e' : Exp} (h : (Node.exp e).Ranked b) (he : e.left? = some e') :
    (Node.exp e').Ranked b := by
  cases h with
  | exp h => cases h <;> cases he <;> exact .exp ‹_›
  | string | table => cases he

theorem Descends.le {i j : Nat} (h : m.Descends i j) (hm : m.Ranked b) : i ≤ b := by
  induction h generalizing b with
  | here => exact Nat.zero_le b
  | nested hm' _ ih =>
    obtain ⟨k, hk, hm'⟩ := hm.below _ hm'
    exact Nat.lt_of_le_of_lt (ih hm') hk
  | left he _ ih => exact ih (hm.left he)

end Node

/-! ## Trees of any height -/

/-- `x`, with as many members `.x` behind it. -/
def memberChain : Nat → Exp
  | 0 => .name {} "x"
  | k + 1 => .index {} (memberChain k) (.string {} "x") true

def memberLexemes : Nat → List Lexeme
  | 0 => [.name "x"]
  | k + 1 => memberLexemes k ++ [.symbol .dot, .name "x"]

theorem written_memberChain (n k : Nat) :
    (memberChain k).Written (n + 1) ((memberLexemes k).map Lexeme.kind) := by
  induction k with
  | zero => exact .name
  | succ k ih =>
    rw [memberLexemes, map_append]
    exact .member ih (by cases k <;> rfl)

theorem functionFree_memberChain (k : Nat) : (memberChain k).functionFree = true := by
  induction k with
  | zero => rfl
  | succ k ih => simp [memberChain, ih]

theorem valid_memberLexemes (k : Nat) : ∀ l ∈ memberLexemes k, l.Valid := by
  have hname : (Lexeme.name "x").Valid :=
    ⟨⟨'x', rfl, rfl⟩, all_eq_true.1 (by decide), fun word => by cases word <;> decide⟩
  induction k with
  | zero => simpa [memberLexemes] using hname
  | succ k ih =>
    rw [memberLexemes, forall_mem_append]
    exact ⟨ih, forall_mem_cons.2 ⟨trivial, forall_mem_singleton.2 hname⟩⟩

theorem descends_of_unranged {e : Exp} {k : Nat} (h : e.unranged = (memberChain k).unranged) :
    (Node.exp e).Descends 0 k := by
  induction k generalizing e with
  | zero => exact .here
  | succ k ih =>
    cases e <;> simp only [memberChain, Exp.unranged, reduceCtorEq, Exp.index.injEq] at h
    exact .left rfl (ih h.2.1)

namespace Parser

variable {below : Level} {n : Nat} {ts : List TokenKind} {e : Exp}

theorem consumes_blockEnds {α : Type} {f : Bool → Parser α} {k : TokenKind} {Q : α → Prop}
    (hk : k.startsExp = true ∨ k = .keyword .kReturn) (h : Consumes (f false) (k :: ts) [] Q) :
    Consumes (blockEnds >>= f) (k :: ts) [] Q := by
  intro s hs
  have hends : (blockEnds : Parser Bool).run s = .ok (false, s) := by
    rw [blockEnds, run_peek_bind, hs]
    rcases hk with hk | rfl
    · cases k with
      | keyword word => cases word <;> first | rfl | cases hk
      | _ => rfl
    · rfl
  rw [run_bind_of_ok hends]
  exact h s hs

theorem returnStat_complete (hb : below.Complete n) (hw : e.Written n ts)
    (hf : e.functionFree = true) :
    Consumes (returnStat below) (.keyword .kReturn :: ts) [] fun r =>
      ∃ e' ∈ r.values, e'.unranged = e.unranged := by
  obtain ⟨k, hk, hstarts⟩ := hw.starts.head
  obtain ⟨us, rfl⟩ : ∃ us, ts = k :: us := head?_eq_some_iff.1 hk
  refine .here fun start => .advance (consumes_blockEnds (.inl hstarts) (.peek ?_))
  have hsemi : (k :: us ++ []).head? ≠ some (.symbol .semi) := hw.starts.head?_ne rfl
  rw [Bool.false_or, if_neg (by simpa using hsemi)]
  refine .bind_rest (expList_complete hb (.one hw) (by simpa using hf) nofun nofun) fun es hes =>
    .eat_other nofun (.last fun range => .pure ?_)
  cases es with
  | nil => cases hes
  | cons e' es => exact ⟨e', mem_cons_self, (List.cons.inj hes).1⟩

theorem block_complete (hb : below.Complete n) (hw : e.Written n ts) (hf : e.functionFree = true) :
    Consumes (block below) (.keyword .kReturn :: ts) [] fun b =>
      ∃ r, b.ret = some r ∧ ∃ e' ∈ r.values, e'.unranged = e.unranged := by
  refine .here fun start => .remaining ?_
  have hstats : Consumes (statements below (ts.length + 1)) (.keyword .kReturn :: ts) [] fun x =>
      ∃ r, x.2 = some r ∧ ∃ e' ∈ r.values, e'.unranged = e.unranged := by
    rw [statements]
    exact consumes_blockEnds (.inr rfl)
      (.peek (.give (returnStat_complete hb hw hf) fun r hr => ⟨r, rfl, hr⟩))
  rw [append_nil]
  exact .bind_rest hstats fun x hx => .last fun range => .pure hx

theorem chunk_complete (hw : e.Written n ts) (hf : e.functionFree = true) :
    Consumes (chunk n) (.keyword .kReturn :: ts) [] fun c =>
      ∃ r, c.block.ret = some r ∧ ∃ e' ∈ r.values, e'.unranged = e.unranged :=
  .bind_rest (block_complete levels_complete hw hf) fun _ hblock =>
    .peek (.here fun _ => .pure hblock)

end Parser

namespace Source

/-- Every `return` of an expression without functions whose tokens can be printed is the text of a
tree. -/
theorem exists_tree_print {ls : List Lexeme} {e : Exp} (hls : ∀ l ∈ ls, l.Valid)
    (hw : e.Written Parser.maxLevels (ls.map Lexeme.kind)) (hf : e.functionFree = true) :
    ∃ chunk r, (parse (Lexeme.print (.keyword .kReturn :: ls))).tree = .ok chunk ∧
      chunk.block.ret = some r ∧
      ∃ e' ∈ r.values, e'.unranged = e.unranged := by
  have hvalid : ∀ l ∈ .keyword .kReturn :: ls, l.Valid := forall_mem_cons.2 ⟨trivial, hls⟩
  generalize hstop : Glyph.endOf {} (Glyph.ofText (Lexeme.print (.keyword .kReturn :: ls))) = stop
  obtain ⟨hhash, tokens, hkinds, hpieces⟩ := Lexer.pieces_ofText hvalid stop
  obtain ⟨chunk, ⟨r, hret, he⟩, hrun⟩ :=
    Parser.chunk_complete hw hf { tokens, stop } (hkinds.trans (append_nil _).symm)
  refine ⟨chunk, r, ?_, hret, he⟩
  simp [parse, tokenize, hstop, hhash, hpieces, Except.map, filterMap_flatMap, parseTokens, hrun]

theorem exists_descends (k : Nat) :
    ∃ chunk, (parse (Lexeme.print (.keyword .kReturn :: memberLexemes k))).tree = .ok chunk ∧
    (Node.block chunk.block).Descends 2 k := by
  obtain ⟨chunk, r, htree, hret, e, he, hchain⟩ :=
    exists_tree_print (valid_memberLexemes k) (written_memberChain _ k) (functionFree_memberChain k)
  have hvalue : (Node.ret r).Descends 1 k :=
    .nested (by simpa [Node.nested, Node.rows] using he) (descends_of_unranged hchain)
  exact ⟨chunk, htree, .nested (by simp [Node.nested, Node.rows, hret]) hvalue⟩

/-- Of the steps down the tree of a text, all but those to left operands and prefixes are bounded by
the limit on levels. -/
theorem nested_steps_le (text : String) (chunk : Chunk) (h : (parse text).tree = .ok chunk)
    (i j : Nat) (hd : (Node.block chunk.block).Descends i j) : i ≤ 4 * Parser.maxLevels + 2 := by
  obtain ⟨lexed, -, hparse⟩ := tokens_of_parse h
  exact hd.le (.block (parseTokens_reads hparse).1)

theorem nested_steps_le_member :
    ∃ chunk, (parse (Lexeme.print (.keyword .kReturn :: memberLexemes 1))).tree = .ok chunk ∧
    (Node.block chunk.block).Descends 2 1 ∧ 2 ≤ 4 * Parser.maxLevels + 2 := by
  obtain ⟨chunk, h, hd⟩ := exists_descends 1
  exact ⟨chunk, h, hd, nested_steps_le _ chunk h 2 1 hd⟩

/-- No bound holds for the heights of all trees. -/
theorem height_unbounded : ¬ ∃ bound, ∀ text chunk, (parse text).tree = .ok chunk →
    ∀ i j, (Node.block chunk.block).Descends i j → i + j ≤ bound := by
  rintro ⟨bound, h⟩
  obtain ⟨chunk, htree, hd⟩ := exists_descends bound
  have := h _ chunk htree _ _ hd
  omega

end Source

end LuaAnalysis
