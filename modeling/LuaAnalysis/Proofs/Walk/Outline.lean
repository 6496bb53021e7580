import LuaAnalysis.Tree.Basic

/-!
# Outlines

What a tree says about jumps: its labels and `goto` statements in order, the blocks that have scopes
of their own, and the bodies of functions. A `goto` sees the labels that stand directly in the
blocks around it, up to the body of its function. Which jumps see no label of their name can be read
off an outline (`Outline.lostGotos`).
-/

namespace LuaAnalysis

inductive Outline where
  | done
  | goto (name : Name) (rest : Outline)
  | label (name : Name) (rest : Outline)
  /-- A block with a scope of its own. -/
  | scope (body rest : Outline)
  | function (body rest : Outline)

/-- A `goto` with the names of the labels that it sees. -/
structure Jump where
  label : Name
  seen : List String

namespace Outline

def append : Outline → Outline → Outline
  | done, o => o
  | goto name rest, o => goto name (rest.append o)
  | label name rest, o => label name (rest.append o)
  | scope body rest, o => scope body (rest.append o)
  | function body rest, o => function body (rest.append o)

instance : Append Outline := ⟨append⟩

theorem append_done {o : Outline} : o ++ done = o := by
  induction o with
  | done => rfl
  | goto name rest ih => exact congrArg (goto name) ih
  | label name rest ih => exact congrArg (label name) ih
  | scope body rest _ ih => exact congrArg (scope body) ih
  | function body rest _ ih => exact congrArg (function body) ih

theorem append_assoc {a b c : Outline} : a ++ b ++ c = a ++ (b ++ c) := by
  induction a with
  | done => rfl
  | goto name rest ih => exact congrArg (goto name) ih
  | label name rest ih => exact congrArg (label name) ih
  | scope body rest _ ih => exact congrArg (scope body) ih
  | function body rest _ ih => exact congrArg (function body) ih

/-- The labels that stand directly in a block. -/
def labels : Outline → List String
  | done => []
  | label name rest => name.text :: rest.labels
  | goto _ rest | scope _ rest | function _ rest => rest.labels

/-- The jumps of a function, without those of the functions inside it. `seen` are the labels of the
blocks around. -/
def jumps (seen : List String) : Outline → List Jump
  | done => []
  | goto name rest => ⟨name, seen⟩ :: rest.jumps seen
  | scope body rest => body.jumps (body.labels ++ seen) ++ rest.jumps seen
  | label _ rest | function _ rest => rest.jumps seen

/-- The bodies of the functions, each after those of the functions inside it. -/
def bodies : Outline → List Outline
  | done => []
  | goto _ rest | label _ rest => rest.bodies
  | scope body rest => body.bodies ++ rest.bodies
  | function body rest => body.bodies ++ body :: rest.bodies

def lostJumps (body : Outline) : List Name :=
  ((body.jumps body.labels).filter fun j => !j.seen.contains j.label.text).map (·.label)

/-- The labels of all jumps that see no label of their name. -/
def lostGotos (o : Outline) : List Name :=
  (o.bodies ++ [o]).flatMap (·.lostJumps)

end Outline

/-! ## Trees -/

mutual

def Exp.outline : Exp → Outline
  | .function _ body => .function body.outline .done
  | .table _ fields => Field.outlines fields
  | .index _ obj key _ => obj.outline ++ key.outline
  | .call _ func args => func.outline ++ Exp.outlines args
  | .methodCall _ obj _ args => obj.outline ++ Exp.outlines args
  | .binary _ _ lhs rhs => lhs.outline ++ rhs.outline
  | .unary _ _ operand => operand.outline
  | .paren _ inner => inner.outline
  | .nil _ | .bool _ _ | .vararg _ | .number _ _ | .string _ _ | .name _ _ => .done

def Exp.outlines : List Exp → Outline
  | [] => .done
  | e :: es => e.outline ++ Exp.outlines es

def Field.outlines : List Field → Outline
  | [] => .done
  | .named _ value :: rest => value.outline ++ Field.outlines rest
  | .keyed key value :: rest => key.outline ++ (value.outline ++ Field.outlines rest)
  | .positional value :: rest => value.outline ++ Field.outlines rest

def FunctionBody.outline : FunctionBody → Outline
  | ⟨_, _, _, block⟩ => block.outline

def Block.outline : Block → Outline
  | ⟨_, stats, ret⟩ => Stat.outlines stats ++ ReturnStat.outline? ret

def ReturnStat.outline? : Option ReturnStat → Outline
  | none => .done
  | some ret => ret.outline

def ReturnStat.outline : ReturnStat → Outline
  | ⟨_, values⟩ => Exp.outlines values

def Stat.outlines : List Stat → Outline
  | [] => .done
  | s :: ss => s.outline ++ Stat.outlines ss

def Stat.outline : Stat → Outline
  | .locals _ _ values => Exp.outlines values
  | .localFunction _ _ body => .function body.outline .done
  | .function _ _ body => .function body.outline .done
  | .assign _ targets values => Exp.outlines values ++ Exp.outlines targets
  | .call _ e => e.outline
  | .doBlock _ block => .scope block.outline .done
  | .whileLoop _ cond block => cond.outline ++ .scope block.outline .done
  | .repeatLoop _ block cond => .scope (block.outline ++ cond.outline) .done
  | .ifChain _ clauses orElse => Clause.outlines clauses ++ Block.elseOutline orElse
  | .numericFor _ _ first limit step block =>
    first.outline ++ (limit.outline ++ (Exp.outline? step ++ .scope block.outline .done))
  | .genericFor _ _ values block => Exp.outlines values ++ .scope block.outline .done
  | .goto _ label => .goto label .done
  | .label _ name => .label name .done
  | .empty _ | .breakLoop _ => .done

def Exp.outline? : Option Exp → Outline
  | none => .done
  | some e => e.outline

def Clause.outlines : List Clause → Outline
  | [] => .done
  | ⟨cond, block⟩ :: rest => cond.outline ++ (.scope block.outline .done ++ Clause.outlines rest)

def Block.elseOutline : Option Block → Outline
  | none => .done
  | some block => .scope block.outline .done

end

end LuaAnalysis
