import LuaAnalysis.Tree.Parser

/-!
# The grammar: which tokens write a tree

The judgments below follow the productions of Lua. Each relates a part of a tree to the tokens that
write it, ranges aside, and to the number of levels that may be open at once: a statement and a
sub-expression open one level each, so their parts are written with one level less. What a tree does
not record is free: how a call with one string or table spells its arguments, the separators of a
table and the semicolon after a return. The priorities of operators are side conditions of the two
productions for operators.
-/

namespace LuaAnalysis

/-! ## Tokens of names and operators -/

def BinOp.token : BinOp → TokenKind
  | .or => .keyword .kOr
  | .and => .keyword .kAnd
  | .lt => .symbol .lt
  | .gt => .symbol .gt
  | .le => .symbol .le
  | .ge => .symbol .ge
  | .ne => .symbol .notEq
  | .eq => .symbol .eqEq
  | .bor => .symbol .pipe
  | .bxor => .symbol .tilde
  | .band => .symbol .ampersand
  | .shl => .symbol .shl
  | .shr => .symbol .shr
  | .concat => .symbol .concat
  | .add => .symbol .plus
  | .sub => .symbol .minus
  | .mul => .symbol .star
  | .div => .symbol .slash
  | .idiv => .symbol .doubleSlash
  | .mod => .symbol .percent
  | .pow => .symbol .caret

def UnOp.token : UnOp → TokenKind
  | .not => .keyword .kNot
  | .neg => .symbol .minus
  | .len => .symbol .hash
  | .bnot => .symbol .tilde

def Name.token (n : Name) : TokenKind :=
  .name n.text

def Attribute.token : Attribute → TokenKind
  | .const => .name "const"
  | .close => .name "close"

def separated (separator : Symbol) : List (List TokenKind) → List TokenKind
  | [] => []
  | ts :: tss => ts ++ tss.flatMap (.symbol separator :: ·)

def Name.tokens (separator : Symbol) (names : List Name) : List TokenKind :=
  separated separator (names.map ([·.token]))

def LocalName.tokens (n : LocalName) : List TokenKind :=
  n.name.token :: match n.attrib with
    | some a => [.symbol .lt, a.token, .symbol .gt]
    | none => []

def FunctionName.tokens (n : FunctionName) : List TokenKind :=
  Name.tokens .dot n.path ++ match n.method with
    | some m => [.symbol .colon, m.token]
    | none => []

def parameterTokens (params : List Name) (isVararg : Bool) : List TokenKind :=
  separated .comma (params.map ([·.token]) ++ if isVararg then [[.symbol .ellipsis]] else [])

/-! ## Operators and what may stand beside them -/

namespace Exp

/-- Names, parentheses, indexings and calls are the expressions that can be indexed and called. -/
def takesSuffix : Exp → Bool
  | name .. | paren .. | index .. | call .. | methodCall .. => true
  | _ => false

/-- The operator of a binary node. -/
def rootOp? : Exp → Option BinOp
  | binary _ op _ _ => some op
  | _ => none

/-- How strongly the operators along the right edge bind their right operands. -/
def rightLimits : Exp → List Nat
  | binary _ op _ rhs => op.rightPriority :: rhs.rightLimits
  | unary _ _ operand => UnOp.priority :: operand.rightLimits
  | _ => []

variable {e : Exp}

theorem rightPriority_mem_rightLimits {op : BinOp} (h : e.rootOp? = some op) :
    op.rightPriority ∈ e.rightLimits := by
  cases e <;> cases h
  exact List.mem_cons_self

theorem rootOp?_of_takesSuffix (h : e.takesSuffix = true) : e.rootOp? = none := by
  cases e <;> simp_all [takesSuffix, rootOp?]

theorem rightLimits_of_takesSuffix (h : e.takesSuffix = true) : e.rightLimits = [] := by
  cases e <;> simp_all [takesSuffix, rightLimits]

end Exp

namespace Parser

def nextOp? (rest : List TokenKind) : Option BinOp :=
  rest.head?.bind binaryOp?

/-- What an expression leaves to its surroundings when operators were read as long as they bind more
strongly than `limit` and `rest` is behind it. -/
structure Delimited (limit : Nat) (e : Exp) (rest : List TokenKind) : Prop where
  root : ∀ op, e.rootOp? = some op → limit < op.leftPriority
  next : ∀ op, nextOp? rest = some op → op.leftPriority ≤ limit
  edge : ∀ op, nextOp? rest = some op → ∀ p ∈ e.rightLimits, op.leftPriority ≤ p

theorem binaryOp?_eq_some {k : TokenKind} {op : BinOp} : binaryOp? k = some op ↔ k = op.token := by
  constructor
  · intro h
    unfold binaryOp? at h
    split at h
    · cases h; rfl
    · cases h; rfl
    · split at h <;> cases h <;> rfl
    · cases h
  · rintro rfl
    cases op <;> rfl

theorem unaryOp?_eq_some {k : TokenKind} {op : UnOp} : unaryOp? k = some op ↔ k = op.token := by
  constructor
  · intro h
    unfold unaryOp? at h
    split at h <;> cases h <;> rfl
  · rintro rfl
    cases op <;> rfl

end Parser

/-! ## The productions -/

mutual

/-- The tokens `ts` write the expression `e`, with no more than `n` levels open at once, its own one
included. -/
inductive Exp.Written : Nat → Exp → List TokenKind → Prop
  | nil : Exp.Written (n + 1) (.nil r) [.keyword .kNil]
  | bool : Exp.Written (n + 1) (.bool r b) [.keyword (if b then .kTrue else .kFalse)]
  | vararg : Exp.Written (n + 1) (.vararg r) [.symbol .ellipsis]
  | number : Exp.Written (n + 1) (.number r v) [.number v]
  | string : Exp.Written (n + 1) (.string r text) [.string text]
  | name : Exp.Written (n + 1) (.name r text) [.name text]
  | function (hbody : FunctionBody.Written n false body ts) :
    Exp.Written (n + 1) (.function r body) (.keyword .kFunction :: ts)
  | table (hfields : Field.ListWritten n fields ts) :
    Exp.Written (n + 1) (.table r fields) (.symbol .lbrace :: ts ++ [.symbol .rbrace])
  | member (hobj : Exp.Written (n + 1) obj ts) (hsuffix : obj.takesSuffix = true) :
    Exp.Written (n + 1) (.index r obj (.string r' key) true) (ts ++ [.symbol .dot, .name key])
  | index (hobj : Exp.Written (n + 1) obj ts) (hsuffix : obj.takesSuffix = true)
      (hkey : Exp.Written n key us) :
    Exp.Written (n + 1) (.index r obj key false)
    (ts ++ .symbol .lbracket :: us ++ [.symbol .rbracket])
  | call (hfunc : Exp.Written (n + 1) func ts) (hsuffix : func.takesSuffix = true)
    (hargs : Exp.ArgsWritten n args us) :
    Exp.Written (n + 1) (.call r func args) (ts ++ us)
  | methodCall (hobj : Exp.Written (n + 1) obj ts) (hsuffix : obj.takesSuffix = true)
    (hargs : Exp.ArgsWritten n args us) :
    Exp.Written (n + 1) (.methodCall r obj method args) (ts ++ .symbol .colon :: method.token :: us)
  /-- No operator along the right edge of the left operand binds less strongly than this one, and
  the right operand is not one of an operator that binds less strongly. -/
  | binary (hlhs : Exp.Written (n + 1) lhs ts) (hrhs : Exp.Written n rhs us)
    (hleft : ∀ limit ∈ lhs.rightLimits, op.leftPriority ≤ limit)
    (hright : ∀ op', rhs.rootOp? = some op' → op.rightPriority < op'.leftPriority) :
    Exp.Written (n + 1) (.binary r op lhs rhs) (ts ++ op.token :: us)
  | unary (hoperand : Exp.Written n operand ts) (hpow : ∀ op', operand.rootOp? = some op' →
      op' = .pow) :
    Exp.Written (n + 1) (.unary r op operand) (op.token :: ts)
  | paren (hinner : Exp.Written n e ts) :
    Exp.Written (n + 1) (.paren r e) (.symbol .lparen :: ts ++ [.symbol .rparen])

/-- Expressions with commas between them, at least one. -/
inductive Exp.ListWritten : Nat → List Exp → List TokenKind → Prop
  | one (he : Exp.Written n e ts) : Exp.ListWritten n [e] ts
  | more (he : Exp.Written n e ts) (hes : Exp.ListWritten n es us) :
    Exp.ListWritten n (e :: es) (ts ++ .symbol .comma :: us)

/-- The arguments of a call: a list in parentheses, one string or one table. -/
inductive Exp.ArgsWritten : Nat → List Exp → List TokenKind → Prop
  | none : Exp.ArgsWritten n [] [.symbol .lparen, .symbol .rparen]
  | list (hargs : Exp.ListWritten n args ts) :
    Exp.ArgsWritten n args (.symbol .lparen :: ts ++ [.symbol .rparen])
  | string : Exp.ArgsWritten n [.string r text] [.string text]
  | table (hfields : Field.ListWritten n fields ts) :
    Exp.ArgsWritten n [.table r fields] (.symbol .lbrace :: ts ++ [.symbol .rbrace])

inductive Field.Written : Nat → Field → List TokenKind → Prop
  | named (hvalue : Exp.Written n value ts) :
    Field.Written n (.named key value) (key.token :: .symbol .assign :: ts)
  | keyed (hkey : Exp.Written n key ts) (hvalue : Exp.Written n value us) :
    Field.Written n (.keyed key value)
      (.symbol .lbracket :: ts ++ .symbol .rbracket :: .symbol .assign :: us)
  | positional (hvalue : Exp.Written n value ts) : Field.Written n (.positional value) ts

/-- Fields with a comma or a semicolon after each; the last one may stand without. -/
inductive Field.ListWritten : Nat → List Field → List TokenKind → Prop
  | none : Field.ListWritten n [] []
  | last (hf : Field.Written n f ts) : Field.ListWritten n [f] ts
  | more (hf : Field.Written n f ts) (hsep : separator = .comma ∨ separator = .semi)
    (hfs : Field.ListWritten n fs us) :
    Field.ListWritten n (f :: fs) (ts ++ .symbol separator :: us)

/-- A function from its parameters on. A method has the parameter `self`, which is not written. -/
inductive FunctionBody.Written : Nat → Bool → FunctionBody → List TokenKind → Prop
  | mk (himplicit : implicit.map Name.text = if isMethod then ["self"] else [])
    (hblock : Block.Written n block ts) :
    FunctionBody.Written n isMethod ⟨r, implicit ++ explicit, isVararg, block⟩
      (.symbol .lparen :: parameterTokens explicit isVararg ++ .symbol .rparen :: ts ++
        [.keyword .kEnd])

inductive Block.Written : Nat → Block → List TokenKind → Prop
  | mk (hstats : Stat.ListWritten n stats ret ts) : Block.Written n ⟨r, stats, ret⟩ ts

/-- The statements of a block and its return. -/
inductive Stat.ListWritten : Nat → List Stat → Option ReturnStat → List TokenKind → Prop
  | done : Stat.ListWritten n [] none []
  | ret (hret : ReturnStat.Written n ret ts) : Stat.ListWritten n [] (some ret) ts
  | stat (hstat : Stat.Written n stat ts) (hstats : Stat.ListWritten n stats ret us) :
    Stat.ListWritten n (stat :: stats) ret (ts ++ us)

/-- A return with an optional semicolon. -/
inductive ReturnStat.Written : Nat → ReturnStat → List TokenKind → Prop
  | bare (semicolon : Bool) :
    ReturnStat.Written n ⟨r, []⟩ (.keyword .kReturn :: if semicolon then [.symbol .semi] else [])
  | values (semicolon : Bool) (hvalues : Exp.ListWritten n values ts) :
    ReturnStat.Written n ⟨r, values⟩
    (.keyword .kReturn :: ts ++ if semicolon then [.symbol .semi] else [])

inductive Stat.Written : Nat → Stat → List TokenKind → Prop
  | empty : Stat.Written (n + 1) (.empty r) [.symbol .semi]
  | locals (hnames : names ≠ []) :
    Stat.Written (n + 1) (.locals r names [])
      (.keyword .kLocal :: separated .comma (names.map LocalName.tokens))
  | localsInit (hnames : names ≠ []) (hvalues : Exp.ListWritten n values ts) :
    Stat.Written (n + 1) (.locals r names values)
      (.keyword .kLocal :: separated .comma (names.map LocalName.tokens) ++ .symbol .assign :: ts)
  | localFunction (hbody : FunctionBody.Written n false body ts) :
    Stat.Written (n + 1) (.localFunction r name body)
    (.keyword .kLocal :: .keyword .kFunction :: name.token :: ts)
  | function (hbody : FunctionBody.Written n name.method.isSome body ts) :
    Stat.Written (n + 1) (.function r name body) (.keyword .kFunction :: name.tokens ++ ts)
  /-- Targets open no level of their own. -/
  | assign (htargets : Exp.ListWritten (n + 1) targets ts)
    (hassignable : ∀ e ∈ targets, Parser.isAssignable e = true)
    (hvalues : Exp.ListWritten n values us) :
    Stat.Written (n + 1) (.assign r targets values) (ts ++ .symbol .assign :: us)
  | call (hexp : Exp.Written (n + 1) e ts) (hcall : Parser.isCall e = true) :
    Stat.Written (n + 1) (.call r e) ts
  | doBlock (hblock : Block.Written n block ts) :
    Stat.Written (n + 1) (.doBlock r block) (.keyword .kDo :: ts ++ [.keyword .kEnd])
  | whileLoop (htest : Exp.Written n test ts) (hblock : Block.Written n block us) :
    Stat.Written (n + 1) (.whileLoop r test block)
      (.keyword .kWhile :: ts ++ .keyword .kDo :: us ++ [.keyword .kEnd])
  | repeatLoop (hblock : Block.Written n block ts) (htest : Exp.Written n test us) :
    Stat.Written (n + 1) (.repeatLoop r block test)
    (.keyword .kRepeat :: ts ++ .keyword .kUntil :: us)
  | ifChain (hclauses : Clause.ListWritten n clauses ts) :
    Stat.Written (n + 1) (.ifChain r clauses none) (.keyword .kIf :: ts ++ [.keyword .kEnd])
  | ifElse (hclauses : Clause.ListWritten n clauses ts) (helse : Block.Written n block us) :
    Stat.Written (n + 1) (.ifChain r clauses (some block))
      (.keyword .kIf :: ts ++ .keyword .kElse :: us ++ [.keyword .kEnd])
  | numericFor (hfirst : Exp.Written n first ts) (hlimit : Exp.Written n limit us)
      (hblock : Block.Written n block vs) :
    Stat.Written (n + 1) (.numericFor r var first limit none block)
      (.keyword .kFor :: var.token :: .symbol .assign :: ts ++ .symbol .comma :: us ++
        .keyword .kDo :: vs ++ [.keyword .kEnd])
  | steppedFor (hfirst : Exp.Written n first ts) (hlimit : Exp.Written n limit us)
      (hstep : Exp.Written n step ws)
    (hblock : Block.Written n block vs) :
    Stat.Written (n + 1) (.numericFor r var first limit (some step) block)
      (.keyword .kFor :: var.token :: .symbol .assign :: ts ++ .symbol .comma :: us ++
        .symbol .comma :: ws ++
        .keyword .kDo :: vs ++ [.keyword .kEnd])
  | genericFor (hnames : names ≠ []) (hvalues : Exp.ListWritten n values ts)
      (hblock : Block.Written n block us) :
    Stat.Written (n + 1) (.genericFor r names values block)
      (.keyword .kFor :: Name.tokens .comma names ++ .keyword .kIn :: ts ++ .keyword .kDo :: us ++
        [.keyword .kEnd])
  | goto : Stat.Written (n + 1) (.goto r label) [.keyword .kGoto, label.token]
  | label : Stat.Written (n + 1) (.label r name)
      [.symbol .doubleColon, name.token, .symbol .doubleColon]
  | breakLoop : Stat.Written (n + 1) (.breakLoop r) [.keyword .kBreak]

/-- Conditions with their blocks, joined by `elseif`. -/
inductive Clause.ListWritten : Nat → List Clause → List TokenKind → Prop
  | one (htest : Exp.Written n test ts) (hblock : Block.Written n block us) :
    Clause.ListWritten n [⟨test, block⟩] (ts ++ .keyword .kThen :: us)
  | more (htest : Exp.Written n test ts) (hblock : Block.Written n block us)
    (hclauses : Clause.ListWritten n clauses vs) :
    Clause.ListWritten n (⟨test, block⟩ :: clauses)
    (ts ++ .keyword .kThen :: us ++ .keyword .kElseif :: vs)

end

end LuaAnalysis
