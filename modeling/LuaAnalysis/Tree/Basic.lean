import LuaAnalysis.Number.Numeral
import LuaAnalysis.Text.Position

/-!
# The tree of a Lua text

Every node carries the range of the text that it was read from. Parentheses are nodes of their own, because they cut a
list of values down to one.
-/

namespace LuaAnalysis

structure Name where
  text : String
  range : TextRange
deriving DecidableEq, Repr, Inhabited

/-! ## Operators -/

inductive BinOp where
  | add | sub | mul | div | idiv | mod | pow | concat
  | eq | ne | lt | le | gt | ge
  | and | or
  | band | bor | bxor | shl | shr
deriving DecidableEq, Repr, Inhabited

namespace BinOp

/-- Arithmetic and bitwise operators: both operands have to be numbers. -/
def isArithmetic : BinOp → Bool
  | add | sub | mul | div | idiv | mod | pow | band | bor | bxor | shl | shr => true
  | _ => false

def isComparison : BinOp → Bool
  | eq | ne | lt | le | gt | ge => true
  | _ => false

def isLogical : BinOp → Bool
  | and | or => true
  | _ => false

def text : BinOp → String
  | add => "+" | sub => "-" | mul => "*" | div => "/" | idiv => "//" | mod => "%" | pow => "^" | concat => ".."
  | eq => "==" | ne => "~=" | lt => "<" | le => "<=" | gt => ">" | ge => ">=" | and => "and" | or => "or"
  | band => "&" | bor => "|" | bxor => "~" | shl => "<<" | shr => ">>"

/-- How strongly an operator binds the operand on its left. -/
def leftPriority : BinOp → Nat
  | or => 1
  | and => 2
  | lt | gt | le | ge | ne | eq => 3
  | bor => 4
  | bxor => 5
  | band => 6
  | shl | shr => 7
  | concat => 9
  | add | sub => 10
  | mul | div | idiv | mod => 11
  | pow => 14

/-- How strongly an operator binds the operand on its right: concatenation and power group to the right. -/
def rightPriority : BinOp → Nat
  | concat => 8
  | pow => 13
  | op => op.leftPriority

end BinOp

inductive UnOp where
  | neg | not | len | bnot
deriving DecidableEq, Repr, Inhabited

def UnOp.priority : Nat := 12

/-! ## Nodes -/

inductive Attribute where
  | const | close
deriving DecidableEq, Repr, Inhabited

/-- A name of a `local` statement with its attribute. -/
structure LocalName where
  name : Name
  attrib : Option Attribute
deriving DecidableEq, Repr, Inhabited

/-- The name of a function statement: `a.b.c:m` has the first segment `a`, the segments `b` and `c` and the method
`m`. -/
structure FunctionName where
  first : Name
  more : List Name
  method : Option Name
deriving DecidableEq, Repr, Inhabited

mutual

inductive Exp where
  | nil (range : TextRange)
  | bool (range : TextRange) (value : Bool)
  | vararg (range : TextRange)
  | number (range : TextRange) (value : Numeral)
  | string (range : TextRange) (text : String)
  | name (range : TextRange) (text : String)
  | function (range : TextRange) (body : FunctionBody)
  | table (range : TextRange) (fields : List Field)
  /-- `obj.key`, where the key is a string and `dotted` holds, or `obj[key]`. -/
  | index (range : TextRange) (obj key : Exp) (dotted : Bool)
  | call (range : TextRange) (func : Exp) (args : List Exp)
  | methodCall (range : TextRange) (obj : Exp) (method : Name) (args : List Exp)
  | binary (range : TextRange) (op : BinOp) (lhs rhs : Exp)
  | unary (range : TextRange) (op : UnOp) (operand : Exp)
  | paren (range : TextRange) (inner : Exp)

inductive Field where
  | named (key : Name) (value : Exp)
  | keyed (key value : Exp)
  | positional (value : Exp)

structure FunctionBody where
  range : TextRange
  params : List Name
  isVararg : Bool
  block : Block

structure Block where
  range : TextRange
  stats : List Stat
  ret : Option ReturnStat

structure ReturnStat where
  range : TextRange
  values : List Exp

inductive Stat where
  | empty (range : TextRange)
  | locals (range : TextRange) (names : List LocalName) (values : List Exp)
  | localFunction (range : TextRange) (name : Name) (body : FunctionBody)
  | function (range : TextRange) (name : FunctionName) (body : FunctionBody)
  | assign (range : TextRange) (targets values : List Exp)
  | call (range : TextRange) (exp : Exp)
  | doBlock (range : TextRange) (block : Block)
  | whileLoop (range : TextRange) (cond : Exp) (block : Block)
  | repeatLoop (range : TextRange) (block : Block) (cond : Exp)
  | ifChain (range : TextRange) (clauses : List Clause) (orElse : Option Block)
  | numericFor (range : TextRange) (var : Name) (first limit : Exp) (step : Option Exp) (block : Block)
  | genericFor (range : TextRange) (names : List Name) (values : List Exp) (block : Block)
  | goto (range : TextRange) (label : Name)
  | label (range : TextRange) (name : Name)
  | breakLoop (range : TextRange)

/-- A condition of an `if` chain with the block that it guards. -/
structure Clause where
  cond : Exp
  block : Block

end

deriving instance Repr for Exp, Field, FunctionBody, Block, ReturnStat, Stat, Clause
deriving instance Inhabited for Exp, Field, Block, FunctionBody, ReturnStat, Stat, Clause

structure Chunk where
  range : TextRange
  block : Block
deriving Repr, Inhabited

namespace FunctionName

/-- The segments before the method. -/
def path (n : FunctionName) : List Name :=
  n.first :: n.more

def segments (n : FunctionName) : List Name :=
  n.path ++ n.method.toList

def range (n : FunctionName) : TextRange :=
  n.first.range.cover ((n.segments.getLast?.getD n.first).range)

/-- The name as written, with a colon before the method. -/
def display (n : FunctionName) : String :=
  let path := ".".intercalate (n.path.map (·.text))
  match n.method with
  | some m => s!"{path}:{m.text}"
  | none => path

end FunctionName

namespace Exp

def range : Exp → TextRange
  | nil r | bool r _ | vararg r | number r _ | string r _ | name r _ | function r _ | table r _ | index r _ _ _
  | call r _ _ | methodCall r _ _ _ | binary r _ _ _ | unary r _ _ | paren r _ => r

/-- The expression inside any number of parentheses. -/
def unparen : Exp → Exp
  | paren _ inner => inner.unparen
  | e => e

def asName? : Exp → Option String
  | name _ text => some text
  | _ => none

def asString? : Exp → Option String
  | string _ text => some text
  | _ => none

def isNil : Exp → Bool
  | nil _ => true
  | paren _ inner => inner.isNil
  | _ => false

/-- Calls and `...` may stand for any number of values. -/
def isMultiValue : Exp → Bool
  | call .. | methodCall .. | vararg _ => true
  | _ => false

/-- Whether evaluating it calls something on the way to its value. -/
def hasCall : Exp → Bool
  | call .. | methodCall .. => true
  | index _ obj key _ => obj.hasCall || key.hasCall
  | binary _ _ lhs rhs => lhs.hasCall || rhs.hasCall
  | unary _ _ operand => operand.hasCall
  | paren _ inner => inner.hasCall
  | _ => false

mutual

/-- Equality of the trees without their ranges. Numerals are equal when their numbers are, an indexing is the same in
both spellings, and two functions or tables are never the same. -/
def sameAs : Exp → Exp → Bool
  | nil _, nil _ => true
  | bool _ a, bool _ b => a == b
  | vararg _, vararg _ => true
  | number _ a, number _ b => a.sameValue b
  | string _ a, string _ b => a == b
  | name _ a, name _ b => a == b
  | index _ o k _, index _ o' k' _ => o.sameAs o' && k.sameAs k'
  | call _ f as, call _ f' as' => f.sameAs f' && sameList as as'
  | methodCall _ o m as, methodCall _ o' m' as' => o.sameAs o' && m.text == m'.text && sameList as as'
  | binary _ op l r, binary _ op' l' r' => op == op' && l.sameAs l' && r.sameAs r'
  | unary _ op e, unary _ op' e' => op == op' && e.sameAs e'
  | paren _ e, paren _ e' => e.sameAs e'
  | _, _ => false

def sameList : List Exp → List Exp → Bool
  | [], [] => true
  | a :: as, b :: bs => a.sameAs b && sameList as bs
  | _, _ => false

end

/-- A name with the keys that index it, outermost last: `a`, `a.b`, `a["b"].c`. There is none when a key is
computed. -/
def memberChain? : Exp → Option (List Name)
  | name r text => some [⟨text, r⟩]
  | index _ obj (string r text) _ => (obj.memberChain?).map (· ++ [⟨text, r⟩])
  | _ => none

end Exp

def Stat.range : Stat → TextRange
  | empty r | locals r _ _ | localFunction r _ _ | function r _ _ | assign r _ _ | call r _ | doBlock r _
  | whileLoop r _ _ | repeatLoop r _ _ | ifChain r _ _ | numericFor r _ _ _ _ _ | genericFor r _ _ _ | goto r _
  | label r _ | breakLoop r => r

end LuaAnalysis
