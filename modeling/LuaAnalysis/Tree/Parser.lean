import LuaAnalysis.Token.Lexer
import LuaAnalysis.Tree.Basic

/-!
# From tokens to a tree

Statements and sub-expressions open levels, and only so many levels may be open at once. The parsers of one level are
built from the parsers of the level below (`Level`), and `levels n` allows `n` more levels; everything between two
levels is read by plain recursion over the tokens. Every round of a loop takes a token, so the number of tokens left
bounds the rounds.
-/

namespace LuaAnalysis

/-- The tokens that are still to be read, the range of the last one that was, and where the text ends. -/
structure TokenStream where
  tokens : List Token
  stop : Position
  last : TextRange := {}
deriving DecidableEq, Repr, Inhabited

/-- A reader of tokens, on top of what else is kept while reading. -/
abbrev ParserT := StateT TokenStream

/-- A reader of tokens that may refuse them. -/
abbrev Parser := ParserT (Except SyntaxError)

namespace Parser

variable {m : Type → Type} [Monad m] [MonadExceptOf SyntaxError m]

/-! ## Single tokens -/

def peek : ParserT m (Option TokenKind) :=
  return (← get).tokens.head?.map (·.kind)

def peekSecond : ParserT m (Option TokenKind) :=
  return (← get).tokens[1]?.map (·.kind)

def here : ParserT m TextRange := do
  let s ← get
  match s.tokens with
  | t :: _ => return t.range
  | [] => return ⟨s.stop, s.stop⟩

def last : ParserT m TextRange :=
  return (← get).last

def remaining : ParserT m Nat :=
  return (← get).tokens.length

def advance : ParserT m Unit :=
  modify fun s =>
    match s.tokens with
    | t :: ts => { s with tokens := ts, last := t.range }
    | [] => s

def failAt (p : Position) (fault : SyntaxFault) : ParserT m α :=
  throw ⟨p, fault⟩

def fail (fault : SyntaxFault) : ParserT m α := do
  failAt (← here).start fault

def eat (kind : TokenKind) : ParserT m Bool := do
  if (← peek) == some kind then
    advance
    return true
  return false

def eatSymbol (s : Symbol) : ParserT m Bool := eat (.symbol s)
def eatKeyword (k : Keyword) : ParserT m Bool := eat (.keyword k)

def expect (kind : TokenKind) : ParserT m Unit := do
  unless ← eat kind do
    fail (.expected kind.describe (← peek))

def expectSymbol (s : Symbol) : ParserT m Unit := expect (.symbol s)
def expectKeyword (k : Keyword) : ParserT m Unit := expect (.keyword k)

/-- Takes the token that closes what `opener` opened at a position. The message names the opener when it stands on
another line. -/
def expectClose (kind : TokenKind) (opener : String) (opened : Position) : ParserT m Unit := do
  unless ← eat kind do
    if (← here).start.line == opened.line then
      fail (.expected kind.describe (← peek))
    else
      fail (.unclosed kind.describe opener opened.line (← peek))

def name : ParserT m Name := do
  let range ← here
  match ← peek with
  | some (.name text) =>
    advance
    return ⟨text, range⟩
  | near => fail (.expected "<name>" near)

/-! ## Lists -/

def moreItems (separator : Symbol) (item : ParserT m α) : Nat → ParserT m (List α)
  | 0 => return []
  | n + 1 => do
    if ← eatSymbol separator then
      let x ← item
      return x :: (← moreItems separator item n)
    return []

def items (separator : Symbol) (item : ParserT m α) : ParserT m (List α) := do
  let x ← item
  return x :: (← moreItems separator item (← remaining))

/-! ## Levels -/

/-- The parsers that open a level. -/
structure LevelT (m : Type → Type) where
  /-- A sub-expression whose operators bind their left operand more strongly than `limit`. -/
  exp (limit : Nat) : ParserT m Exp
  stat : ParserT m Stat

abbrev Level := LevelT (Except SyntaxError)

/-- The level that may not be opened. -/
def LevelT.closed : LevelT m where
  exp _ := fail .tooManyLevels
  stat := fail .tooManyLevels

def LevelT.anyExp (below : LevelT m) : ParserT m Exp :=
  below.exp 0

def LevelT.expList (below : LevelT m) : ParserT m (List Exp) :=
  items .comma below.anyExp

/-! ## Blocks -/

def blockEnds : ParserT m Bool := do
  match ← peek with
  | none => return true
  | some (.keyword .kElse) | some (.keyword .kElseif) | some (.keyword .kEnd) | some (.keyword .kUntil) =>
    return true
  | _ => return false

def returnStat (below : LevelT m) : ParserT m ReturnStat := do
  let start ← here
  advance
  let values ←
    if (← blockEnds) || (← peek) == some (.symbol .semi) then pure []
    else below.expList
  let _ ← eatSymbol .semi
  return ⟨start.cover (← last), values⟩

def statements (below : LevelT m) : Nat → ParserT m (List Stat × Option ReturnStat)
  | 0 => return ([], none)
  | n + 1 => do
    if ← blockEnds then return ([], none)
    if (← peek) == some (.keyword .kReturn) then return ([], some (← returnStat below))
    let s ← below.stat
    let (stats, ret) ← statements below n
    return (s :: stats, ret)

def blockStop (start : Position) (last : TextRange) (stats : List Stat) (ret : Option ReturnStat) : Position :=
  if stats.isEmpty && ret.isNone then start else max last.stop start

def block (below : LevelT m) : ParserT m Block := do
  let start := (← here).start
  let (stats, ret) ← statements below (← remaining)
  return ⟨⟨start, blockStop start (← last) stats ret⟩, stats, ret⟩

/-! ## Functions -/

/-- Parameters up to `...` or the last name, in at most this many rounds, and whether `...` is among them. -/
def parameters : Nat → ParserT m (List Name × Bool)
  | 0 => return ([], false)
  | n + 1 => do
    if ← eatSymbol .ellipsis then return ([], true)
    let p ← name
    if ← eatSymbol .comma then
      let (more, isVararg) ← parameters n
      return (p :: more, isVararg)
    return ([p], false)

/-- The part of a function from its parameters on. `start` is where the function begins; a method has the parameter
`self`, which stands at the opening parenthesis. -/
def functionBody (below : LevelT m) (start : TextRange) (isMethod : Bool) : ParserT m FunctionBody := do
  expectSymbol .lparen
  let paren ← last
  let implicit : List Name := if isMethod then [⟨"self", paren⟩] else []
  let (explicit, isVararg) ←
    if (← peek) == some (.symbol .rparen) then pure ([], false)
    else parameters ((← remaining) + 1)
  expectSymbol .rparen
  let body ← block below
  expectClose (.keyword .kEnd) "function" start.start
  return ⟨start.cover (← last), implicit ++ explicit, isVararg, body⟩

/-! ## Expressions -/

def field (below : LevelT m) : ParserT m Field := do
  match ← peek, ← peekSecond with
  | some (.name _), some (.symbol .assign) =>
    let key ← name
    advance
    return .named key (← below.anyExp)
  | some (.symbol .lbracket), _ =>
    advance
    let key ← below.anyExp
    expectSymbol .rbracket
    expectSymbol .assign
    return .keyed key (← below.anyExp)
  | _, _ => return .positional (← below.anyExp)

/-- Fields up to the closing brace, in at most this many rounds. -/
def fields (below : LevelT m) : Nat → ParserT m (List Field)
  | 0 => return []
  | n + 1 => do
    if (← peek) == some (.symbol .rbrace) then return []
    let f ← field below
    if ← eatSymbol .comma then return f :: (← fields below n)
    if ← eatSymbol .semi then return f :: (← fields below n)
    return [f]

def table (below : LevelT m) : ParserT m Exp := do
  let start ← here
  expectSymbol .lbrace
  let fs ← fields below ((← remaining) + 1)
  expectClose (.symbol .rbrace) "\x7b" start.start
  return .table (start.cover (← last)) fs

def arguments (below : LevelT m) : ParserT m (List Exp) := do
  let start ← here
  match ← peek with
  | some (.string text) =>
    advance
    return [.string start text]
  | some (.symbol .lbrace) => return [← table below]
  | some (.symbol .lparen) =>
    advance
    let args ←
      if (← peek) == some (.symbol .rparen) then pure []
      else below.expList
    expectClose (.symbol .rparen) "(" start.start
    return args
  | near => fail (.expected "function arguments" near)

def primary (below : LevelT m) : ParserT m Exp := do
  let start ← here
  match ← peek with
  | some (.name text) =>
    advance
    return .name start text
  | some (.symbol .lparen) =>
    advance
    let inner ← below.anyExp
    expectClose (.symbol .rparen) "(" start.start
    return .paren (start.cover (← last)) inner
  | near => fail (.unexpected near)

/-- The indexings and calls that follow an expression, in at most this many rounds. -/
def suffixes (below : LevelT m) : Nat → Exp → ParserT m Exp
  | 0, e => return e
  | n + 1, e => do
    match ← peek with
    | some (.symbol .dot) =>
      advance
      let key ← name
      suffixes below n (.index (e.range.cover key.range) e (.string key.range key.text) true)
    | some (.symbol .lbracket) =>
      advance
      let key ← below.anyExp
      expectSymbol .rbracket
      suffixes below n (.index (e.range.cover (← last)) e key false)
    | some (.symbol .colon) =>
      advance
      let method ← name
      let args ← arguments below
      suffixes below n (.methodCall (e.range.cover (← last)) e method args)
    | some (.symbol .lparen) | some (.symbol .lbrace) | some (.string _) =>
      let args ← arguments below
      suffixes below n (.call (e.range.cover (← last)) e args)
    | _ => return e

/-- A name or parenthesised expression with its indexings and calls. -/
def suffixed (below : LevelT m) : ParserT m Exp := do
  let e ← primary below
  suffixes below (← remaining) e

def simple (below : LevelT m) : ParserT m Exp := do
  let start ← here
  match ← peek with
  | some (.number n) => literal (.number start n)
  | some (.string text) => literal (.string start text)
  | some (.keyword .kNil) => literal (.nil start)
  | some (.keyword .kTrue) => literal (.bool start true)
  | some (.keyword .kFalse) => literal (.bool start false)
  | some (.symbol .ellipsis) => literal (.vararg start)
  | some (.symbol .lbrace) => table below
  | some (.keyword .kFunction) =>
    advance
    let body ← functionBody below start false
    return .function (start.cover body.range) body
  | _ => suffixed below
where
  /-- An expression of one token. -/
  literal (e : Exp) : ParserT m Exp := do
    advance
    return e

def binaryOp? : TokenKind → Option BinOp
  | .keyword .kOr => some .or
  | .keyword .kAnd => some .and
  | .symbol s =>
    match s with
    | .lt => some .lt
    | .gt => some .gt
    | .le => some .le
    | .ge => some .ge
    | .notEq => some .ne
    | .eqEq => some .eq
    | .pipe => some .bor
    | .tilde => some .bxor
    | .ampersand => some .band
    | .shl => some .shl
    | .shr => some .shr
    | .concat => some .concat
    | .plus => some .add
    | .minus => some .sub
    | .star => some .mul
    | .slash => some .div
    | .doubleSlash => some .idiv
    | .percent => some .mod
    | .caret => some .pow
    | _ => none
  | _ => none

def unaryOp? : TokenKind → Option UnOp
  | .keyword .kNot => some .not
  | .symbol .minus => some .neg
  | .symbol .hash => some .len
  | .symbol .tilde => some .bnot
  | _ => none

/-- The binary operators that bind more strongly than `limit` and their right operands, in at most this many rounds. -/
def operators (below : LevelT m) (limit : Nat) : Nat → Exp → ParserT m Exp
  | 0, lhs => return lhs
  | n + 1, lhs => do
    match (← peek).bind binaryOp? with
    | none => return lhs
    | some op =>
      if op.leftPriority ≤ limit then return lhs
      advance
      let rhs ← below.exp op.rightPriority
      operators below limit n (.binary (lhs.range.cover rhs.range) op lhs rhs)

/-- The first operand: an expression without operators, or a unary operator with its operand. -/
def operand (below : LevelT m) : ParserT m Exp := do
  let start ← here
  match (← peek).bind unaryOp? with
  | some op =>
    advance
    let e ← below.exp UnOp.priority
    return .unary (start.cover e.range) op e
  | none => simple below

def subExp (below : LevelT m) (limit : Nat) : ParserT m Exp := do
  let lhs ← operand below
  operators below limit (← remaining) lhs

/-! ## Statements -/

def clause (below : LevelT m) : ParserT m Clause := do
  let cond ← below.anyExp
  expectKeyword .kThen
  return ⟨cond, ← block below⟩

/-- The `elseif` clauses, in at most this many rounds. -/
def moreClauses (below : LevelT m) : Nat → ParserT m (List Clause)
  | 0 => return []
  | n + 1 => do
    if ← eatKeyword .kElseif then
      let c ← clause below
      return c :: (← moreClauses below n)
    return []

def ifStat (below : LevelT m) (start : TextRange) : ParserT m (TextRange → Stat) := do
  advance
  let first ← clause below
  let more ← moreClauses below (← remaining)
  let orElse ←
    if ← eatKeyword .kElse then some <$> block below
    else pure none
  expectClose (.keyword .kEnd) "if" start.start
  return (.ifChain · (first :: more) orElse)

def loopBlock (below : LevelT m) (opener : String) (start : TextRange) : ParserT m Block := do
  expectKeyword .kDo
  let body ← block below
  expectClose (.keyword .kEnd) opener start.start
  return body

def forStat (below : LevelT m) (start : TextRange) : ParserT m (TextRange → Stat) := do
  advance
  let var ← name
  if ← eatSymbol .assign then
    let first ← below.anyExp
    expectSymbol .comma
    let limit ← below.anyExp
    let step ←
      if ← eatSymbol .comma then some <$> below.anyExp
      else pure none
    let body ← loopBlock below "for" start
    return (.numericFor · var first limit step body)
  let more ← moreItems .comma name (← remaining)
  unless ← eatKeyword .kIn do
    fail (.expected "'=' or 'in'" (← peek))
  let values ← below.expList
  let body ← loopBlock below "for" start
  return (.genericFor · (var :: more) values body)

def functionName : ParserT m FunctionName := do
  let first ← name
  let more ← moreItems .dot name (← remaining)
  let method ←
    if ← eatSymbol .colon then some <$> name
    else pure none
  return ⟨first, more, method⟩

def localName : ParserT m LocalName := do
  let n ← name
  if ← eatSymbol .lt then
    let attrib ← name
    expectSymbol .gt
    match attrib.text with
    | "const" => return ⟨n, some .const⟩
    | "close" => return ⟨n, some .close⟩
    | other => failAt attrib.range.start (.unknownAttribute other)
  return ⟨n, none⟩

def localStat (below : LevelT m) (start : TextRange) : ParserT m (TextRange → Stat) := do
  advance
  if ← eatKeyword .kFunction then
    let n ← name
    let body ← functionBody below start false
    return (.localFunction · n body)
  let names ← items .comma localName
  let values ←
    if ← eatSymbol .assign then below.expList
    else pure []
  return (.locals · names values)

/-- Names and indexed values can be assigned to. -/
def isAssignable : Exp → Bool
  | .name .. | .index .. => true
  | _ => false

def isCall : Exp → Bool
  | .call .. | .methodCall .. => true
  | _ => false

def expStat (below : LevelT m) : ParserT m (TextRange → Stat) := do
  let first ← suffixed below
  if (← peek) == some (.symbol .assign) || (← peek) == some (.symbol .comma) then
    let more ← moreItems .comma (suffixed below) (← remaining)
    match (first :: more).find? (!isAssignable ·) with
    | some target => failAt target.range.start .notAssignable
    | none =>
      expectSymbol .assign
      let values ← below.expList
      return (.assign · (first :: more) values)
  unless isCall first do
    failAt first.range.start .notAStatement
  return (.call · first)

/-- A statement without its range; the range is known once it has been read. -/
def statBody (below : LevelT m) (start : TextRange) : ParserT m (TextRange → Stat) := do
  match ← peek with
  | some (.symbol .semi) =>
    advance
    return .empty
  | some (.keyword .kIf) => ifStat below start
  | some (.keyword .kWhile) =>
    advance
    let cond ← below.anyExp
    let body ← loopBlock below "while" start
    return (.whileLoop · cond body)
  | some (.keyword .kDo) =>
    let body ← loopBlock below "do" start
    return (.doBlock · body)
  | some (.keyword .kFor) => forStat below start
  | some (.keyword .kRepeat) =>
    advance
    let body ← block below
    expectClose (.keyword .kUntil) "repeat" start.start
    let cond ← below.anyExp
    return (.repeatLoop · body cond)
  | some (.keyword .kFunction) =>
    advance
    let n ← functionName
    let body ← functionBody below start n.method.isSome
    return (.function · n body)
  | some (.keyword .kLocal) => localStat below start
  | some (.symbol .doubleColon) =>
    advance
    let n ← name
    expectSymbol .doubleColon
    return (.label · n)
  | some (.keyword .kBreak) =>
    advance
    return .breakLoop
  | some (.keyword .kGoto) =>
    advance
    let n ← name
    return (.goto · n)
  | _ => expStat below

def stat (below : LevelT m) : ParserT m Stat := do
  let start ← here
  let make ← statBody below start
  return make (start.cover (← last))

/-! ## A whole text -/

def LevelT.above (below : LevelT m) : LevelT m where
  exp := subExp below
  stat := Parser.stat below

def levels : Nat → Level
  | 0 => .closed
  | n + 1 => (levels n).above

/-- How many levels of statements and sub-expressions may be open at once. -/
def maxLevels : Nat := 200

def wholeText (top : LevelT m) : ParserT m Chunk := do
  let body ← block top
  match ← peek with
  | none => return ⟨⟨{}, (← here).stop⟩, body⟩
  | near => fail (.expected "'<eof>'" near)

/-- The tree of all tokens, with at most `limit` levels open at once. -/
def chunk (limit : Nat) : Parser Chunk :=
  wholeText (levels limit)

end Parser

def parseTokens (limit : Nat) (tokens : List Token) (stop : Position) : Except SyntaxError Chunk :=
  ((Parser.chunk limit).run { tokens, stop }).map (·.1)

end LuaAnalysis
