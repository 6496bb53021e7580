import LuaAnalysis.Text.Lines
import LuaAnalysis.Token.Basic

/-!
# Blocks of comments

Comments that stand alone on consecutive lines form one block; a comment after code is a block of its own.
-/

namespace LuaAnalysis

structure CommentBlock where
  lines : List String
  range : TextRange
  /-- The block stands alone; otherwise code stands before it. -/
  head : Bool
deriving DecidableEq, Repr, Inhabited

namespace CommentBlock

def ofComment (c : Comment) : CommentBlock :=
  { lines := Text.linesOf c.text, range := c.range, head := !c.trailing }

def continues (b : CommentBlock) (c : Comment) : Bool :=
  !c.trailing && b.head && b.range.stop.line + 1 == c.range.start.line

def extend (b : CommentBlock) (c : Comment) : CommentBlock :=
  { b with lines := b.lines ++ Text.linesOf c.text, range := b.range.cover c.range }

def group (b : CommentBlock) : List Comment → List CommentBlock
  | [] => [b]
  | c :: cs => if b.continues c then group (b.extend c) cs else b :: group (ofComment c) cs

end CommentBlock

structure CommentTable where
  blocks : List CommentBlock := []
deriving DecidableEq, Repr, Inhabited

namespace CommentTable

def ofComments : List Comment → CommentTable
  | [] => {}
  | c :: cs => ⟨CommentBlock.group (.ofComment c) cs⟩

/-- The block that stands alone and ends on the line above `line`; of several that end there the last one decides. -/
def headBlockBefore (t : CommentTable) (line : Nat) : Option CommentBlock :=
  ((t.blocks.filter fun b => b.range.stop.line + 1 == line).getLast?).filter (·.head)

def trailingOn (t : CommentTable) (line : Nat) : Option CommentBlock :=
  t.blocks.find? fun b => !b.head && b.range.start.line == line

end CommentTable

end LuaAnalysis
