import LuaAnalysis.Source.CommentTable
import LuaAnalysis.Source.Directive
import LuaAnalysis.Tree.Parser

/-!
# A source text and what was read from it

The tree or the one error that refused it, the comment blocks, and the directives. A text that cannot be cut into tokens
has no comments.
-/

namespace LuaAnalysis

structure Source where
  text : String
  tree : Except SyntaxError Chunk
  comments : CommentTable
  directives : Directives
deriving Inhabited

namespace Source

def parse (text : String) : Source :=
  let directives := Directives.ofText text
  match tokenize text with
  | .error e => { text, tree := .error e, comments := {}, directives }
  | .ok lexed =>
    { text
      tree := parseTokens Parser.maxLevels lexed.tokens lexed.stop
      comments := .ofComments lexed.comments
      directives }

def chunk? (s : Source) : Option Chunk :=
  s.tree.toOption

def error? (s : Source) : Option SyntaxError :=
  match s.tree with
  | .error e => some e
  | .ok _ => none

def hasErrors (s : Source) : Bool :=
  s.error?.isSome

def lineCount (s : Source) : Nat :=
  (Text.lines s.text.toList).length

def line? (s : Source) (n : Nat) : Option String :=
  Text.line? s.text n

end Source

end LuaAnalysis
