import LuaAnalysis.Main
import LuaAnalysis.Proofs.Check.Repeats
import LuaAnalysis.Proofs.Command.Coverage
import LuaAnalysis.Proofs.Project.Coloring
import LuaAnalysis.Proofs.Project.Context
import LuaAnalysis.Proofs.Project.Cycles
import LuaAnalysis.Proofs.Project.Early
import LuaAnalysis.Proofs.Project.Filters
import LuaAnalysis.Proofs.Project.Globals
import LuaAnalysis.Proofs.Project.Isolation
import LuaAnalysis.Proofs.Project.Jumps
import LuaAnalysis.Proofs.Project.LoadShape
import LuaAnalysis.Proofs.Project.Merging
import LuaAnalysis.Proofs.Project.Nesting
import LuaAnalysis.Proofs.Project.Settled
import LuaAnalysis.Proofs.Source.Annotation
import LuaAnalysis.Proofs.Source.CommentBlock
import LuaAnalysis.Proofs.Source.Directive
import LuaAnalysis.Proofs.Source.Override
import LuaAnalysis.Proofs.Token.Scanner
import LuaAnalysis.Proofs.Token.Numerals
import LuaAnalysis.Proofs.Tree.Height
import LuaAnalysis.Proofs.Tree.Levels
import LuaAnalysis.Proofs.Types.Compatible
