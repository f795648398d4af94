import ScriptReader.Parse
import ScriptReader.Cursor.Command
import ScriptReader.Session.Command
import ScriptReader.Grammar.Stack
import ScriptReader.Tree.Same
import ScriptReader.Tree.Describe
import ScriptReader.Tree.Data
import ScriptReader.Proofs.Depth
import ScriptReader.Proofs.ExpressionPhrases
import ScriptReader.Proofs.StatementPhrases
import ScriptReader.Proofs.ExactGrammar
import ScriptReader.Proofs.MaximalMunch
import ScriptReader.Proofs.ParsedScripts
import ScriptReader.Proofs.NestingBound
import ScriptReader.Proofs.SpelledContents
import ScriptReader.Proofs.WellFormed
import ScriptReader.Proofs.Erasure
import ScriptReader.Proofs.Printing
import ScriptReader.Proofs.ReadingBack
import ScriptReader.Proofs.RoundTrip
import ScriptReader.Proofs.Failures
import ScriptReader.Proofs.Completions
import ScriptReader.Proofs.ExpressionFailures
import ScriptReader.Proofs.StatementFailures
import ScriptReader.Proofs.ProgramFailures
import ScriptReader.Proofs.Relocation
import ScriptReader.Proofs.ComparedRuns
import ScriptReader.Proofs.ComparedGrammar
import ScriptReader.Proofs.MoreLevels
import ScriptReader.Proofs.SyntaxErrors
import ScriptReader.Proofs.ErrorPlaces
import ScriptReader.Proofs.LimitCuts
import ScriptReader.Proofs.CompleteLines
import ScriptReader.Proofs.Concatenation
import ScriptReader.Proofs.Need
import ScriptReader.Proofs.LeastLimit
import ScriptReader.Proofs.SameTrees
import ScriptReader.Proofs.WrittenOut
import ScriptReader.Proofs.DepthAccounts
import ScriptReader.Proofs.Tiling
import ScriptReader.Proofs.StatementsInTurn
import ScriptReader.Proofs.StackRoom
import ScriptReader.Proofs.WorkedStack
import ScriptReader.Proofs.EscapingErrors
import ScriptReader.Proofs.RejectedTokens
import ScriptReader.Proofs.Nodes
import ScriptReader.Proofs.Layouts
import ScriptReader.Proofs.NodePlaces
import ScriptReader.Proofs.Neighbourhoods
import ScriptReader.Proofs.NumberTexts
import ScriptReader.Proofs.PrintedTexts
import ScriptReader.Proofs.NodeFields
import ScriptReader.Proofs.NodeTexts
import ScriptReader.Proofs.NodeViews
import ScriptReader.Proofs.FreeLayout
import ScriptReader.Proofs.NearestNumbers
import ScriptReader.Proofs.NumberLiterals
import ScriptReader.Proofs.OneEnd
import ScriptReader.Proofs.StreamPositions
