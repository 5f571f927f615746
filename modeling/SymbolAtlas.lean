import SymbolAtlas.Config
import SymbolAtlas.Config.Environment
import SymbolAtlas.Declaration
import SymbolAtlas.Fault
import SymbolAtlas.Import
import SymbolAtlas.Language
import SymbolAtlas.Log
import SymbolAtlas.Outline
import SymbolAtlas.Path
import SymbolAtlas.Python.Grammar.Assignment
import SymbolAtlas.Python.Grammar.CasePattern
import SymbolAtlas.Python.Grammar.Collection
import SymbolAtlas.Python.Grammar.Expression
import SymbolAtlas.Python.Grammar.Goal
import SymbolAtlas.Python.Grammar.Operand
import SymbolAtlas.Python.Grammar.SimpleStatement
import SymbolAtlas.Python.Grammar.Statement
import SymbolAtlas.Python.Grammar.Target
import SymbolAtlas.Python.Grammar.Text
import SymbolAtlas.Python.Grammar.Types
import SymbolAtlas.Python.Layout
import SymbolAtlas.Python.Lexeme
import SymbolAtlas.Python.Lines.Declarations
import SymbolAtlas.Python.Lines.Imports
import SymbolAtlas.Python.Lines.Words
import SymbolAtlas.Python.Outline
import SymbolAtlas.Python.Parse
import SymbolAtlas.Python.Phrase
import SymbolAtlas.Python.Problem
import SymbolAtlas.Python.Remedy
import SymbolAtlas.Python.Remedy.Change
import SymbolAtlas.Python.Remedy.Site
import SymbolAtlas.Python.Source
import SymbolAtlas.Python.SyntaxTree
import SymbolAtlas.Python.Tree
import SymbolAtlas.Python.Tree.Declarations
import SymbolAtlas.Python.Tree.Imports
import SymbolAtlas.Python.Tree.References
import SymbolAtlas.Reader
import SymbolAtlas.Resolution
import SymbolAtlas.Script.Bracket
import SymbolAtlas.Script.Dialect
import SymbolAtlas.Script.ImportClause
import SymbolAtlas.Script.Outline
import SymbolAtlas.Script.Pattern
import SymbolAtlas.Script.RequireCall
import SymbolAtlas.Script.Signature
import SymbolAtlas.Script.TopLevel
import SymbolAtlas.Script.Use
import SymbolAtlas.Text.Blank
import SymbolAtlas.Text.Identifier
import SymbolAtlas.Text.Matches
import SymbolAtlas.Text.Position
import SymbolAtlas.Token
import SymbolAtlas.Token.Lexeme
import SymbolAtlas.Token.Scan
import SymbolAtlas.Token.Vocabulary
import SymbolAtlas.Usage
import SymbolAtlas.Value
import SymbolAtlas.Workspace
import SymbolAtlas.Proofs.Text.Cursor
import SymbolAtlas.Proofs.Text.Identifier
import SymbolAtlas.Proofs.Text.LineIndex
import SymbolAtlas.Proofs.Token.Reading
import SymbolAtlas.Proofs.Token.Span
import SymbolAtlas.Proofs.Token.Tiling
import SymbolAtlas.Proofs.Token.LineJoin
import SymbolAtlas.Proofs.Token.Rescan
import SymbolAtlas.Proofs.Resolution.Independence
import SymbolAtlas.Proofs.Script.Reference
import SymbolAtlas.Proofs.Script.Interpolation
import SymbolAtlas.Proofs.Script.PrintedImport
import SymbolAtlas.Proofs.Script.PrintedOutline
import SymbolAtlas.Proofs.Script.IndependentStatements
import SymbolAtlas.Proofs.Reader.LanguageTag
import SymbolAtlas.Proofs.Text.Regex
import SymbolAtlas.Proofs.Path.Ending
import SymbolAtlas.Proofs.Path.Name
import SymbolAtlas.Proofs.Resolution.DirectMatch
import SymbolAtlas.Proofs.Resolution.Specifier
import SymbolAtlas.Proofs.Usage.MemberAccess
import SymbolAtlas.Proofs.Script.ClauseExtent
import SymbolAtlas.Proofs.Script.PropertyName
import SymbolAtlas.Proofs.Text.LineMatches
import SymbolAtlas.Proofs.Text.LineStart
import SymbolAtlas.Proofs.Text.SourceOrder
import SymbolAtlas.Proofs.Python.PrintedOutline
import SymbolAtlas.Proofs.Python.ExcludedNames
import SymbolAtlas.Proofs.Python.LineReferences
import SymbolAtlas.Proofs.Script.BindingPattern
import SymbolAtlas.Proofs.Script.Initializer
import SymbolAtlas.Proofs.Script.ContextualOperand
import SymbolAtlas.Proofs.Script.DeclaredName
import SymbolAtlas.Proofs.Script.PrintedSignature
import SymbolAtlas.Proofs.Script.ShownSignature
import SymbolAtlas.Proofs.Script.SignatureReading
import SymbolAtlas.Proofs.Script.RequireCall
import SymbolAtlas.Proofs.Script.ImportPasses
import SymbolAtlas.Proofs.Script.LiteralCall
import SymbolAtlas.Proofs.Script.TypeArguments
import SymbolAtlas.Proofs.Token.LongestMatch
import SymbolAtlas.Proofs.Token.RegexLiteral
import SymbolAtlas.Proofs.Token.BraceBalance
import SymbolAtlas.Proofs.Resolution.SearchOrder
import SymbolAtlas.Proofs.Resolution.ModuleSegments
import SymbolAtlas.Proofs.Path.NormalForm
import SymbolAtlas.Proofs.Resolution.IndexFile
import SymbolAtlas.Proofs.Python.LinePlaces
import SymbolAtlas.Proofs.Python.ModuleScope
import SymbolAtlas.Proofs.Python.ImportedPath
import SymbolAtlas.Proofs.Usage.Monotonicity
import SymbolAtlas.Proofs.Config.Validation
import SymbolAtlas.Proofs.Config.Environment
