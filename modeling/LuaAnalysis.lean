import LuaAnalysis.Command.Arguments
import LuaAnalysis.Command.Check
import LuaAnalysis.Document.DocMap
import LuaAnalysis.Document.DocMultimap
import LuaAnalysis.Document.DocRows
import LuaAnalysis.Document.Files
import LuaAnalysis.Document.Ids
import LuaAnalysis.Document.Modules
import LuaAnalysis.Document.Path
import LuaAnalysis.Document.Store
import LuaAnalysis.Document.Uri
import LuaAnalysis.Inference.Calls
import LuaAnalysis.Inference.Decls
import LuaAnalysis.Inference.Engine
import LuaAnalysis.Inference.Expr
import LuaAnalysis.Inference.Members
import LuaAnalysis.Inference.Names
import LuaAnalysis.Inference.Narrowing
import LuaAnalysis.Inference.Query
import LuaAnalysis.Inference.Search
import LuaAnalysis.Inference.Subtype
import LuaAnalysis.Main
import LuaAnalysis.Proofs.Document.ModuleNames
import LuaAnalysis.Proofs.Document.Multimaps
import LuaAnalysis.Proofs.Index.Grounded
import LuaAnalysis.Proofs.Index.History
import LuaAnalysis.Proofs.Index.Locality
import LuaAnalysis.Proofs.Index.Part
import LuaAnalysis.Proofs.Index.Passes
import LuaAnalysis.Proofs.Index.PlainComments
import LuaAnalysis.Proofs.Index.Readings
import LuaAnalysis.Proofs.Index.Supertypes
import LuaAnalysis.Proofs.Index.Suppressions
import LuaAnalysis.Proofs.Index.Writes
import LuaAnalysis.Proofs.Inference.AliasChains
import LuaAnalysis.Proofs.Inference.Aliases
import LuaAnalysis.Proofs.Inference.Answers
import LuaAnalysis.Proofs.Inference.BodyReturns
import LuaAnalysis.Proofs.Inference.CallTemplates
import LuaAnalysis.Proofs.Inference.Chains
import LuaAnalysis.Proofs.Inference.Expressions
import LuaAnalysis.Proofs.Inference.Inheritance
import LuaAnalysis.Proofs.Inference.Interruption
import LuaAnalysis.Proofs.Inference.Lookups
import LuaAnalysis.Proofs.Inference.MemberLookup
import LuaAnalysis.Proofs.Inference.MemberSources
import LuaAnalysis.Proofs.Inference.Memory
import LuaAnalysis.Proofs.Inference.Overloads
import LuaAnalysis.Proofs.Inference.Settles
import LuaAnalysis.Proofs.Inference.ShownTypes
import LuaAnalysis.Proofs.Inference.StructuralSubtypes
import LuaAnalysis.Proofs.Inference.Termination
import LuaAnalysis.Proofs.Inference.Unification
import LuaAnalysis.Proofs.Report.Arrangement
import LuaAnalysis.Proofs.Report.Cancellation
import LuaAnalysis.Proofs.Report.ClassCycles
import LuaAnalysis.Proofs.Report.ReturnPaths
import LuaAnalysis.Proofs.Report.Switches
import LuaAnalysis.Proofs.Scope.BoundTree
import LuaAnalysis.Proofs.Scope.Frames
import LuaAnalysis.Proofs.Scope.Lexical
import LuaAnalysis.Proofs.Scope.NameBinding
import LuaAnalysis.Proofs.Scope.Redescription
import LuaAnalysis.Proofs.Scope.VisibleNames
import LuaAnalysis.Proofs.Scope.WalkSteps
import LuaAnalysis.Proofs.Session.Outcomes
import LuaAnalysis.Proofs.Session.Passes
import LuaAnalysis.Proofs.Session.Schedule
import LuaAnalysis.Proofs.Sorting
import LuaAnalysis.Proofs.Syntax.Abandoned
import LuaAnalysis.Proofs.Syntax.AnnotatedLocal
import LuaAnalysis.Proofs.Syntax.Balance
import LuaAnalysis.Proofs.Syntax.CodeGrammar
import LuaAnalysis.Proofs.Syntax.CodeProgress
import LuaAnalysis.Proofs.Syntax.CodeRuns
import LuaAnalysis.Proofs.Syntax.CommentGroups
import LuaAnalysis.Proofs.Syntax.CommentTokens
import LuaAnalysis.Proofs.Syntax.Comments
import LuaAnalysis.Proofs.Syntax.DocAttempts
import LuaAnalysis.Proofs.Syntax.DocGrammar
import LuaAnalysis.Proofs.Syntax.DocPlaces
import LuaAnalysis.Proofs.Syntax.DocProgress
import LuaAnalysis.Proofs.Syntax.DocRuns
import LuaAnalysis.Proofs.Syntax.DocTokens
import LuaAnalysis.Proofs.Syntax.DocWordRuns
import LuaAnalysis.Proofs.Syntax.DocWords
import LuaAnalysis.Proofs.Syntax.Emission
import LuaAnalysis.Proofs.Syntax.ExprReading
import LuaAnalysis.Proofs.Syntax.ExprText
import LuaAnalysis.Proofs.Syntax.FailedTags
import LuaAnalysis.Proofs.Syntax.Forest
import LuaAnalysis.Proofs.Syntax.Layout
import LuaAnalysis.Proofs.Syntax.LiteralCuts
import LuaAnalysis.Proofs.Syntax.LiteralText
import LuaAnalysis.Proofs.Syntax.LongBrackets
import LuaAnalysis.Proofs.Syntax.Lossless
import LuaAnalysis.Proofs.Syntax.Nesting
import LuaAnalysis.Proofs.Syntax.Nodes
import LuaAnalysis.Proofs.Syntax.Numerals
import LuaAnalysis.Proofs.Syntax.Outline
import LuaAnalysis.Proofs.Syntax.Places
import LuaAnalysis.Proofs.Syntax.Preorder
import LuaAnalysis.Proofs.Syntax.QuotedParts
import LuaAnalysis.Proofs.Syntax.ReadingEnds
import LuaAnalysis.Proofs.Syntax.Replay
import LuaAnalysis.Proofs.Syntax.Rounds
import LuaAnalysis.Proofs.Syntax.Script
import LuaAnalysis.Proofs.Syntax.Shape
import LuaAnalysis.Proofs.Syntax.ShapeQueries
import LuaAnalysis.Proofs.Syntax.TagReading
import LuaAnalysis.Proofs.Syntax.Tiling
import LuaAnalysis.Proofs.Syntax.TokenAt
import LuaAnalysis.Proofs.Syntax.Tokenize
import LuaAnalysis.Proofs.Syntax.TokensLeft
import LuaAnalysis.Proofs.Syntax.TreePlaces
import LuaAnalysis.Proofs.Syntax.TypeForms
import LuaAnalysis.Proofs.Syntax.TypeReading
import LuaAnalysis.Proofs.Syntax.WellNested
import LuaAnalysis.Proofs.Syntax.WordRuns
import LuaAnalysis.Proofs.Syntax.Words
import LuaAnalysis.Proofs.Text.Positions
import LuaAnalysis.Proofs.Text.Spans
import LuaAnalysis.Proofs.Types.Alternatives
import LuaAnalysis.Proofs.Types.Delimited
import LuaAnalysis.Proofs.Types.Equality
import LuaAnalysis.Proofs.Types.FlatValues
import LuaAnalysis.Proofs.Types.Hashing
import LuaAnalysis.Proofs.Types.Narrowing
import LuaAnalysis.Proofs.Types.ReadBack
import LuaAnalysis.Proofs.Types.StructuralOrder
import LuaAnalysis.Proofs.Types.Substitution
import LuaAnalysis.Proofs.Types.Templates
import LuaAnalysis.Proofs.Types.TextReader
import LuaAnalysis.Proofs.Types.Unions
import LuaAnalysis.Proofs.Types.Written
import LuaAnalysis.Proofs.Workspace.DisplayedTypes
import LuaAnalysis.Proofs.Workspace.TypeReader
import LuaAnalysis.Report.Code
import LuaAnalysis.Report.Document
import LuaAnalysis.Report.Editor
import LuaAnalysis.Report.Flow
import LuaAnalysis.Report.Names
import LuaAnalysis.Report.Suppression
import LuaAnalysis.Report.TypeDecls
import LuaAnalysis.Scope.Binding
import LuaAnalysis.Scope.Decl
import LuaAnalysis.Scope.DeclTree
import LuaAnalysis.Session
import LuaAnalysis.Settings.Basic
import LuaAnalysis.Settings.JsonText
import LuaAnalysis.Settings.Version
import LuaAnalysis.StdLib
import LuaAnalysis.StdLib.Basic
import LuaAnalysis.StdLib.Math
import LuaAnalysis.StdLib.Table
import LuaAnalysis.StdLib.Text
import LuaAnalysis.Syntax.Cursor
import LuaAnalysis.Syntax.DocLexer
import LuaAnalysis.Syntax.EventLog
import LuaAnalysis.Syntax.Fault
import LuaAnalysis.Syntax.Grammar.Doc
import LuaAnalysis.Syntax.Grammar.DocParser
import LuaAnalysis.Syntax.Grammar.DocType
import LuaAnalysis.Syntax.Grammar.Expr
import LuaAnalysis.Syntax.Grammar.Stat
import LuaAnalysis.Syntax.Lexer
import LuaAnalysis.Syntax.Literal
import LuaAnalysis.Syntax.NodeKind
import LuaAnalysis.Syntax.Operator
import LuaAnalysis.Syntax.Parser
import LuaAnalysis.Syntax.TokenKind
import LuaAnalysis.Syntax.Tree
import LuaAnalysis.Text.Blank
import LuaAnalysis.Text.Hidden
import LuaAnalysis.Text.Lines
import LuaAnalysis.Text.Numeral
import LuaAnalysis.Text.Quoted
import LuaAnalysis.Text.Span
import LuaAnalysis.Text.Utf8
import LuaAnalysis.Types.Hash
import LuaAnalysis.Types.Multi
import LuaAnalysis.Types.Owner
import LuaAnalysis.Types.Printer
import LuaAnalysis.Types.Substitution
import LuaAnalysis.Types.Ty
import LuaAnalysis.Types.Union
import LuaAnalysis.Workspace.Analysis
import LuaAnalysis.Workspace.CommentReader
import LuaAnalysis.Workspace.Description
import LuaAnalysis.Workspace.DocContext
import LuaAnalysis.Workspace.Index
import LuaAnalysis.Workspace.Member
import LuaAnalysis.Workspace.Project
import LuaAnalysis.Workspace.Reference
import LuaAnalysis.Workspace.Signature
import LuaAnalysis.Workspace.Statement
import LuaAnalysis.Workspace.TypeDecl
import LuaAnalysis.Workspace.TypeIndex
import LuaAnalysis.Workspace.TypeReader
