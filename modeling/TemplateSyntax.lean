import TemplateSyntax.Breach
import TemplateSyntax.Diagnostic
import TemplateSyntax.Directive.Key
import TemplateSyntax.Directive.Reading
import TemplateSyntax.Embedded.Expression
import TemplateSyntax.Embedded.Fragment
import TemplateSyntax.Embedded.Handler
import TemplateSyntax.Embedded.Iteration
import TemplateSyntax.Embedded.Parameters
import TemplateSyntax.Embedded.Plain
import TemplateSyntax.Log
import TemplateSyntax.Markup.CharacterReference.Match
import TemplateSyntax.Markup.CharacterReference.Table
import TemplateSyntax.Markup.Lexer.Basic
import TemplateSyntax.Markup.Lexer.Cursor
import TemplateSyntax.Markup.Lexer.Pull
import TemplateSyntax.Markup.Lexer.State
import TemplateSyntax.Markup.Lexer.Step
import TemplateSyntax.Markup.Lexer.TokenBuffer
import TemplateSyntax.Markup.Namespace
import TemplateSyntax.Markup.Token
import TemplateSyntax.Markup.Unit
import TemplateSyntax.Proofs.Position
import TemplateSyntax.Script.Kind
import TemplateSyntax.Script.Lexeme
import TemplateSyntax.Script.Parser
import TemplateSyntax.Script.Parser.Basic
import TemplateSyntax.Script.Parser.Cover
import TemplateSyntax.Script.Parser.Declaration
import TemplateSyntax.Script.Parser.Expression
import TemplateSyntax.Script.Parser.Function
import TemplateSyntax.Script.Parser.Pattern
import TemplateSyntax.Script.Parser.Statement
import TemplateSyntax.Script.Parser.Typing
import TemplateSyntax.Script.Scan
import TemplateSyntax.Script.Scope
import TemplateSyntax.Script.Syntax
import TemplateSyntax.Source.LineIndex
import TemplateSyntax.Source.Locator
import TemplateSyntax.Source.Offset
import TemplateSyntax.Source.OffsetMap
import TemplateSyntax.Source.Span
import TemplateSyntax.Template
import TemplateSyntax.Text.Bytes
import TemplateSyntax.Text.Category
import TemplateSyntax.Text.CharClass
import TemplateSyntax.Text.Word
import TemplateSyntax.Tree.Basic
import TemplateSyntax.Tree.ElementClass
import TemplateSyntax.Tree.Outline
import TemplateSyntax.Tree.Resolution
import TemplateSyntax.Tree.Walk
import TemplateSyntax.Proofs.Assembler
import TemplateSyntax.Proofs.Builder
import TemplateSyntax.Proofs.BuilderUnits
import TemplateSyntax.Proofs.NothingFails
import TemplateSyntax.Proofs.OffsetMap
import TemplateSyntax.Proofs.RangesNest
import TemplateSyntax.Proofs.BuilderRun
import TemplateSyntax.Proofs.BuilderSteps
import TemplateSyntax.Proofs.ReadingPasses
import TemplateSyntax.Proofs.ParseStages
import TemplateSyntax.Proofs.EmbeddedLocations
import TemplateSyntax.Proofs.TreeEdits
import TemplateSyntax.Proofs.Lookup
import TemplateSyntax.Proofs.References
import TemplateSyntax.Proofs.ReferencesBound
import TemplateSyntax.Proofs.FragmentMove
import TemplateSyntax.Proofs.FragmentParts
import TemplateSyntax.Proofs.Relocation
import TemplateSyntax.Proofs.LexerMove
import TemplateSyntax.Proofs.RunMove
import TemplateSyntax.Proofs.AssemblerMove
import TemplateSyntax.Proofs.TreeMove
import TemplateSyntax.Proofs.BuilderMove
import TemplateSyntax.Proofs.OutlineMove
import TemplateSyntax.Proofs.ProgressMove
import TemplateSyntax.Proofs.ResolveMove
import TemplateSyntax.Proofs.GapsMove
import TemplateSyntax.Proofs.Spots
import TemplateSyntax.Proofs.JoinedReading
import TemplateSyntax.Proofs.Fresh
import TemplateSyntax.Proofs.OriginMove
import TemplateSyntax.Proofs.LexerFills
import TemplateSyntax.Proofs.TokensApart
import TemplateSyntax.Proofs.ScriptSpans
import TemplateSyntax.Proofs.FragmentPlaces
import TemplateSyntax.Proofs.EmbeddedContent
import TemplateSyntax.Proofs.LexerRecent
import TemplateSyntax.Proofs.LexerReports
import TemplateSyntax.Proofs.OutlineReports
import TemplateSyntax.Proofs.Takes
import TemplateSyntax.Proofs.OutlineSpots
import TemplateSyntax.Proofs.Steering
import TemplateSyntax.Proofs.EmbeddedInside
import TemplateSyntax.Proofs.SpotsInside
import TemplateSyntax.Proofs.CleanCut
import TemplateSyntax.Proofs.ReportPlaces
import TemplateSyntax.Proofs.Above
import TemplateSyntax.Proofs.BraceTokens
import TemplateSyntax.Proofs.CharacterData
import TemplateSyntax.Proofs.CharactersKept
import TemplateSyntax.Proofs.InterpolationOff
import TemplateSyntax.Proofs.Locations
import TemplateSyntax.Proofs.ModeAgrees
import TemplateSyntax.Proofs.PreHonoured
import TemplateSyntax.Proofs.TakesMove
import TemplateSyntax.Proofs.Append
import TemplateSyntax.Proofs.LexerYields
import TemplateSyntax.Proofs.Printed
import TemplateSyntax.Proofs.PrintedTokens
import TemplateSyntax.Proofs.PrintedTree
import TemplateSyntax.Proofs.RoundTrip
import TemplateSyntax.Proofs.DocumentOrder
import TemplateSyntax.Proofs.ReadTree
import TemplateSyntax.Proofs.WalkOrder
import TemplateSyntax.Proofs.EmbeddedTexts
import TemplateSyntax.Proofs.ExpressionFailures
import TemplateSyntax.Proofs.GrammarStatements
import TemplateSyntax.Proofs.ScriptShapes
import TemplateSyntax.Proofs.ScriptEnd
import TemplateSyntax.Proofs.WrappedScripts
import TemplateSyntax.Proofs.WrappedNames
import TemplateSyntax.Proofs.FragmentNames
import TemplateSyntax.Proofs.NamePlaces
import TemplateSyntax.Proofs.GapWalk
import TemplateSyntax.Proofs.ElementShell
import TemplateSyntax.Proofs.ImpliedEnds
import TemplateSyntax.Proofs.UnitRun
import TemplateSyntax.Proofs.EndTags
import TemplateSyntax.Proofs.CommentRule
import TemplateSyntax.Proofs.Lexing
import TemplateSyntax.Proofs.Comments
import TemplateSyntax.Proofs.RawTextRule
import TemplateSyntax.Proofs.RawText
import TemplateSyntax.Proofs.TakenUnits
import TemplateSyntax.Proofs.RawTextUnits
import TemplateSyntax.Proofs.ElementOrigin
import TemplateSyntax.Proofs.RawElements
import TemplateSyntax.Proofs.NamedReferences
import TemplateSyntax.Proofs.PatternVariables
import TemplateSyntax.Proofs.LexerSteps
import TemplateSyntax.Proofs.NumericReferences
import TemplateSyntax.Proofs.WrittenKeys
import TemplateSyntax.Proofs.DeclaringNames
import TemplateSyntax.Proofs.LineLookup
import TemplateSyntax.Proofs.LexerReads
import TemplateSyntax.Proofs.LineCounts
import TemplateSyntax.Proofs.ReportSources
import TemplateSyntax.Proofs.InputFaults
import TemplateSyntax.Proofs.NamedValues
import TemplateSyntax.Proofs.TagRows
import TemplateSyntax.Proofs.StartTags
import TemplateSyntax.Proofs.FilterCuts
import TemplateSyntax.Proofs.LeadingBlanks
import TemplateSyntax.Proofs.VisitOrder
