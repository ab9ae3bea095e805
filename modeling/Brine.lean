import Brine.Definition.Basic
import Brine.Definition.Catalog
import Brine.Document.Basic
import Brine.Document.Draft.Basic
import Brine.Document.Draft.Close
import Brine.Document.Draft.Push
import Brine.Document.Error
import Brine.Document.Parse
import Brine.Document.Tables
import Brine.Expression.Compile
import Brine.Expression.Error
import Brine.Expression.Node
import Brine.Expression.Token
import Brine.Ids
import Brine.Json.Basic
import Brine.Json.Reader
import Brine.Language.Builtin
import Brine.Language.Dialect
import Brine.Language.Settings
import Brine.Language.Table
import Brine.Line.Items
import Brine.Line.Reader
import Brine.Line.Token
import Brine.Location
import Brine.Number.Binary64
import Brine.Number.Integer
import Brine.Number.Shortest
import Brine.Parameter.Basic
import Brine.Parameter.Builtin
import Brine.Parameter.Registry
import Brine.Pattern.Argument
import Brine.Pattern.Groups
import Brine.Pattern.Regular
import Brine.Pickle.Basic
import Brine.Pickle.Expansion
import Brine.Pickle.Placeholder
import Brine.Pickle.Stream
import Brine.Regex.Basic
import Brine.Regex.Bracket
import Brine.Regex.CharSet
import Brine.Regex.Compile
import Brine.Regex.Error
import Brine.Regex.Escape
import Brine.Regex.Flags
import Brine.Regex.Look
import Brine.Regex.Match
import Brine.Regex.Token
import Brine.Snippet
import Brine.Text.Alphabetic
import Brine.Text.Blank
import Brine.Text.Bytes
import Brine.Text.CaseFold
import Brine.Text.Lines
import Brine.Text.Mark
import Brine.Text.Numeral
import Brine.Text.Ranges
import Brine.Text.Replace
import Brine.Text.Word
import Brine.Proofs.PickleStream
import Brine.Proofs.PickleExpansion
import Brine.Proofs.StepMatching
import Brine.Proofs.DraftModes
import Brine.Proofs.Acceptance
import Brine.Proofs.Conservation
import Brine.Proofs.RegexMeaning
import Brine.Proofs.RegexMatching
import Brine.Proofs.PatternClasses
import Brine.Proofs.PatternTokens
import Brine.Proofs.PatternRuns
import Brine.Proofs.PatternEmbedding
import Brine.Proofs.ExpressionChoices
import Brine.Proofs.ExpressionPositions
import Brine.Proofs.ExpressionGrammar
import Brine.Proofs.ExpressionErrors
import Brine.Proofs.ExpressionPatterns
import Brine.Proofs.PatternNumbers
import Brine.Proofs.ExpressionMeaning
import Brine.Proofs.BuiltinExpressions
import Brine.Proofs.Registries
import Brine.Proofs.ExpressionArguments
import Brine.Proofs.SnippetSearch
import Brine.Proofs.SnippetCandidates
import Brine.Proofs.BuiltinTexts
import Brine.Proofs.NumberTexts
import Brine.Proofs.SnippetMatching
import Brine.Proofs.EscapedTexts
import Brine.Proofs.SnippetChoice
import Brine.Proofs.PatternScan
import Brine.Proofs.PatternGroups
import Brine.Proofs.RegularGroups
import Brine.Proofs.FirstErrors
import Brine.Proofs.SourcePlaces
import Brine.Proofs.NodeIds
import Brine.Proofs.PickleIds
import Brine.Proofs.PickleSources
import Brine.Proofs.ClearPatterns
import Brine.Proofs.RegistryRuns
import Brine.Proofs.BareDocuments
import Brine.Proofs.DefaultLanguage
import Brine.Proofs.TriviaLines
import Brine.Proofs.PatternPrefixes
import Brine.Proofs.PatternWalks
import Brine.Proofs.PatternNesting
import Brine.Proofs.FlagAgreement
import Brine.Proofs.UsableTypes
import Brine.Proofs.DocStringBlocks
import Brine.Proofs.PlaceholderFilling
import Brine.Proofs.WrittenRows
import Brine.Proofs.Replacing
import Brine.Proofs.WrittenDocStrings
import Brine.Proofs.TextLines
import Brine.Proofs.LineRuns
import Brine.Proofs.LanguageDirectives
import Brine.Proofs.StepArguments
import Brine.Proofs.StepKeywords
import Brine.Proofs.KeywordLines
import Brine.Proofs.QuotedTexts
import Brine.Proofs.RejectedTexts
import Brine.Proofs.StepTypes
import Brine.Proofs.TypeUnions
