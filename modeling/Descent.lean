import Descent.Generation
import Descent.Grammar.Builder
import Descent.Lexer.Scanner
import Descent.Output.Fragment
import Descent.Proofs.CharRanges
import Descent.Proofs.Path
import Descent.Proofs.Labels
import Descent.Proofs.Thompson
import Descent.Proofs.Acceptance
import Descent.Proofs.Alphabet
import Descent.Proofs.Subset
import Descent.Proofs.Collections
import Descent.Proofs.LiteralTable
import Descent.Proofs.KindWords
import Descent.Proofs.ResumeBuckets
import Descent.Proofs.Handover
import Descent.Proofs.LongestMatch
import Descent.Proofs.Cascade
import Descent.Proofs.Attempts
import Descent.Proofs.CaseFolding
import Descent.Proofs.FoldedStates
import Descent.Proofs.Numbering
import Descent.Proofs.ActiveKinds
import Descent.Proofs.Units
import Descent.Proofs.LexicalStates
import Descent.Proofs.SkipChars
import Descent.Proofs.Scanning
import Descent.Proofs.BuiltLexer
import Descent.Proofs.MaximalMunch
import Descent.Proofs.CaselessMunch
import Descent.Proofs.EmptyMatch
import Descent.Proofs.Progress
import Descent.Proofs.TokenKinds
import Descent.Proofs.Caseless
import Descent.Proofs.KindTexts
import Descent.Proofs.LiteralImages
import Descent.Proofs.Rank
import Descent.Proofs.Denotation
import Descent.Proofs.Resolution
import Descent.Proofs.KindDefinitions
import Descent.Proofs.Statements
import Descent.Proofs.KindNames
import Descent.Proofs.FirstMatch
import Descent.Proofs.Outcome
import Descent.Proofs.Derivation
import Descent.Proofs.Parts
import Descent.Proofs.EmptyExpansions
import Descent.Proofs.EmptyFlags
import Descent.Proofs.SearchMarks
import Descent.Proofs.CycleSearch
import Descent.Proofs.LeftRecursion
import Descent.Proofs.LeftCycles
import Descent.Proofs.Emission
import Descent.Proofs.Beginnings
import Descent.Proofs.FirstKinds
import Descent.Proofs.Ownership
import Descent.Proofs.Measuring
import Descent.Proofs.FewestTokens
import Descent.Proofs.Calls
import Descent.Proofs.SizeQueries
import Descent.Proofs.Requests
import Descent.Proofs.EntryPoints
import Descent.Proofs.ChoiceConflicts
import Descent.Proofs.RoutineTexts
import Descent.Proofs.ClosedCalls
import Descent.Proofs.Callers
import Descent.Proofs.Followers
import Descent.Proofs.CallTrees
import Descent.Proofs.EndlessWays
import Descent.Proofs.AlphabetClasses
import Descent.Proofs.Places
import Descent.Proofs.UnicodeEscapes
import Descent.Proofs.RegexReferences
import Descent.Proofs.RegexLoops
import Descent.Proofs.DeadStatements
import Descent.Proofs.CaseLabels
import Descent.Proofs.SubStringFlags
import Descent.Proofs.Shadowing
import Descent.Proofs.ErrorMasks
import Descent.Proofs.QuotedText
import Descent.Proofs.Forest
import Descent.Proofs.FirstWays
import Descent.Proofs.LookaheadMoves
import Descent.Proofs.LookaheadNormalForm
