import PureCard.Grammar.Edges
import PureCard.Schema.Gaps
import PureCard.Tokenization
import PureCard.Binders
import PureCard.Receivers
import PureCard.SyntacticMask
import PureCard.Schema.Memo
import PureCard.Schema.Columns
import PureCard.SchemaMask
import PureCard.Calls
import PureCard.Histories
import PureCard.ByteDriven
import PureCard.Schema.Nesting
import PureCard.Lockstep
import PureCard.Schema.Pipelines
import PureCard.TableScopes
import PureCard.NestedPipelines
import PureCard.RestoredBindings
import PureCard.NavigationTyping
import PureCard.SourceBinding
import PureCard.OpeningTokens
import PureCard.Grammar.Containment
import PureCard.Grammar.Literals
import PureCard.Grammar.Delimiters
import PureCard.ColumnUniverse
import PureCard.StringColumns
import PureCard.FusedDots
import PureCard.ComparisonOperands
import PureCard.DeadEnds
import PureCard.MaskRuns
import PureCard.MaskPacking
import PureCard.Schema.Members
import PureCard.SelfCheck
import PureCard.NamePieces
import PureCard.NameEnds
import PureCard.Grammar.Shortest
import PureCard.Viability
import PureCard.Emission
import PureCard.Determined
import PureCard.Sentences
import PureCard.Seams
import PureCard.Schema.Effects
import PureCard.Typing
import PureCard.Passages
import PureCard.TypedExpressions
import PureCard.TypedQueries
