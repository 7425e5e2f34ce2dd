/-
PureCard.Grammar.Emitted — the emitted-Pure grammar of
`docs/spec/grammar.md`, §5.1–5.4 with the arm-R productions of §5.9.

One `Production` per production of the document, in its order and under
its names, except the six character classes of §5.4, which are terminals
here (`alpha`, `digit`, `alnum`, `lower`, `dateChar`, `schar`).
`emitted` is the right-hand side of each. Adjacent quoted texts are
written as one, and the layout is part of the texts: one space after
`let`, one on each side of the binding `=`, of an arithmetic, comparison
or boolean operator and of the `:` before a lambda, none elsewhere.

A sentence is its bytes. `schar` is any byte but the quote: a character
is one or more bytes, and none of a character's bytes but the quote's
own is the quote, so the strings of the document are among these.

The document writes the key list of the arm-C `groupBy` with the braces
of a repetition and glosses it as "MAY be empty". Read to the letter the
braces also put one group of keys directly after another with no comma
between. `emitted` takes the reading as a parameter: `.rep` is the
letter, `.opt` the gloss.
-/
import PureCard.Grammar.Pda
import PureCard.Lib.Ebnf

namespace PureCard

open Pushdown

/-- The productions of the document. -/
inductive Production where
  -- §5.1
  | query | simpleQuery | blockQuery | letBinding
  -- §5.2
  | pipeline | source | classNavSource | relationalSource | step
  | filter | project | groupBy | olapGroupBy | sort | sortSpec | sortdir | take | distinct
  | restrict | relGroupBy | relAgg | renameColumns | renameArg | colRename | extend | extendArg
  | colDef | join | relationalSubPipeline | joinType | limit
  -- §5.3
  | lambda | colLambda | keyLambda | mapLambda | reduceLambda | agg
  | typedBinder | mult | tdsLambda | tdsColLambda | tdsMapLambda | tdsReduceLambda | braceLambda
  | boolExpr | cmp | cmpop | reduceExpr | reducer | boolPred | predArg
  | valueExpr | arithop | term | collapse | fn | fnArgs | ifExpr | navExpr | colAccess | tdsGetter
  -- §5.4
  | classpath | binderVar | refVar | literal | strlit | number | frac | exp | boollit | dateLit
  | milestoneLit | int | strOrList | ident
  -- §5.9
  | relProject | relColSpec | relFnGroupBy | relAggSpec | relSort | relSortKey | relExtendWindow
  | windowSpec | winAggSpec | frameLambda | relRename | colRef | colName
  deriving DecidableEq, Repr

/-- An expression of the document. -/
abbrev Phrase := Ebnf Production UInt8

namespace Phrase

/-- A quoted text. -/
def t (s : String) : Phrase := .terminal [ascii s]

/-- One of several quoted texts. -/
def anyOf (ss : List String) : Phrase := .terminal (ss.map ascii)

/-- A production by name. -/
def ref (n : Production) : Phrase := .rule n

/-- The bytes of a class. -/
def bytesWhere (p : UInt8 → Bool) : Bytes := ((List.range 256).map UInt8.ofNat).filter p

/-- A character class. -/
def charClass (p : UInt8 → Bool) : Phrase := .terminal ((bytesWhere p).map fun b => [b])

def opt (a : Phrase) : Phrase := Ebnf.opt a

def rep (a : Phrase) : Phrase := Ebnf.rep a

/-- `a { "," a }`. -/
def commaList (a : Phrase) : Phrase := a ++ rep (t "," ++ a)

def alpha : Phrase := charClass isAsciiAlphabetic
def digit : Phrase := charClass isAsciiDigit
def alnum : Phrase := charClass isAsciiAlphanumeric
def lower : Phrase := charClass isAsciiLowercase
def dateChar : Phrase :=
  charClass fun b => isAsciiDigit b || b == Byte.dash || b == Byte.bigT || b == Byte.colon
def schar : Phrase := charClass fun b => b != Byte.quote

end Phrase

open Phrase in
/-- The right-hand sides, over a reading of the key list's braces. -/
def emitted (keys : Phrase → Phrase) : Production → Phrase
  -- §5.1 Query envelope
  | .query => ref .simpleQuery ||| ref .blockQuery
  | .simpleQuery => t "|" ++ ref .pipeline
  | .blockQuery => t "\x7b|" ++ rep (ref .letBinding ++ t ";") ++ ref .pipeline ++ t "\x7d"
  | .letBinding => t "let " ++ ref .ident ++ t " = " ++ ref .pipeline
  -- §5.2 Pipeline and steps
  | .pipeline => ref .source ++ rep (t "->" ++ ref .step)
  | .source => ref .classNavSource ||| ref .relationalSource
  | .classNavSource => ref .classpath ++ t ".all()"
  | .relationalSource =>
    ref .classpath ++ t "->tableReference(" ++ ref .strlit ++ t "," ++ ref .strlit ++ t ")"
      ++ t "->tableToTDS()"
  | .step =>
    ref .filter ||| ref .project ||| ref .groupBy ||| ref .olapGroupBy ||| ref .restrict
      ||| ref .sort ||| ref .take ||| ref .distinct
      ||| ref .relGroupBy ||| ref .relAgg ||| ref .renameColumns ||| ref .extend ||| ref .join
      ||| ref .limit
      ||| ref .relProject ||| ref .relFnGroupBy ||| ref .relSort ||| ref .relExtendWindow
      ||| ref .relRename
  | .filter => t "filter(" ++ (ref .lambda ||| ref .tdsLambda) ++ t ")"
  | .project =>
    t "project([" ++ commaList (ref .colLambda) ++ t "],[" ++ commaList (ref .strlit) ++ t "])"
  | .groupBy =>
    t "groupBy([" ++ keys (commaList (ref .keyLambda)) ++ t "],[" ++ commaList (ref .agg)
      ++ t "],[" ++ commaList (ref .strlit) ++ t "])"
  | .olapGroupBy =>
    t "olapGroupBy([" ++ commaList (ref .strlit) ++ t "]," ++ ref .sortSpec ++ t ","
      ++ ref .reduceLambda ++ t "," ++ ref .strlit ++ t ")"
  | .sort =>
    t "sort(" ++ ((ref .strlit ++ t "," ++ ref .sortdir) ||| commaList (ref .sortSpec)) ++ t ")"
  | .sortSpec => anyOf ["asc", "desc"] ++ t "(" ++ ref .strlit ++ t ")"
  | .sortdir => anyOf ["SortDirection.ASC", "SortDirection.DESC"]
  | .take => t "take(" ++ ref .int ++ t ")"
  | .distinct => t "distinct()"
  | .restrict => t "restrict(" ++ ref .strOrList ++ t ")"
  | .relGroupBy => t "groupBy(" ++ ref .strOrList ++ t "," ++ commaList (ref .relAgg) ++ t ")"
  | .relAgg =>
    t "agg(" ++ ref .strlit ++ t "," ++ ref .tdsMapLambda ++ t "," ++ ref .tdsReduceLambda ++ t ")"
  | .renameColumns => t "renameColumns(" ++ ref .renameArg ++ t ")"
  | .renameArg => ref .colRename ||| (t "[" ++ commaList (ref .colRename) ++ t "]")
  | .colRename => ref .strlit ++ t "->pair(" ++ ref .strlit ++ t ")"
  | .extend => t "extend(" ++ ref .extendArg ++ t ")"
  | .extendArg => ref .colDef ||| (t "[" ++ commaList (ref .colDef) ++ t "]")
  | .colDef => t "col(" ++ ref .tdsColLambda ++ t "," ++ ref .strlit ++ t ")"
  | .join =>
    t "join(" ++ ref .relationalSubPipeline ++ t "," ++ ref .joinType ++ t "," ++ ref .braceLambda
      ++ t ")"
  | .relationalSubPipeline => ref .relationalSource ++ rep (t "->" ++ ref .step)
  | .joinType => ref .classpath ++ t "." ++ anyOf ["INNER", "LEFT_OUTER"]
  | .limit => t "limit(" ++ ref .int ++ t ")"
  -- §5.3 Lambdas and expressions
  | .lambda => ref .binderVar ++ t "|" ++ ref .boolExpr
  | .colLambda => ref .binderVar ++ t "|" ++ ref .valueExpr
  | .keyLambda => ref .binderVar ++ t "|" ++ ref .valueExpr
  | .mapLambda => ref .binderVar ++ t "|" ++ ref .valueExpr
  | .reduceLambda => ref .binderVar ++ t "|" ++ ref .reduceExpr
  | .agg => t "agg(" ++ ref .mapLambda ++ t "," ++ ref .reduceLambda ++ t ")"
  | .typedBinder => ref .ident ++ t ":" ++ ref .classpath ++ t "[" ++ ref .mult ++ t "]"
  | .mult => t "1" ||| t "*" ||| ref .int
  | .tdsLambda => ref .typedBinder ++ t "|" ++ ref .boolExpr
  | .tdsColLambda => ref .typedBinder ++ t "|" ++ ref .valueExpr
  | .tdsMapLambda => ref .typedBinder ++ t "|" ++ ref .valueExpr
  | .tdsReduceLambda => ref .typedBinder ++ t "|" ++ ref .reduceExpr
  | .braceLambda => t "\x7b" ++ commaList (ref .typedBinder) ++ t "|" ++ ref .boolExpr ++ t "\x7d"
  | .boolExpr =>
    (ref .cmp ++ rep (anyOf [" && ", " || "] ++ ref .cmp))
      ||| (t "(" ++ ref .boolExpr ++ t ")" ++ rep (anyOf [" && ", " || "] ++ ref .cmp))
  | .cmp =>
    (ref .valueExpr ++ t " " ++ ref .cmpop ++ t " " ++ ref .valueExpr)
      ||| (ref .valueExpr ++ t "->" ++ ref .boolPred)
      ||| (ref .navExpr ++ t "->in(" ++ ref .pipeline ++ t "." ++ ref .ident ++ t ")")
  | .cmpop => anyOf ["==", "!=", ">", "<", ">=", "<="]
  | .reduceExpr => ref .refVar ++ t "->" ++ ref .reducer ++ t "()"
  | .reducer => anyOf ["count", "sum", "average", "min", "max", "size", "rowNumber"]
  | .boolPred =>
    (anyOf ["exists", "contains", "startsWith", "endsWith", "isEmpty", "isNotEmpty"] ++ t "("
        ++ opt (ref .predArg) ++ t ")")
      ||| (t "between(" ++ ref .valueExpr ++ t "," ++ ref .valueExpr ++ t ")")
  | .predArg => ref .lambda ||| ref .valueExpr
  | .valueExpr => ref .term ++ rep (t " " ++ ref .arithop ++ t " " ++ ref .term)
  | .arithop => anyOf ["+", "-", "*", "/"]
  | .term =>
    (ref .navExpr ++ rep (t "->" ++ ref .collapse)
        ++ rep (t "->" ++ ref .fn ++ (t "(" ++ opt (ref .fnArgs) ++ t ")")))
      ||| ref .ifExpr ||| ref .literal ||| ref .colAccess
      ||| (t "(" ++ ref .valueExpr ++ t ")")
  | .collapse => t "toOne()"
  | .fn =>
    anyOf ["parseFloat", "parseInteger", "toString", "toLower", "toUpper", "substring", "year",
      "at", "cast", "first", "concatenate"]
  | .fnArgs => commaList (ref .valueExpr)
  | .ifExpr =>
    t "if(" ++ ref .boolExpr ++ t ",|" ++ ref .valueExpr ++ t ",|" ++ ref .valueExpr ++ t ")"
  | .navExpr => ref .refVar ++ rep (t "." ++ ref .ident)
  | .colAccess => ref .refVar ++ t "." ++ ref .tdsGetter ++ t "(" ++ ref .strlit ++ t ")"
  | .tdsGetter => anyOf ["getInteger", "getFloat", "getString", "getBoolean"]
  -- §5.4 Terminals and identifiers
  | .classpath => ref .ident ++ rep (t "::" ++ ref .ident)
  | .binderVar => ref .ident
  | .refVar => t "$" ++ ref .ident
  | .literal =>
    ref .strlit ||| ref .number ||| ref .boollit ||| ref .dateLit ||| ref .milestoneLit
  | .strlit => t "'" ++ rep (schar ||| t "''") ++ t "'"
  | .number => opt (t "-") ++ ((digit ++ rep digit ++ opt (ref .frac)) ||| ref .frac)
  | .frac => t "." ++ digit ++ rep digit ++ opt (ref .exp)
  | .exp => anyOf ["e", "E"] ++ opt (anyOf ["+", "-"]) ++ digit ++ rep digit
  | .boollit => anyOf ["true", "false"]
  | .dateLit => t "%" ++ dateChar ++ rep (dateChar ||| t ".")
  | .milestoneLit => t "%" ++ lower ++ rep lower
  | .int => digit ++ rep digit
  | .strOrList => ref .strlit ||| (t "[" ++ opt (commaList (ref .strlit)) ++ t "]")
  | .ident => alpha ++ rep (alnum ||| t "_")
  -- §5.9 Arm-R
  | .relProject => t "project(~[" ++ commaList (ref .relColSpec) ++ t "])"
  | .relColSpec => ref .colName ++ t " : " ++ ref .colLambda
  | .relFnGroupBy =>
    t "groupBy(~[" ++ opt (commaList (ref .colName)) ++ t "]," ++ commaList (ref .relAggSpec)
      ++ t ")"
  | .relAggSpec =>
    t "~" ++ ref .colName ++ t " : " ++ ref .mapLambda ++ t " : " ++ ref .reduceLambda
  | .relSort => t "sort([" ++ commaList (ref .relSortKey) ++ t "])"
  | .relSortKey => anyOf ["ascending", "descending"] ++ t "(" ++ ref .colRef ++ t ")"
  | .relExtendWindow =>
    t "extend(" ++ ref .windowSpec ++ t ",~[" ++ commaList (ref .winAggSpec) ++ t "])"
  | .windowSpec => t "over(" ++ commaList (ref .colRef) ++ t ")"
  | .winAggSpec =>
    ref .colName ++ t " : " ++ ref .frameLambda ++ t " : " ++ ref .reduceLambda
  | .frameLambda => t "\x7b" ++ commaList (ref .binderVar) ++ t "|" ++ ref .valueExpr ++ t "\x7d"
  | .relRename => t "rename(" ++ ref .colRef ++ t "," ++ ref .colRef ++ t ")"
  | .colRef => t "~" ++ ref .colName
  | .colName => ref .ident ||| ref .strlit

/-- The sentences of the emitted grammar. -/
def IsEmitted (keys : Phrase → Phrase) (w : Bytes) : Prop :=
  Derives (emitted keys) (Phrase.ref .query) w

end PureCard
