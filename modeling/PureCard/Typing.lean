/-
PureCard.Typing — well-typed queries.

The queries of the gold corpus that start from a class (arm C) are
pipelines: `|P.all()`, then filters and other methods with lambdas, then
`project` or `groupBy`, which name columns, and then methods over rows that
refer to those columns. `Typed` is a type system for their expressions and
`WellTyped` one for the pipelines, over the names a schema declares. They
are stated over lexemes, blanks where the grammar has them, and say nothing
of a tracker: that the masks let every such query through is
`TypedQueries`.

What the rules ask of names is the price of a tracker that reads lexemes
one at a time. A name in a query is no class path and none of the methods
the tracker knows (`Schema.Plain`); a lambda's variable is not used again
behind its body in the same list (`Env.without`); and a lambda may navigate
from its variable when the receiver is the pipeline or a navigation.
-/
import PureCard.Sentences
import PureCard.Schema.Effects

namespace PureCard

/-! ## Names and types -/

/-- An identifier that stands for nothing to the tracker but itself. -/
structure Schema.Plain (schema : Schema) (name : Bytes) : Prop where
  ident : IsIdent name
  noClass : schema.hasClass name = false
  unknown : name ∉ knownMethods

/-- What a lambda's variable stands for. -/
inductive Elem where
  | element (cls : Bytes)
  | row
  | other
  deriving DecidableEq

/-- The variables in scope. -/
abbrev Env := Bytes → Option Elem

def Env.bind (env : Env) (name : Bytes) (elem : Elem) : Env := Function.update env name (some elem)

/-- The variables in scope behind an argument that has bound `name`. -/
def Env.without (env : Env) : Option Bytes → Env
  | some name => Function.update env name none
  | none => env

/-- What a navigation has reached. -/
inductive Reached where
  | element (cls : Bytes)
  | value (class? : Option TypeClass)
  deriving DecidableEq

/-- The member `name` of a class leads to `reached`. -/
def Schema.Leads (schema : Schema) (cls name : Bytes) (reached : Reached) : Prop :=
  ∃ r, schema.resolve cls name = some r ∧
    match r with
    | .cls path _ => reached = .element path
    | .primitive prim _ => reached = .value (some prim.typeClass)
    | .enum _ _ => reached = .value none

/-- The operand class of a literal lexeme. -/
def LexKind.class? : LexKind → Option TypeClass
  | .str => some .str
  | .number => some .numeric
  | .date => some .temporal
  | .ident => none

/-- A literal of the grammar, in one lexeme. -/
def IsLiteral (tc : TypeClass) (w : Bytes) : Prop :=
  w ≠ [] ∧ ∃ k s, k.class? = some tc ∧ s ∈ valuedStates ∧
    InLexeme k (.expectValueReq, []) w (s, [])

/-- A run of inter-token whitespace. -/
def IsBlank (w : Bytes) : Prop := w ≠ [] ∧ ∀ b ∈ w, isWs b = true

/-- The operators that take operands of one class to that class. -/
def arithmeticOps : List Bytes := [[Byte.plus], [Byte.star], [Byte.slash]]

def logicalOps : List Bytes := [[Byte.amp, Byte.amp], [Byte.pipe, Byte.pipe]]

/-- The names that are values. -/
def booleanNames : List Bytes := [ascii "true", ascii "false"]

/-- The element of the pipeline and the columns it has. -/
structure Scope where
  elem : Elem
  columns : List Bytes

/-! ## Marks -/

namespace Item

def dollar : Item := .mark [Byte.dollar]

def dot : Item := .mark [Byte.dot]

def arrow : Item := .mark [Byte.dash, Byte.gt]

def bar : Item := .mark [Byte.pipe]

def comma : Item := .mark [Byte.comma]

def bang : Item := .mark [Byte.bang]

/-- `( items )`. -/
def parens (items : List Item) : List Item :=
  .mark [Byte.lparen] :: items ++ [.mark [Byte.rparen]]

/-- `[ items ]`. -/
def brackets (items : List Item) : List Item :=
  .mark [Byte.lbracket] :: items ++ [.mark [Byte.rbracket]]

end Item

open Item

/-! ## References to columns -/

/-- What stands in a list that refers to columns. -/
inductive Refs (schema : Schema) (columns : List Bytes) : List Item → Prop where
  | column {c : Bytes} (h : c ∈ columns) : Refs schema columns [.word (quote c)]
  | constant {d e : Bytes} (hd : schema.Plain d) (he : schema.Plain e) :
      Refs schema columns [.word d, dot, .word e]
  | apply {f : Bytes} {a : List Item} (hf : f ∈ refMethods) (hclass : schema.hasClass f = false)
      (ha : Refs schema columns a) : Refs schema columns (.word f :: parens a)
  | list {a : List Item} (ha : Refs schema columns a) : Refs schema columns (brackets a)
  | more {a b : List Item} (ha : Refs schema columns a) (hb : Refs schema columns b) :
      Refs schema columns (a ++ comma :: b)
  | lead {w : Bytes} {a : List Item} (hw : IsBlank w) (ha : Refs schema columns a) :
      Refs schema columns (.blank w :: a)
  | pad {w : Bytes} {a : List Item} (ha : Refs schema columns a) (hw : IsBlank w) :
      Refs schema columns (a ++ [.blank w])

/-- The names of the columns a list establishes. -/
inductive Names : List Bytes → List Item → Prop where
  | one (c : Bytes) : Names [c] [.word (quote c)]
  | more (c : Bytes) {cs : List Bytes} {a : List Item} (h : Names cs a) :
      Names (c :: cs) (.word (quote c) :: comma :: a)
  | list {cs : List Bytes} {a : List Item} (h : Names cs a) : Names cs (brackets a)
  | lead {w : Bytes} {cs : List Bytes} {a : List Item} (hw : IsBlank w) (h : Names cs a) :
      Names cs (.blank w :: a)

/-! ## Expressions -/

/-- The forms of expression. A navigation ends in a member, a `primary` can
be called, an `operand` compared; `args` is what stands in a list whose
lambdas are over `recv`, and an `arg` may bind a variable. -/
inductive Form where
  | nav (reached : Reached)
  | primary (class? : Option TypeClass)
  | operand (class? : Option TypeClass)
  | cond
  | args (recv : Elem)
  | list (recv : Elem)
  | arg (recv : Elem) (bound : Option Bytes)

/-- The well-typed expressions over a schema, in a pipeline. -/
inductive Typed (schema : Schema) (scope : Scope) : Env → Form → List Item → Prop where
  -- navigations
  | step {env : Env} {v p cls : Bytes} {reached : Reached} (hv : env v = some (.element cls))
      (hp : schema.Plain p) (hlead : schema.Leads cls p reached) :
      Typed schema scope env (.nav reached) [dollar, .word v, dot, .word p]
  | chain {env : Env} {e : List Item} {p cls : Bytes} {reached : Reached}
      (he : Typed schema scope env (.nav (.element cls)) e) (hp : schema.Plain p)
      (hlead : schema.Leads cls p reached) :
      Typed schema scope env (.nav reached) (e ++ [dot, .word p])
  -- primaries
  | navValue {env : Env} {e : List Item} {c : Option TypeClass}
      (he : Typed schema scope env (.nav (.value c)) e) : Typed schema scope env (.primary c) e
  | var {env : Env} {v : Bytes} {elem : Elem} (hv : env v = some elem) :
      Typed schema scope env (.primary none) [dollar, .word v]
  | constant {env : Env} {w : Bytes} (hw : w ∈ booleanNames) (hplain : schema.Plain w) :
      Typed schema scope env (.primary (some .boolean)) [.word w]
  | column {env : Env} {v g : Bytes} {a : List Item} (hscope : scope.elem = .row)
      (hv : env v = some .row) (hg : g ∈ refMethods) (hclass : schema.hasClass g = false)
      (ha : Refs schema scope.columns a) (c : Option TypeClass) :
      Typed schema scope env (.primary c) ([dollar, .word v, dot, .word g] ++ parens a)
  | call {env : Env} {e a : List Item} {m : Bytes} {c : Option TypeClass}
      (he : Typed schema scope env (.primary c) e) (hm : schema.Plain m)
      (ha : Typed schema scope env (.args .other) a) (result : Option TypeClass) :
      Typed schema scope env (.primary result) (e ++ [arrow, .word m] ++ parens a)
  | navCall {env : Env} {e a : List Item} {m cls : Bytes}
      (he : Typed schema scope env (.nav (.element cls)) e) (hm : schema.Plain m)
      (ha : Typed schema scope env (.args (.element cls)) a) (result : Option TypeClass) :
      Typed schema scope env (.primary result) (e ++ [arrow, .word m] ++ parens a)
  | apply {env : Env} {f : Bytes} {a : List Item} (hf : schema.Plain f)
      (ha : Typed schema scope env (.args scope.elem) a) (result : Option TypeClass) :
      Typed schema scope env (.primary result) (.word f :: parens a)
  | group {env : Env} {e : List Item} (he : Typed schema scope env .cond e) :
      Typed schema scope env (.primary (some .boolean)) (parens e)
  | groupOperand {env : Env} {e : List Item} {c : Option TypeClass}
      (he : Typed schema scope env (.operand c) e) : Typed schema scope env (.primary c) (parens e)
  | primaryPad {env : Env} {e : List Item} {w : Bytes} {c : Option TypeClass}
      (he : Typed schema scope env (.primary c) e) (hw : IsBlank w) :
      Typed schema scope env (.primary c) (e ++ [.blank w])
  -- operands
  | value {env : Env} {e : List Item} {c : Option TypeClass}
      (he : Typed schema scope env (.primary c) e) : Typed schema scope env (.operand c) e
  | literal {env : Env} {tc : TypeClass} {w : Bytes} (hw : IsLiteral tc w) :
      Typed schema scope env (.operand (some tc)) [.word w]
  | arith {env : Env} {a b : List Item} {op : Bytes} {c : Option TypeClass}
      (ha : Typed schema scope env (.operand c) a) (hop : op ∈ arithmeticOps)
      (hb : Typed schema scope env (.operand c) b) :
      Typed schema scope env (.operand c) (a ++ .mark op :: b)
  | operandLead {env : Env} {e : List Item} {w : Bytes} {c : Option TypeClass} (hw : IsBlank w)
      (he : Typed schema scope env (.operand c) e) :
      Typed schema scope env (.operand c) (.blank w :: e)
  | operandPad {env : Env} {e : List Item} {w : Bytes} {c : Option TypeClass}
      (he : Typed schema scope env (.operand c) e) (hw : IsBlank w) :
      Typed schema scope env (.operand c) (e ++ [.blank w])
  -- conditions
  | truth {env : Env} {e : List Item} {c : Option TypeClass}
      (he : Typed schema scope env (.operand c) e) : Typed schema scope env .cond e
  | compare {env : Env} {a b : List Item} {op : Bytes} {c d : Option TypeClass}
      (ha : Typed schema scope env (.operand c) a) (hop : op ∈ comparisonOps)
      (hcd : ∀ tc, c = some tc → d = some tc) (hb : Typed schema scope env (.operand d) b) :
      Typed schema scope env .cond (a ++ .mark op :: b)
  | connect {env : Env} {a b : List Item} {op : Bytes} (ha : Typed schema scope env .cond a)
      (hop : op ∈ logicalOps) (hb : Typed schema scope env .cond b) :
      Typed schema scope env .cond (a ++ .mark op :: b)
  | not {env : Env} {e : List Item} (he : Typed schema scope env .cond e) :
      Typed schema scope env .cond (bang :: e)
  | condLead {env : Env} {e : List Item} {w : Bytes} (hw : IsBlank w)
      (he : Typed schema scope env .cond e) : Typed schema scope env .cond (.blank w :: e)
  -- arguments
  | noArgs {env : Env} (recv : Elem) : Typed schema scope env (.args recv) []
  | someArgs {env : Env} {a : List Item} {recv : Elem}
      (ha : Typed schema scope env (.list recv) a) : Typed schema scope env (.args recv) a
  | oneArg {env : Env} {a : List Item} {recv : Elem} {bound : Option Bytes}
      (ha : Typed schema scope env (.arg recv bound) a) : Typed schema scope env (.list recv) a
  | moreArgs {env : Env} {a b : List Item} {recv : Elem} {bound : Option Bytes}
      (ha : Typed schema scope env (.arg recv bound) a)
      (hb : Typed schema scope (env.without bound) (.list recv) b) :
      Typed schema scope env (.list recv) (a ++ comma :: b)
  | argValue {env : Env} {e : List Item} (he : Typed schema scope env .cond e) (recv : Elem) :
      Typed schema scope env (.arg recv none) e
  | argLambda {env : Env} {w : Bytes} {e : List Item} {recv : Elem} (hw : schema.Plain w)
      (he : Typed schema scope (env.bind w recv) .cond e) :
      Typed schema scope env (.arg recv (some w)) (.word w :: bar :: e)
  | argThunk {env : Env} {e : List Item} (he : Typed schema scope env .cond e) (recv : Elem) :
      Typed schema scope env (.arg recv none) (bar :: e)
  | argList {env : Env} {a : List Item} (ha : Typed schema scope env (.args scope.elem) a)
      (recv : Elem) : Typed schema scope env (.arg recv none) (brackets a)
  | argLead {env : Env} {a : List Item} {w : Bytes} {recv : Elem} {bound : Option Bytes}
      (hw : IsBlank w) (ha : Typed schema scope env (.arg recv bound) a) :
      Typed schema scope env (.arg recv bound) (.blank w :: a)
  | argPad {env : Env} {a : List Item} {w : Bytes} {recv : Elem} {bound : Option Bytes}
      (ha : Typed schema scope env (.arg recv bound) a) (hw : IsBlank w) :
      Typed schema scope env (.arg recv bound) (a ++ [.blank w])

/-! ## Pipelines -/

/-- The well-typed queries over a schema. -/
inductive WellTyped (schema : Schema) : Scope → List Item → Prop where
  | source {path : Bytes} (hpath : IsClasspath path) (hclass : schema.hasClass path = true)
      (hall : schema.hasClass sourceMethod = false) :
      WellTyped schema ⟨.element path, []⟩
        ([bar, .word path, dot, .word sourceMethod] ++ parens [])
  | stage {scope : Scope} {q a : List Item} {m : Bytes} (hq : WellTyped schema scope q)
      (hm : schema.Plain m) (ha : Typed schema scope (fun _ => none) (.args scope.elem) a) :
      WellTyped schema scope (q ++ [arrow, .word m] ++ parens a)
  | establish {scope : Scope} {q a c : List Item} {m : Bytes} {columns : List Bytes}
      (hq : WellTyped schema scope q) (hm : m ∈ establishingMethods)
      (hclass : schema.hasClass m = false)
      (ha : Typed schema scope (fun _ => none) (.list scope.elem) a) (hc : Names columns c) :
      WellTyped schema ⟨.row, columns⟩
        (q ++ [arrow, .word m] ++ parens (a ++ comma :: c))
  | refer {columns : List Bytes} {q a : List Item} {m : Bytes}
      (hq : WellTyped schema ⟨.row, columns⟩ q) (hm : m ∈ refMethods)
      (hclass : schema.hasClass m = false) (ha : Refs schema columns a) :
      WellTyped schema ⟨.row, columns⟩ (q ++ [arrow, .word m] ++ parens a)
  | pad {scope : Scope} {q : List Item} {w : Bytes} (hq : WellTyped schema scope q)
      (hw : IsBlank w) : WellTyped schema scope (q ++ [.blank w])

end PureCard
