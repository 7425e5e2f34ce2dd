/-
PureCard.Schema.Scope — the scope machine (`src/schema/scope.rs`).

`ScopeTracker.observe` re-drives the automaton over an accepted token,
cuts it into lexemes and structural gaps, and hands each piece to
`dispatchToken` with the automaton state it opened at (its anchor). A
lexeme still open at the end of the token is kept in `pending`.
`dispatchToken` is one case per lexeme class; its handlers keep the
source's names and are single state updates, so what a piece does to the
tracker can be read off field by field.

Stacks are lists with the top first, the hash map of lambda variables is
a `Finmap` and the hash set of relation rows a `Finset`. The delimiter
depth is a natural number for the source's `u32`, which `on_open` raises
by `+= 1` and `on_close` lowers with saturation at zero: the two agree
below 2^32 open delimiters.
-/
import PureCard.Grammar.Pda
import PureCard.Schema.Model
import Mathlib.Data.Finmap

namespace PureCard

/-! ## Lexemes -/

/-- Whether `a`, `b` begin one of the two-byte operators. -/
def isTwoByteOp (a b : UInt8) : Bool :=
  (a == Byte.dash && b == Byte.gt) || (a == Byte.eq && b == Byte.eq)
    || (a == Byte.bang && b == Byte.eq) || (a == Byte.lt && b == Byte.eq)
    || (a == Byte.gt && b == Byte.eq) || (a == Byte.amp && b == Byte.amp)
    || (a == Byte.pipe && b == Byte.pipe)

/-- A classified piece of the stream. -/
inductive Lexeme where
  | ws
  | ident (text : Bytes)
  | str (content : Bytes)
  | number
  | date
  | arrow
  | dot
  | dollar
  | pipe
  | cmp
  | «open»
  | close
  | comma
  | other
  deriving DecidableEq, Repr

/-- The loop of `unquote`: undouble `''`. -/
def undouble : Bytes → Bytes
  | [] => []
  | [b] => [b]
  | b :: c :: rest =>
    if b = Byte.quote ∧ c = Byte.quote then b :: undouble rest else b :: undouble (c :: rest)

/-- `strip_prefix("'")` then `strip_suffix("'")`; either one failing leaves
the bytes as they are. -/
def stripQuotes (bytes : Bytes) : Bytes :=
  match bytes with
  | b :: rest =>
    if b = Byte.quote ∧ rest.getLast? = some Byte.quote then rest.dropLast else bytes
  | [] => bytes

def unquote (bytes : Bytes) : Bytes := undouble (stripQuotes bytes)

/-- The second match of `classify`, on the first byte. -/
def classifyFirst (first : UInt8) (bytes : Bytes) : Lexeme :=
  if first = Byte.quote then .str (unquote bytes)
  else if first = Byte.percent then .date
  else if isAsciiDigit first || (first == Byte.dash && (bytes[1]?.map isAsciiDigit).getD false) then
    .number
  else if isIdentStart first && isUtf8 bytes then .ident bytes
  else .other

/-- The lexeme a run of bytes spells. -/
def classify (bytes : Bytes) : Lexeme :=
  if bytes.all isAsciiWhitespace then .ws
  else match bytes with
    | [] => .ws
    | [b] =>
      if b = Byte.lt ∨ b = Byte.gt then .cmp
      else if b = Byte.dot then .dot
      else if b = Byte.dollar then .dollar
      else if b = Byte.pipe then .pipe
      else if b = Byte.comma then .comma
      else if b = Byte.lparen ∨ b = Byte.lbracket ∨ b = Byte.lbrace then .open
      else if b = Byte.rparen ∨ b = Byte.rbracket ∨ b = Byte.rbrace then .close
      else classifyFirst b [b]
    | [a, b] =>
      if a = Byte.dash ∧ b = Byte.gt then .arrow
      else if b = Byte.eq ∧ (a = Byte.eq ∨ a = Byte.bang ∨ a = Byte.lt ∨ a = Byte.gt) then .cmp
      else classifyFirst a [a, b]
    | first :: rest => classifyFirst first (first :: rest)

/-! ### What `classify` answers -/

/-- Whether a lexeme is a punctuation byte. -/
def Lexeme.isMark : Lexeme → Bool
  | .dot | .dollar | .pipe | .comma | .open | .close => true
  | _ => false

/-- The punctuation bytes. -/
def markBytes : Bytes :=
  [Byte.dot, Byte.dollar, Byte.pipe, Byte.comma, Byte.lparen, Byte.lbracket, Byte.lbrace,
   Byte.rparen, Byte.rbracket, Byte.rbrace]

theorem classifyFirst_cases (first : UInt8) (bytes : Bytes) :
    (isIdentStart first = true ∧ classifyFirst first bytes = .ident bytes) ∨
    classifyFirst first bytes ∈ [.str (unquote bytes), .date, .number, .other] := by
  unfold classifyFirst
  repeat' split
  all_goals simp_all

/-- The shapes `classify` tells apart: whitespace, an operator, one
punctuation byte, or a run read by its first byte. -/
theorem classify_shape (bytes : Bytes) :
    (bytes.all isAsciiWhitespace = true ∧ classify bytes = .ws) ∨
    (∃ b u, bytes = b :: u ∧ b ∈ [Byte.lt, Byte.gt, Byte.eq, Byte.bang, Byte.dash] ∧
      classify bytes ∈ [.arrow, .cmp]) ∨
    (∃ b, bytes = [b] ∧ b ∈ markBytes ∧ (classify bytes).isMark = true) ∨
    ∃ b u, bytes = b :: u ∧ classify bytes = classifyFirst b (b :: u) := by
  unfold classify
  by_cases hws : bytes.all isAsciiWhitespace = true
  · rw [if_pos hws]
    exact .inl ⟨hws, rfl⟩
  · rw [if_neg hws]
    right
    match bytes with
    | [] => exact absurd rfl hws
    | [b] =>
      dsimp only
      repeat' split
      case isTrue h =>
        left
        exact ⟨b, [], rfl, by rcases h with rfl | rfl <;> simp, by simp⟩
      case isFalse => exact .inr (.inr ⟨b, [], rfl, rfl⟩)
      all_goals
        right; left
        refine ⟨b, rfl, ?_, rfl⟩
        rename_i h
        rcases h with rfl | rfl | rfl <;> decide
    | [b, c] =>
      dsimp only
      split
      case isTrue h => exact .inl ⟨b, [c], rfl, by rw [h.1]; simp, by simp⟩
      case isFalse =>
        split
        case isTrue h =>
          exact .inl ⟨b, [c], rfl, by rcases h.2 with h | h | h | h <;> (rw [h]; simp), by simp⟩
        case isFalse => exact .inr (.inr ⟨b, [c], rfl, rfl⟩)
    | b :: c :: d :: u => exact .inr (.inr ⟨b, c :: d :: u, rfl, rfl⟩)

/-- A punctuation lexeme is one byte. -/
theorem classify_mark {bytes : Bytes} (h : (classify bytes).isMark = true) :
    ∃ b ∈ markBytes, bytes = [b] := by
  rcases classify_shape bytes with ⟨_, hws⟩ | ⟨b, u, _, _, hop⟩ | ⟨b, hb, hmem, _⟩ | ⟨b, u, _, hfirst⟩
  · rw [hws] at h
    cases h
  · simp only [List.mem_cons, List.not_mem_nil, or_false] at hop
    rcases hop with hop | hop <;> (rw [hop] at h; cases h)
  · exact ⟨b, hmem, hb⟩
  · rw [hfirst] at h
    rcases classifyFirst_cases b bytes with ⟨_, h'⟩ | h'
    · simp_all [Lexeme.isMark]
    · simp only [List.mem_cons, List.not_mem_nil, or_false] at h'
      subst bytes
      rcases h' with h' | h' | h' | h' <;> (rw [h'] at h; cases h)

/-- An identifier is its own text, and begins as one. -/
theorem classify_ident {bytes text : Bytes} (h : classify bytes = .ident text) :
    text = bytes ∧ ∃ b u, bytes = b :: u ∧ isIdentStart b = true := by
  rcases classify_shape bytes with ⟨_, hws⟩ | ⟨b, u, _, _, hop⟩ | ⟨b, _, _, hmark⟩ | ⟨b, u, rfl, hfirst⟩
  · rw [h] at hws
    cases hws
  · rw [h] at hop
    simp at hop
  · rw [h] at hmark
    cases hmark
  · rw [hfirst] at h
    rcases classifyFirst_cases b (b :: u) with ⟨hb, h'⟩ | h'
    · rw [h'] at h
      exact ⟨by cases h; rfl, b, u, rfl, hb⟩
    · rw [h] at h'
      simp at h'

/-- Conversely, a run that begins as an identifier is one. -/
theorem classify_of_identStart {b : UInt8} {u : Bytes} (hb : isIdentStart b = true)
    (hutf : isUtf8 (b :: u) = true) : classify (b :: u) = .ident (b :: u) := by
  have hnot : ∀ c ∈ [Byte.lt, Byte.gt, Byte.eq, Byte.bang, Byte.dash, Byte.quote, Byte.percent] ++
      markBytes, isIdentStart c = false := by decide +kernel
  have hne : ∀ c ∈ [Byte.lt, Byte.gt, Byte.eq, Byte.bang, Byte.dash, Byte.quote, Byte.percent] ++
      markBytes, b ≠ c := by
    rintro c hc rfl
    rw [hnot b hc] at hb
    cases hb
  have hplain : isAsciiWhitespace b = false ∧ isAsciiDigit b = false := by
    grind [isIdentStart, isAsciiAlphabetic, isAsciiLowercase, isAsciiWhitespace, isAsciiDigit]
  rcases classify_shape (b :: u) with ⟨hws, _⟩ | ⟨c, v, hcons, hmem, _⟩ | ⟨c, hcons, hmem, _⟩ |
    ⟨c, v, hcons, hfirst⟩
  · simp [hplain.1] at hws
  · obtain ⟨rfl, rfl⟩ := List.cons.inj hcons
    exact absurd rfl (hne b (List.mem_append_left ([Byte.quote, Byte.percent] ++ markBytes) hmem))
  · obtain ⟨rfl, _⟩ := List.cons.inj hcons
    exact absurd rfl (hne b (List.mem_append_right _ hmem))
  · obtain ⟨rfl, rfl⟩ := List.cons.inj hcons
    have hdash : (b == Byte.dash) = false := beq_eq_false_iff_ne.mpr (hne _ (by simp))
    rw [hfirst, classifyFirst, if_neg (hne _ (by simp)), if_neg (hne _ (by simp)),
      if_neg (by simp [hplain.2, hdash]), if_pos (by simp [hb, hutf])]

/-! ## The tracker -/

/-- The schema constraint at a position. -/
inductive L2Position where
  | sourceIdent
  | member (cls : Bytes)
  | reValue (tc : TypeClass)
  | column
  | relationColumn
  | none
  deriving DecidableEq, Repr

/-- `SOURCE_METHOD`. -/
def sourceMethod : Bytes := ascii "all"

/-- `NESTED_SOURCE_MIN_DEPTH`. -/
def nestedSourceMinDepth : Nat := 2

/-- `ESTABLISHING_METHODS`. -/
def establishingMethods : List Bytes := [ascii "project", ascii "groupBy", ascii "olapGroupBy"]

/-- `REF_METHODS`. -/
def refMethods : List Bytes :=
  [ascii "getInteger", ascii "getFloat", ascii "getString", ascii "getBoolean", ascii "sort",
   ascii "asc", ascii "desc", ascii "restrict"]

/-- A lexeme being accumulated across tokens. -/
structure Pending where
  kind : LexKind
  buf : Bytes
  anchor : State
  pos : L2Position
  deriving DecidableEq, Repr

/-- What a lambda binder shadowed. `prevClass` is `none` when the name had
no class binding. -/
structure BinderSave where
  depth : Nat
  name : Bytes
  prevClass : Option (Option Bytes)
  prevRelationRow : Bool
  deriving DecidableEq, Repr

/-- The enclosing pipeline's state at a lambda pipe. -/
structure ScopeSave where
  depth : Nat
  prevCurClass : Option Bytes
  prevRelExplicit : Bool
  prevSawTildeBracket : Bool
  deriving DecidableEq, Repr

structure ScopeTracker where
  pending : Option Pending
  curClass : Option Bytes
  varClass : Finmap fun _ : Bytes => Option Bytes
  pendingRefvar : Option Bytes
  dotBase : Option Bytes
  navCursor : Option Bytes
  lastResolved : Option TypeClass
  lastNavClass : Option Bytes
  cmpPending : Option TypeClass
  lambdaFirstIdent : Option Bytes
  pendingArrowReceiver : Option (Option Bytes)
  parenReceiver : List (Option Bytes)
  estStack : List Nat
  refStack : List Nat
  depth : Nat  -- a `u32`, see the module's header
  lastIdent : Option Bytes
  relExplicit : Bool
  sawTildeBracket : Bool
  tildeOpen : List Bool
  relationRowVars : Finset Bytes
  binderSaves : List BinderSave
  scopeSaves : List ScopeSave
  dotIsColumn : Bool
  emittedStrings : List Bytes
  deriving DecidableEq

namespace ScopeTracker

/-- A fresh tracker at the start of a stream. -/
def new : ScopeTracker where
  pending := none
  curClass := none
  varClass := ∅
  pendingRefvar := none
  dotBase := none
  navCursor := none
  lastResolved := none
  lastNavClass := none
  cmpPending := none
  lambdaFirstIdent := none
  pendingArrowReceiver := none
  parenReceiver := []
  estStack := []
  refStack := []
  depth := 0
  lastIdent := none
  relExplicit := false
  sawTildeBracket := false
  tildeOpen := []
  relationRowVars := ∅
  binderSaves := []
  scopeSaves := []
  dotIsColumn := false
  emittedStrings := []

/-- The class a lambda variable is bound to (`var_class.get(v).flatten()`). -/
def classOf (t : ScopeTracker) (v : Bytes) : Option Bytes := (t.varClass.lookup v).join

/-! ### The handlers -/

/-- `resolve_member`; the second component is `resolved_now`. -/
def resolveMember (t : ScopeTracker) (ident : Bytes) (schema : Schema) :
    ScopeTracker × Option TypeClass :=
  if t.dotIsColumn then
    ({ t with dotIsColumn := false, navCursor := none, lastNavClass := none }, none)
  else
    match t.dotBase with
    | none => (t, none)
    | some base =>
      let t := { t with dotBase := none }
      match schema.resolve base ident with
      | some (.cls path _) => ({ t with navCursor := some path, lastNavClass := some path }, none)
      | some (.primitive prim _) =>
        ({ t with navCursor := none, lastNavClass := none }, some prim.typeClass)
      | some (.enum _ _) | none => ({ t with navCursor := none, lastNavClass := none }, none)

/-- The match on the pre-state in `on_ident`. -/
def bindIdent (t : ScopeTracker) (text : Bytes) (preState : State) (schema : Schema) :
    ScopeTracker × Option TypeClass :=
  match preState with
  | .afterDollar => ({ t with pendingRefvar := some text }, none)
  | .afterDot => t.resolveMember text schema
  | .expectValue | .expectValueReq => ({ t with lambdaFirstIdent := some text }, none)
  | .afterColon | .afterColonWs =>
    if schema.hasClass text then (t, none) else ({ t with lambdaFirstIdent := some text }, none)
  | _ => (t, none)

/-- Whether an identifier opening at `preState` is a column name. -/
def recordsColumn (t : ScopeTracker) (preState : State) : Bool :=
  preState = .sawTilde
    || ((preState = .expectValue || preState = .expectValueReq) && t.tildeOpen.head? == some true)

def onIdent (t : ScopeTracker) (text : Bytes) (preState : State) (schema : Schema) :
    ScopeTracker × Option TypeClass :=
  let t := if schema.hasClass text then { t with curClass := some text } else t
  let (t, resolvedNow) := t.bindIdent text preState schema
  let t := if t.recordsColumn preState then
      { t with emittedStrings := t.emittedStrings ++ [text] } else t
  ({ t with lastIdent := some text }, resolvedNow)

def onDot (t : ScopeTracker) : ScopeTracker :=
  let t := { t with dotIsColumn := false }
  match t.pendingRefvar with
  | some var =>
    let t := { t with pendingRefvar := none }
    if var ∈ t.relationRowVars then { t with dotIsColumn := true, dotBase := none }
    else { t with dotBase := t.classOf var }
  | none =>
    match t.navCursor with
    | some cursor => { t with dotBase := some cursor }
    | none => { t with dotBase := none }

def onArrow (t : ScopeTracker) : ScopeTracker :=
  { t with
    lastNavClass := none
    pendingArrowReceiver := some (t.lastNavClass.or t.curClass)
    pendingRefvar := none
    navCursor := none
    lastIdent := none }

/-- The binder block of `on_pipe`. -/
def bindLambda (t : ScopeTracker) (name : Bytes) : ScopeTracker :=
  let t := { t with
    binderSaves := ⟨t.depth, name, t.varClass.lookup name, name ∈ t.relationRowVars⟩ ::
      t.binderSaves }
  let receiver := t.parenReceiver.head?.join
  if receiver.isNone && t.relExplicit && t.sawTildeBracket then
    { t with
      varClass := t.varClass.erase name
      relationRowVars := insert name t.relationRowVars }
  else
    { t with
      relationRowVars := t.relationRowVars.erase name
      varClass := t.varClass.insert name receiver }

def onPipe (t : ScopeTracker) (preState : State) : ScopeTracker :=
  if preState = .start ∨ preState = .expectSource then t
  else
    let t := { t with
      scopeSaves := ⟨t.depth, t.curClass, t.relExplicit, t.sawTildeBracket⟩ :: t.scopeSaves }
    match t.lambdaFirstIdent with
    | some name =>
      let t := { t with lambdaFirstIdent := none }
      if name.isEmpty then t else t.bindLambda name
    | none => t

/-- The method block of `on_open`, at the already raised depth. -/
def openMethod (t : ScopeTracker) (name : Bytes) : ScopeTracker :=
  let t := if establishingMethods.contains name then
      { t with estStack := t.depth :: t.estStack } else t
  let t := if refMethods.contains name then { t with refStack := t.depth :: t.refStack } else t
  if name = sourceMethod ∧ nestedSourceMinDepth ≤ t.depth then
    { t with relExplicit := false, sawTildeBracket := false }
  else t

def onOpen (t : ScopeTracker) (preState : State) : ScopeTracker :=
  let method := t.lastIdent
  let isTildeBracket : Bool := preState = .sawTilde
  let t := { t with
    lastIdent := none
    depth := t.depth + 1
    sawTildeBracket := t.sawTildeBracket || isTildeBracket
    tildeOpen := isTildeBracket :: t.tildeOpen }
  let t := match method with
    | some name => t.openMethod name
    | none => t
  { t with
    pendingArrowReceiver := none
    parenReceiver := t.pendingArrowReceiver.getD t.curClass :: t.parenReceiver
    lambdaFirstIdent := none }

/-- One round of the binder restore loop. -/
def restoreBinder (t : ScopeTracker) (save : BinderSave) : ScopeTracker :=
  { t with
    varClass := match save.prevClass with
      | some cls => t.varClass.insert save.name cls
      | none => t.varClass.erase save.name
    relationRowVars :=
      if save.prevRelationRow then insert save.name t.relationRowVars
      else t.relationRowVars.erase save.name }

/-- One round of the scope restore loop. -/
def restoreScope (t : ScopeTracker) (save : ScopeSave) : ScopeTracker :=
  { t with
    curClass := save.prevCurClass
    relExplicit := save.prevRelExplicit
    sawTildeBracket := save.prevSawTildeBracket }

/-- The first `while` loop of `on_close`: the saves of the closing depth are
on top of the stack. -/
def restoreBinders (t : ScopeTracker) : ScopeTracker :=
  (t.binderSaves.takeWhile (·.depth == t.depth)).foldl restoreBinder
    { t with binderSaves := t.binderSaves.dropWhile (·.depth == t.depth) }

/-- The second `while` loop of `on_close`. -/
def restoreScopes (t : ScopeTracker) : ScopeTracker :=
  (t.scopeSaves.takeWhile (·.depth == t.depth)).foldl restoreScope
    { t with scopeSaves := t.scopeSaves.dropWhile (·.depth == t.depth) }

def onClose (t : ScopeTracker) : ScopeTracker :=
  let t := t.restoreBinders.restoreScopes
  let t := { t with tildeOpen := t.tildeOpen.tail }
  let t := if t.refStack.head? = some t.depth then { t with refStack := t.refStack.tail } else t
  let t := if t.estStack.head? = some t.depth then
      { t with estStack := t.estStack.tail, relExplicit := true, curClass := none }
    else t
  { t with
    parenReceiver := t.parenReceiver.tail
    depth := t.depth - 1
    pendingArrowReceiver := none }

/-- The match on the lexeme in `dispatch_token`. -/
def dispatchLexeme (t : ScopeTracker) (lex : Lexeme) (preState : State) (schema : Schema) :
    ScopeTracker × Option TypeClass :=
  match lex with
  | .ident text => t.onIdent text preState schema
  | .dot => (t.onDot, none)
  | .arrow => (t.onArrow, none)
  | .cmp =>
    match t.lastResolved with
    | some tc => ({ t with cmpPending := some tc }, none)
    | none => (t, none)
  | .pipe => (t.onPipe preState, none)
  | .open => (t.onOpen preState, none)
  | .close => (t.onClose, none)
  | .comma => ({ t with lambdaFirstIdent := none, lastIdent := none }, none)
  | .str content =>
    ({ t with emittedStrings := t.emittedStrings ++ [content], lastIdent := none }, none)
  | .dollar | .number | .date | .other => ({ t with lastIdent := none }, none)
  | .ws => (t, none)

/-- Apply one whole piece's scope transition. -/
def dispatchToken (t : ScopeTracker) (bytes : Bytes) (preState : State) (schema : Schema) :
    ScopeTracker :=
  let lex := classify bytes
  if lex = .ws then t
  else
    let (t, resolvedNow) := t.dispatchLexeme lex preState schema
    let t := { t with lastResolved := resolvedNow }
    if lex = .cmp then t else { t with cmpPending := none }

/-! ### Positions -/

/-- Whether a column reference is narrowed here. -/
def inColumnArg (t : ScopeTracker) : Bool :=
  !t.refStack.isEmpty && t.relExplicit && t.estStack.isEmpty

/-- The rule at the anchor `state` where a lexeme opens. -/
def openingPosition (t : ScopeTracker) (state : State) : L2Position :=
  match state with
  | .expectSource | .blockStmt | .blockStmtClose => .sourceIdent
  | .afterDot =>
    if t.dotIsColumn then .relationColumn
    else match t.dotBase with
      | some base => .member base
      | none => .none
  | .expectValue | .expectValueReq =>
    match t.cmpPending with
    | some tc => .reValue tc
    | none => if t.inColumnArg then .column else .none
  | _ => .none

/-- The constraint at the current automaton state. -/
def position (t : ScopeTracker) (state : State) : L2Position :=
  if state.lexemeKind.isSome then
    match t.pending with
    | some pending => pending.pos
    | none => .none
  else t.openingPosition state

def navFromVar (t : ScopeTracker) (var : Bytes) : Option L2Position :=
  if var ∈ t.relationRowVars then some .relationColumn else (t.classOf var).map .member

def navFromMember (t : ScopeTracker) (member : Bytes) (schema : Schema) : Option L2Position :=
  match t.dotBase with
  | none => none
  | some base =>
    match schema.resolve base member with
    | some (.cls path _) => some (.member path)
    | _ => none

/-- The target of a fused navigation dot (`.<member>` in one token). -/
def fusedNavPosition (t : ScopeTracker) (schema : Schema) : Option L2Position :=
  match t.pending with
  | some pending =>
    if pending.kind ≠ .ident then none
    else if !isUtf8 pending.buf then none
    else match pending.anchor with
      | .afterDollar => t.navFromVar pending.buf
      | .afterDot => t.navFromMember pending.buf schema
      | _ => none
  | none =>
    match t.pendingRefvar with
    | some var => t.navFromVar var
    | none => t.navCursor.map .member

/-- The bytes of the lexeme in flight. -/
def narrowPrefix (t : ScopeTracker) : Bytes :=
  match t.pending with
  | some pending => pending.buf
  | none => []

/-- The legal column set: every name recorded so far. -/
def emittedColumns (t : ScopeTracker) : List Bytes := t.emittedStrings

/-! ### Observing a token -/

/-- `if let [x, y, ..] = rest && is_two_byte_op(x, y)`. -/
def startsTwoByteOp : Bytes → Bool
  | x :: y :: _ => isTwoByteOp x y
  | _ => false

/-- The loop of `flush_gap`, cutting a structural gap by maximal munch:
whitespace is dropped, two-byte operators and identifier runs stay whole,
any other byte is a piece of its own. Every round takes a byte, so the
length of the gap bounds the rounds. -/
def munchGap : Nat → Bytes → List Bytes
  | 0, _ => []
  | _ + 1, [] => []
  | n + 1, b :: tail =>
    if isAsciiWhitespace b then munchGap n tail
    else if startsTwoByteOp (b :: tail) then
      (b :: tail).take 2 :: munchGap n ((b :: tail).drop 2)
    else if isIdentStart b then
      (b :: tail).takeWhile isIdentTail :: munchGap n ((b :: tail).dropWhile isIdentTail)
    else [b] :: munchGap n tail

/-- The pieces of a structural gap. -/
def gapTokens (gap : Bytes) : List Bytes := munchGap gap.length gap

/-- Dispatch the pieces of a gap, all under the gap's anchor. -/
def flushGap (t : ScopeTracker) (gap : Bytes) (anchor : State) (schema : Schema) :
    ScopeTracker :=
  (gapTokens gap).foldl (fun t piece => t.dispatchToken piece anchor schema) t

/-- Dispatch a closed lexeme, prepending the buffer it continues. -/
def emitLexeme (t : ScopeTracker) (seg : Bytes) (anchor : State) (continuing : Bool)
    (schema : Schema) : ScopeTracker :=
  match continuing, t.pending with
  | true, some done =>
    { t with pending := none }.dispatchToken (done.buf ++ seg) done.anchor schema
  | _, _ => t.dispatchToken seg anchor schema

/-- Buffer a lexeme still open at the token's end. -/
def bufferTrailing (t : ScopeTracker) (kind : LexKind) (seg : Bytes) (anchor : State)
    (continuing : Bool) : ScopeTracker :=
  if continuing then
    { t with pending := t.pending.map fun pending => { pending with buf := pending.buf ++ seg } }
  else
    let pos := match t.openingPosition anchor with
      | .reValue _ => .none
      | narrowed => narrowed
    { t with pending := some ⟨kind, seg, anchor, pos⟩ }

/-- The locals of the walk in `observe`: the automaton configuration, the
segment being read (`bytes[seg_start..i]`), its anchor, whether it
continues a buffered lexeme, and the tracker itself. -/
structure Walker where
  state : State
  stack : List Frame
  seg : Bytes
  anchor : State
  continuing : Bool
  tracker : ScopeTracker

/-- The locals before the first byte. -/
def beginWalk (t : ScopeTracker) (pre : Pda) (schema : Schema) : Walker :=
  match t.pending with
  | some p =>
    if pre.state.lexemeKind = some p.kind then
      ⟨pre.state, pre.stack, [], p.anchor, true, t⟩
    else
      -- an unclosed lexeme this token does not continue
      ⟨pre.state, pre.stack, [], pre.state, false,
        { t with pending := none }.dispatchToken p.buf p.anchor schema⟩
  | none => ⟨pre.state, pre.stack, [], pre.state, false, t⟩

/-- One round of the walk: read `b` and move to configuration `c`. -/
def Walker.read (w : Walker) (schema : Schema) (b : UInt8) (c : State × List Frame) : Walker :=
  let before := w.state
  match before.lexemeKind with
  | some k =>
    if c.1.lexemeKind = some k then
      { w with state := c.1, stack := c.2, seg := w.seg ++ [b] }
    else
      -- `b` ended the lexeme and opens the next segment
      ⟨c.1, c.2, [b], before, false,
        w.tracker.emitLexeme w.seg w.anchor w.continuing schema⟩
  | none =>
    if c.1.lexemeKind.isSome then
      ⟨c.1, c.2, [b], before, false, w.tracker.flushGap w.seg w.anchor schema⟩
    else { w with state := c.1, stack := c.2, seg := w.seg ++ [b] }

/-- The walk; a dead byte returns the tracker as it is. -/
def Walker.walk (w : Walker) (schema : Schema) : Bytes → Except ScopeTracker Walker
  | [] => .ok w
  | b :: rest =>
    match Pushdown.advance step (w.state, w.stack) b with
    | some c => (w.read schema b c).walk schema rest
    | none => .error w.tracker

/-- The trailing segment. -/
def Walker.finish (w : Walker) (schema : Schema) : ScopeTracker :=
  match w.state.lexemeKind with
  | some kind => w.tracker.bufferTrailing kind w.seg w.anchor w.continuing
  | none => w.tracker.flushGap w.seg w.anchor schema

/-- Advance the scope machine by one committed token. -/
def observe (t : ScopeTracker) (bytes : Bytes) (pre : Pda) (schema : Schema) : ScopeTracker :=
  match (t.beginWalk pre schema).walk schema bytes with
  | .ok w => w.finish schema
  | .error t => t

end ScopeTracker

end PureCard
