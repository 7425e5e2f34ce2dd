/-
PureCard.Grammar.Pda — the byte-level pushdown automaton of the
emitted-Pure grammar (`src/grammar/pda.rs`).

`step` is the pure transition function `(state, stack_top, byte) ↦ Step`.
In the source it calls itself when a state that has seen the first byte
of an operator hands the next byte back to a hub state. Those calls go
to three states only, `AfterValue`, `ExpectValueReq` and `InSourceIdent`,
and none of the three hands a byte on, so here each hub is a definition
of its own (`afterValue`, `valuePosition`, `inSourceIdent`) that `step`
uses both for the hub and for the states that delegate to it.

The frame stack is a list with the top first. `Step` is the `Move` of
`PureCard.Lib.Pushdown`; `Pda.advance` and the replay loop of
`Pda.admits` are that library's `advance` and `run` at `step`.
-/
import PureCard.Bytes
import PureCard.Lib.Pushdown

namespace PureCard

open Pushdown

/-- A position in the byte-level parse: the two value hubs
`expectValue` / `expectValueReq` and `afterValue`, and the transient
lexical positions around them. -/
inductive State where
  | start
  | expectSource
  | afterBraceOpen
  | blockStmt
  | blockStmtClose
  | inSourceIdent
  | sourceColon
  | sourceColon2
  | sourceDash
  | letL
  | letLe
  | letLet
  | expectBinder
  | inBinder
  | afterBinder
  | inMultiplicity
  | expectBraceBinder
  | afterColonWs
  | expectValue
  | expectValueReq
  | afterValue
  | inIdent
  | sawNumSign
  | inNumberInt
  | needFracDigit
  | inNumberFrac
  | sawExp
  | needExpDigit
  | inExp
  | inStrLit (escaped : Bool)
  | sawPercent
  | inDateLit
  | inMilestoneLit
  | afterDollar
  | afterDot
  | afterArrow
  | afterColon
  | afterColon2
  | sawDash
  | sawPipe
  | sawEq
  | sawBang
  | sawGt
  | sawLt
  | sawAmp
  | sawTilde
  deriving DecidableEq, Repr

/-- The stable name an error reports for a state. -/
def State.name : State → String
  | .start => "Start"
  | .expectSource => "ExpectSource"
  | .afterBraceOpen => "AfterBraceOpen"
  | .blockStmt => "BlockStmt"
  | .blockStmtClose => "BlockStmtClose"
  | .inSourceIdent => "InSourceIdent"
  | .sourceColon => "SourceColon"
  | .sourceColon2 => "SourceColon2"
  | .sourceDash => "SourceDash"
  | .letL => "LetL"
  | .letLe => "LetLe"
  | .letLet => "LetLet"
  | .expectBinder => "ExpectBinder"
  | .inBinder => "InBinder"
  | .afterBinder => "AfterBinder"
  | .inMultiplicity => "InMultiplicity"
  | .expectBraceBinder => "ExpectBraceBinder"
  | .afterColonWs => "AfterColonWs"
  | .expectValue => "ExpectValue"
  | .expectValueReq => "ExpectValueReq"
  | .afterValue => "AfterValue"
  | .inIdent => "InIdent"
  | .sawNumSign => "SawNumSign"
  | .inNumberInt => "InNumberInt"
  | .needFracDigit => "NeedFracDigit"
  | .inNumberFrac => "InNumberFrac"
  | .sawExp => "SawExp"
  | .needExpDigit => "NeedExpDigit"
  | .inExp => "InExp"
  | .inStrLit false => "InStrLit"
  | .inStrLit true => "InStrLit(pendingQuote)"
  | .sawPercent => "SawPercent"
  | .inDateLit => "InDateLit"
  | .inMilestoneLit => "InMilestoneLit"
  | .afterDollar => "AfterDollar"
  | .afterDot => "AfterDot"
  | .afterArrow => "AfterArrow"
  | .afterColon => "AfterColon"
  | .afterColon2 => "AfterColon2"
  | .sawDash => "SawDash"
  | .sawPipe => "SawPipe"
  | .sawEq => "SawEq"
  | .sawBang => "SawBang"
  | .sawGt => "SawGt"
  | .sawLt => "SawLt"
  | .sawAmp => "SawAmp"
  | .sawTilde => "SawTilde"

/-- `State::COUNT`: the number of automaton states. -/
def State.count : Nat := 47

/-- The dense index a per-state cache is keyed by. -/
def State.index : State → Nat
  | .start => 0
  | .expectSource => 1
  | .afterBraceOpen => 2
  | .blockStmt => 3
  | .blockStmtClose => 4
  | .inSourceIdent => 5
  | .sourceColon => 6
  | .sourceColon2 => 7
  | .sourceDash => 8
  | .letL => 9
  | .letLe => 10
  | .letLet => 11
  | .expectBinder => 12
  | .inBinder => 13
  | .afterBinder => 14
  | .inMultiplicity => 15
  | .expectBraceBinder => 16
  | .afterColonWs => 17
  | .expectValue => 18
  | .expectValueReq => 19
  | .afterValue => 20
  | .inIdent => 21
  | .sawNumSign => 22
  | .inNumberInt => 23
  | .needFracDigit => 24
  | .inNumberFrac => 25
  | .inStrLit false => 26
  | .inStrLit true => 27
  | .sawPercent => 28
  | .inDateLit => 29
  | .afterDollar => 30
  | .afterDot => 31
  | .afterArrow => 32
  | .afterColon => 33
  | .afterColon2 => 34
  | .sawDash => 35
  | .sawPipe => 36
  | .sawEq => 37
  | .sawBang => 38
  | .sawGt => 39
  | .sawLt => 40
  | .sawAmp => 41
  | .inMilestoneLit => 42
  | .sawTilde => 43
  | .sawExp => 44
  | .needExpDigit => 45
  | .inExp => 46

/-- The four lexeme classes a partial token can be inside. -/
inductive LexKind where
  | ident
  | number
  | str
  | date
  deriving DecidableEq, Repr

/-- The lexeme class a state is inside, if any. A lexeme is open while
this is `some k`. -/
def State.lexemeKind : State → Option LexKind
  | .inIdent | .inSourceIdent | .inBinder | .sourceColon | .sourceColon2 => some .ident
  | .sawNumSign | .inNumberInt | .needFracDigit | .inNumberFrac | .sawExp | .needExpDigit
  | .inExp => some .number
  | .sawPercent | .inDateLit | .inMilestoneLit => some .date
  | .inStrLit _ => some .str
  | _ => none

/-- A stack frame: an open delimiter awaiting its match. -/
inductive Frame where
  | paren
  | bracket
  | brace
  | braceLambda
  deriving DecidableEq, Repr

/-- The stable name an error reports for a frame. -/
def Frame.name : Frame → String
  | .paren => "Paren"
  | .bracket => "Bracket"
  | .brace => "Brace"
  | .braceLambda => "BraceLambda"

/-- `ALL_FRAMES`: the whole stack alphabet. -/
def allFrames : List Frame := [.paren, .bracket, .brace, .braceLambda]

theorem mem_allFrames (f : Frame) : f ∈ allFrames := by cases f <;> decide

/-- The outcome of feeding one byte to `step`. -/
abbrev Step := Move State Frame

/-! ## Byte classes -/

/-- `WS`: the inter-token whitespace. -/
def isWs (b : UInt8) : Bool := b == 32 || b == 9 || b == 10 || b == 13

def isIdentStart (b : UInt8) : Bool := isAsciiAlphabetic b || b == Byte.underscore

def isIdentTail (b : UInt8) : Bool := isAsciiAlphanumeric b || b == Byte.underscore

/-- The bytes of a `%`-prefixed date literal. -/
def isDateChar (b : UInt8) : Bool :=
  isAsciiDigit b || b == Byte.dash || b == Byte.bigT || b == Byte.colon

/-- `VALUE_BOUNDARY`: the byte `isAccepting` probes a state with. -/
def valueBoundary : UInt8 := Byte.space

/-! ## The transition function -/

/-- Close `top` if `b` is its matching closer. -/
def close (top : Option Frame) (b : UInt8) : Step :=
  match top with
  | some .paren => if b = Byte.rparen then .pop .afterValue else .dead
  | some .bracket => if b = Byte.rbracket then .pop .afterValue else .dead
  | some .brace => if b = Byte.rbrace then .pop .afterValue else .dead
  | some .braceLambda => if b = Byte.rbrace then .pop .afterValue else .dead
  | none => .dead

/-- A `match` on a byte: the first arm whose guard holds, else the
wildcard arm. -/
def pick {α : Type} : List (Bool × α) → α → α
  | [], wild => wild
  | (guard, a) :: arms, wild => if guard then a else pick arms wild

/-- The shared body of the two value-position hubs. -/
def valuePosition (top : Option Frame) (b : UInt8) (allowClose : Bool) : Step :=
  pick
    [(isWs b, .next (if allowClose then .expectValue else .expectValueReq)),
     (isIdentStart b, .next .inIdent),
     (isAsciiDigit b, .next .inNumberInt),
     (b == Byte.dash, .next .sawNumSign),
     (b == Byte.dot, .next .needFracDigit),
     (b == Byte.quote, .next (.inStrLit false)),
     (b == Byte.percent, .next .sawPercent),
     (b == Byte.dollar, .next .afterDollar),
     (b == Byte.tilde, .next .sawTilde),
     (b == Byte.lparen, .push .paren .expectValue),
     (b == Byte.lbracket, .push .bracket .expectValue),
     (b == Byte.lbrace, .push .braceLambda .expectBraceBinder),
     (b == Byte.pipe, .next .expectValueReq),
     (b == Byte.bang, .next .expectValueReq),
     -- `*` is a multiplicity, legal only right after a `[`
     (b == Byte.star && allowClose && top == some .bracket, .next .inMultiplicity),
     ((b == Byte.rparen || b == Byte.rbracket || b == Byte.rbrace) && allowClose, close top b)]
    .dead

/-- The shared body of the two block-statement states. -/
def blockStmt (top : Option Frame) (b : UInt8) (allowClose : Bool) : Step :=
  pick
    [(isWs b, .next (if allowClose then .blockStmtClose else .blockStmt)),
     -- `l` may begin the `let` keyword
     (b == Byte.l, .next .letL),
     (isIdentStart b, .next .inSourceIdent),
     (b == Byte.dollar, .next .afterDollar),
     (b == Byte.rbrace && allowClose, close top b)]
    .dead

/-- The `AfterValue` hub. -/
def afterValue (top : Option Frame) (b : UInt8) : Step :=
  pick
    [(isWs b, .next .afterValue),
     (b == Byte.dash, .next .sawDash),
     (b == Byte.gt, .next .sawGt),
     (b == Byte.lt, .next .sawLt),
     (b == Byte.eq, .next .sawEq),
     (b == Byte.bang, .next .sawBang),
     (b == Byte.amp, .next .sawAmp),
     (b == Byte.pipe, .next .sawPipe),
     (b == Byte.plus || b == Byte.star || b == Byte.slash, .next .expectValueReq),
     (b == Byte.dot, .next .afterDot),
     (b == Byte.colon, .next .afterColon),
     (b == Byte.lparen, .push .paren .expectValue),
     (b == Byte.lbracket, .push .bracket .expectValue),
     (b == Byte.comma && top.isSome, .next .expectValueReq),
     (b == Byte.semi && top == some .brace, .next .blockStmtClose),
     (b == Byte.rparen || b == Byte.rbracket || b == Byte.rbrace, close top b)]
    .dead

/-- A pipeline source classpath: not yet a completed value. -/
def inSourceIdent (b : UInt8) : Step :=
  if isIdentTail b then .next .inSourceIdent
  else if b = Byte.dot then .next .afterDot
  else if b = Byte.dash then .next .sourceDash
  else if b = Byte.colon then .next .sourceColon
  else .dead

/-- The states that have seen the first byte of an operator and hand any
byte other than the second back to `expectValueReq`. -/
def orExpectValueReq (second : UInt8) (s : State) (top : Option Frame) (b : UInt8) : Step :=
  if b = second then .next s else valuePosition top b false

/-- The states where exactly one byte class may follow. -/
def demand (ok : Bool) (s : State) : Step := if ok then .next s else .dead

/-- The pure transition function. -/
def step (state : State) (top : Option Frame) (b : UInt8) : Step :=
  match state with
  | .start =>
    if isWs b then .next .start
    else if b = Byte.pipe then .next .expectSource
    else if b = Byte.lbrace then .push .brace .afterBraceOpen
    else .dead
  | .expectSource =>
    if isWs b then .next .expectSource
    else if isIdentStart b then .next .inSourceIdent
    else .dead
  | .afterBraceOpen =>
    if isWs b then .next .afterBraceOpen
    else if b = Byte.pipe then .next .blockStmt
    else .dead
  | .blockStmt => blockStmt top b false
  | .blockStmtClose => blockStmt top b true
  | .expectValue => valuePosition top b true
  | .expectValueReq => valuePosition top b false
  | .afterValue => afterValue top b
  | .inIdent => if isIdentTail b then .next .inIdent else afterValue top b
  | .inSourceIdent => inSourceIdent b
  | .sourceColon => demand (b = Byte.colon) .sourceColon2
  | .sourceColon2 => demand (isIdentStart b) .inSourceIdent
  | .sourceDash => demand (b = Byte.gt) .afterArrow
  | .letL => if b = Byte.e then .next .letLe else inSourceIdent b
  | .letLe => if b = Byte.t then .next .letLet else inSourceIdent b
  | .letLet => if isWs b then .next .expectBinder else inSourceIdent b
  | .expectBinder =>
    if isWs b then .next .expectBinder
    else if isIdentStart b then .next .inBinder
    else .dead
  | .inBinder =>
    if isIdentTail b then .next .inBinder
    else if isWs b then .next .afterBinder
    else if b = Byte.eq then .next .expectSource
    else .dead
  | .afterBinder =>
    if isWs b then .next .afterBinder
    else if b = Byte.eq then .next .expectSource
    else .dead
  | .inMultiplicity => if b = Byte.rbracket then close top b else .dead
  | .expectBraceBinder =>
    if isWs b then .next .expectBraceBinder
    else if isIdentStart b then .next .inIdent
    else .dead
  | .sawNumSign =>
    if isAsciiDigit b then .next .inNumberInt
    else if b = Byte.dot then .next .needFracDigit
    else .dead
  | .inNumberInt =>
    if isAsciiDigit b then .next .inNumberInt
    else if b = Byte.dot then .next .needFracDigit
    else afterValue top b
  | .needFracDigit => demand (isAsciiDigit b) .inNumberFrac
  | .inNumberFrac =>
    if isAsciiDigit b then .next .inNumberFrac
    else if b = Byte.e ∨ b = Byte.bigE then .next .sawExp
    else afterValue top b
  | .sawExp =>
    if b = Byte.plus ∨ b = Byte.dash then .next .needExpDigit
    else if isAsciiDigit b then .next .inExp
    else .dead
  | .needExpDigit => demand (isAsciiDigit b) .inExp
  | .inExp => if isAsciiDigit b then .next .inExp else afterValue top b
  | .inStrLit true =>
    -- the pending quote: doubled, or the string had already closed
    if b = Byte.quote then .next (.inStrLit false) else afterValue top b
  | .inStrLit false =>
    if b = Byte.quote then .next (.inStrLit true) else .next (.inStrLit false)
  | .sawPercent =>
    if isDateChar b then .next .inDateLit
    else if isAsciiLowercase b then .next .inMilestoneLit
    else .dead
  | .inDateLit =>
    if isDateChar b || b == Byte.dot then .next .inDateLit else afterValue top b
  | .inMilestoneLit =>
    if isAsciiLowercase b then .next .inMilestoneLit else afterValue top b
  | .afterDollar => demand (isIdentStart b) .inIdent
  | .afterDot =>
    if isWs b then .next .afterDot
    else if isIdentStart b then .next .inIdent
    else if b = Byte.quote then .next (.inStrLit false)
    else .dead
  | .afterArrow =>
    if isWs b then .next .afterArrow
    else if isIdentStart b then .next .inIdent
    else .dead
  | .afterColon =>
    if isWs b then .next .afterColonWs
    else if b = Byte.colon then .next .afterColon2
    else if isIdentStart b then .next .inIdent
    else if b = Byte.lbrace then .push .braceLambda .expectBraceBinder
    else .dead
  | .afterColonWs =>
    if isWs b then .next .afterColonWs
    else if isIdentStart b then .next .inIdent
    else if b = Byte.lbrace then .push .braceLambda .expectBraceBinder
    else .dead
  | .afterColon2 => demand (isIdentStart b) .inIdent
  | .sawDash => orExpectValueReq Byte.gt .afterArrow top b
  | .sawPipe => orExpectValueReq Byte.pipe .expectValueReq top b
  | .sawEq => demand (b = Byte.eq) .expectValueReq
  | .sawBang => demand (b = Byte.eq) .expectValueReq
  | .sawGt => orExpectValueReq Byte.eq .expectValueReq top b
  | .sawLt => orExpectValueReq Byte.eq .expectValueReq top b
  | .sawAmp => demand (b = Byte.amp) .expectValueReq
  | .sawTilde =>
    if b = Byte.lbracket then .push .bracket .expectValue
    else if b = Byte.quote then .next (.inStrLit false)
    else if isIdentStart b then .next .inIdent
    else .dead

/-! ## The driver -/

/-- The names of the state and the top frame at which a byte was
rejected. -/
structure DeadState where
  state : String
  stackTop : String
  deriving DecidableEq, Repr

/-- The mutable driver over `step`: a state and a frame stack. -/
structure Pda where
  state : State
  stack : List Frame
  deriving DecidableEq, Repr

namespace Pda

/-- The configuration the library's machine runs on. -/
def config (p : Pda) : State × List Frame := (p.state, p.stack)

def ofConfig (c : State × List Frame) : Pda := ⟨c.1, c.2⟩

@[simp] theorem config_ofConfig (c : State × List Frame) : (ofConfig c).config = c := rfl

@[simp] theorem ofConfig_config (p : Pda) : ofConfig p.config = p := rfl

/-- A fresh automaton. -/
def new : Pda := ⟨.start, []⟩

/-- A configuration pinned at `state` with an empty stack (`Pda::at`). -/
def pinned (state : State) : Pda := ⟨state, []⟩

def stackTop (p : Pda) : Option Frame := p.stack.head?

/-- Feed one byte. An error leaves the automaton as it was. -/
def advance (p : Pda) (b : UInt8) : Except DeadState Pda :=
  match Pushdown.advance step p.config b with
  | some c => .ok (ofConfig c)
  | none => .error ⟨p.state.name, (p.stackTop.map Frame.name).getD "none"⟩

/-- Feed a byte string, stopping at the first byte that dies. -/
def advanceAll (p : Pda) : Bytes → Except DeadState Pda
  | [] => .ok p
  | b :: rest =>
    match p.advance b with
    | .ok p' => p'.advanceAll rest
    | .error dead => .error dead

/-- Whether the stream so far is a complete query. -/
def isAccepting (p : Pda) : Bool :=
  p.stack.isEmpty && step p.state none valueBoundary = .next .afterValue

/-- Whether replaying `bytes` keeps the automaton alive. -/
def admits (p : Pda) (bytes : Bytes) : Bool :=
  (Pushdown.run step p.config bytes).isSome

end Pda

/-- The outcome of a `Pda.probe`. -/
structure Probe where
  alive : Bool
  consultedAmbient : Bool
  deriving DecidableEq, Repr

/-- Whether a byte that dies on the empty stack lives under some frame. -/
def livesUnderSomeFrame (s : State) (b : UInt8) : Bool :=
  allFrames.any fun f => step s (some f) b ≠ .dead

/-- The replay loop of `Pda::probe` over the scratch stack. -/
def probeLoop (state : State) (scratch : List Frame) : Bytes → Probe
  | [] => { alive := true, consultedAmbient := false }
  | b :: rest =>
    match Pushdown.advance step (state, scratch) b with
    | some c => probeLoop c.1 c.2 rest
    | none =>
      { alive := false
        consultedAmbient := scratch.isEmpty && livesUnderSomeFrame state b }

/-- Replay `bytes` without touching the automaton, classifying whether a
dead verdict depended on the frames beneath. -/
def Pda.probe (p : Pda) (bytes : Bytes) : Probe := probeLoop p.state p.stack bytes

end PureCard
