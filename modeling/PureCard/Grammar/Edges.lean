/-
PureCard.Grammar.Edges — what a step can do, as a table.

`edges s` lists the moves out of a state, each with the class of bytes
that takes it. `step_inTable` says that a step is dead or one of them; what
the stack adds is only when a listed move is dead instead. A statement
about every step is then a statement about the entries of the table, which
is finite and is checked by evaluation (`advance_check`, and
`advance_checkMoves` where the move itself matters).
-/
import PureCard.Grammar.PdaTheorems

namespace PureCard

open Pushdown

/-- The classes of bytes the transition function tells apart. -/
inductive ByteClass where
  | ws
  | identStart
  | identTail
  | digit
  | lower
  | dateChar
  | dateOrDot
  | notQuote
  | one (b : UInt8)
  deriving DecidableEq, Repr

def ByteClass.has : ByteClass → UInt8 → Bool
  | .ws, b => isWs b
  | .identStart, b => isIdentStart b
  | .identTail, b => isIdentTail b
  | .digit, b => isAsciiDigit b
  | .lower, b => isAsciiLowercase b
  | .dateChar, b => isDateChar b
  | .dateOrDot, b => isDateChar b || b == Byte.dot
  | .notQuote, b => b != Byte.quote
  | .one c, b => b == c

/-- A row of the table: the bytes that take a move, and the move. -/
abbrev Edge := ByteClass × Step

def valueEdges (allowClose : Bool) : List Edge :=
  [(.ws, .next (if allowClose then .expectValue else .expectValueReq)),
   (.identStart, .next .inIdent), (.digit, .next .inNumberInt),
   (.one Byte.dash, .next .sawNumSign), (.one Byte.dot, .next .needFracDigit),
   (.one Byte.quote, .next (.inStrLit false)), (.one Byte.percent, .next .sawPercent),
   (.one Byte.dollar, .next .afterDollar), (.one Byte.tilde, .next .sawTilde),
   (.one Byte.lparen, .push .paren .expectValue),
   (.one Byte.lbracket, .push .bracket .expectValue),
   (.one Byte.lbrace, .push .braceLambda .expectBraceBinder),
   (.one Byte.pipe, .next .expectValueReq), (.one Byte.bang, .next .expectValueReq)] ++
  if allowClose then
    [(.one Byte.star, .next .inMultiplicity), (.one Byte.rparen, .pop .afterValue),
     (.one Byte.rbracket, .pop .afterValue), (.one Byte.rbrace, .pop .afterValue)]
  else []

def blockEdges (allowClose : Bool) : List Edge :=
  [(.ws, .next (if allowClose then .blockStmtClose else .blockStmt)), (.one Byte.l, .next .letL),
   (.identStart, .next .inSourceIdent), (.one Byte.dollar, .next .afterDollar)] ++
  if allowClose then [(.one Byte.rbrace, .pop .afterValue)] else []

def afterValueEdges : List Edge :=
  [(.ws, .next .afterValue), (.one Byte.dash, .next .sawDash), (.one Byte.gt, .next .sawGt),
   (.one Byte.lt, .next .sawLt), (.one Byte.eq, .next .sawEq), (.one Byte.bang, .next .sawBang),
   (.one Byte.amp, .next .sawAmp), (.one Byte.pipe, .next .sawPipe),
   (.one Byte.plus, .next .expectValueReq), (.one Byte.star, .next .expectValueReq),
   (.one Byte.slash, .next .expectValueReq), (.one Byte.dot, .next .afterDot),
   (.one Byte.colon, .next .afterColon), (.one Byte.lparen, .push .paren .expectValue),
   (.one Byte.lbracket, .push .bracket .expectValue), (.one Byte.comma, .next .expectValueReq),
   (.one Byte.semi, .next .blockStmtClose), (.one Byte.rparen, .pop .afterValue),
   (.one Byte.rbracket, .pop .afterValue), (.one Byte.rbrace, .pop .afterValue)]

def sourceEdges : List Edge :=
  [(.identTail, .next .inSourceIdent), (.one Byte.dot, .next .afterDot),
   (.one Byte.dash, .next .sourceDash), (.one Byte.colon, .next .sourceColon)]

/-- The moves out of a state. -/
def edges : State → List Edge
  | .start =>
    [(.ws, .next .start), (.one Byte.pipe, .next .expectSource),
     (.one Byte.lbrace, .push .brace .afterBraceOpen)]
  | .expectSource => [(.ws, .next .expectSource), (.identStart, .next .inSourceIdent)]
  | .afterBraceOpen => [(.ws, .next .afterBraceOpen), (.one Byte.pipe, .next .blockStmt)]
  | .blockStmt => blockEdges false
  | .blockStmtClose => blockEdges true
  | .expectValue => valueEdges true
  | .expectValueReq => valueEdges false
  | .afterValue => afterValueEdges
  | .inIdent => (.identTail, .next .inIdent) :: afterValueEdges
  | .inSourceIdent => sourceEdges
  | .sourceColon => [(.one Byte.colon, .next .sourceColon2)]
  | .sourceColon2 => [(.identStart, .next .inSourceIdent)]
  | .sourceDash => [(.one Byte.gt, .next .afterArrow)]
  | .letL => (.one Byte.e, .next .letLe) :: sourceEdges
  | .letLe => (.one Byte.t, .next .letLet) :: sourceEdges
  | .letLet => (.ws, .next .expectBinder) :: sourceEdges
  | .expectBinder => [(.ws, .next .expectBinder), (.identStart, .next .inBinder)]
  | .inBinder =>
    [(.identTail, .next .inBinder), (.ws, .next .afterBinder), (.one Byte.eq, .next .expectSource)]
  | .afterBinder => [(.ws, .next .afterBinder), (.one Byte.eq, .next .expectSource)]
  | .inMultiplicity => [(.one Byte.rbracket, .pop .afterValue)]
  | .expectBraceBinder => [(.ws, .next .expectBraceBinder), (.identStart, .next .inIdent)]
  | .sawNumSign => [(.digit, .next .inNumberInt), (.one Byte.dot, .next .needFracDigit)]
  | .inNumberInt =>
    (.digit, .next .inNumberInt) :: (.one Byte.dot, .next .needFracDigit) :: afterValueEdges
  | .needFracDigit => [(.digit, .next .inNumberFrac)]
  | .inNumberFrac =>
    (.digit, .next .inNumberFrac) :: (.one Byte.e, .next .sawExp) ::
      (.one Byte.bigE, .next .sawExp) :: afterValueEdges
  | .sawExp =>
    [(.one Byte.plus, .next .needExpDigit), (.one Byte.dash, .next .needExpDigit),
     (.digit, .next .inExp)]
  | .needExpDigit => [(.digit, .next .inExp)]
  | .inExp => (.digit, .next .inExp) :: afterValueEdges
  | .inStrLit false => [(.one Byte.quote, .next (.inStrLit true)), (.notQuote, .next (.inStrLit false))]
  | .inStrLit true => (.one Byte.quote, .next (.inStrLit false)) :: afterValueEdges
  | .sawPercent => [(.dateChar, .next .inDateLit), (.lower, .next .inMilestoneLit)]
  | .inDateLit => (.dateOrDot, .next .inDateLit) :: afterValueEdges
  | .inMilestoneLit => (.lower, .next .inMilestoneLit) :: afterValueEdges
  | .afterDollar => [(.identStart, .next .inIdent)]
  | .afterDot =>
    [(.ws, .next .afterDot), (.identStart, .next .inIdent), (.one Byte.quote, .next (.inStrLit false))]
  | .afterArrow => [(.ws, .next .afterArrow), (.identStart, .next .inIdent)]
  | .afterColon =>
    [(.ws, .next .afterColonWs), (.one Byte.colon, .next .afterColon2), (.identStart, .next .inIdent),
     (.one Byte.lbrace, .push .braceLambda .expectBraceBinder)]
  | .afterColonWs =>
    [(.ws, .next .afterColonWs), (.identStart, .next .inIdent),
     (.one Byte.lbrace, .push .braceLambda .expectBraceBinder)]
  | .afterColon2 => [(.identStart, .next .inIdent)]
  | .sawDash => (.one Byte.gt, .next .afterArrow) :: valueEdges false
  | .sawPipe => (.one Byte.pipe, .next .expectValueReq) :: valueEdges false
  | .sawEq => [(.one Byte.eq, .next .expectValueReq)]
  | .sawBang => [(.one Byte.eq, .next .expectValueReq)]
  | .sawGt => (.one Byte.eq, .next .expectValueReq) :: valueEdges false
  | .sawLt => (.one Byte.eq, .next .expectValueReq) :: valueEdges false
  | .sawAmp => [(.one Byte.amp, .next .expectValueReq)]
  | .sawTilde =>
    [(.one Byte.lbracket, .push .bracket .expectValue), (.one Byte.quote, .next (.inStrLit false)),
     (.identStart, .next .inIdent)]

/-! ## Every step is in the table -/

/-- `m` is dead or the move of a row whose class has `b`. -/
def InTable (table : List Edge) (b : UInt8) (m : Step) : Prop :=
  m = .dead ∨ ∃ e ∈ table, e.1.has b = true ∧ m = e.2

namespace InTable

theorem dead (table : List Edge) (b : UInt8) : InTable table b .dead := .inl rfl

theorem head {c : ByteClass} {m : Step} (table : List Edge) {b : UInt8} (h : c.has b = true) :
    InTable ((c, m) :: table) b m :=
  .inr ⟨(c, m), by simp, h, rfl⟩

theorem tail {table : List Edge} {b : UInt8} {m : Step} (e : Edge) (h : InTable table b m) :
    InTable (e :: table) b m := by
  rcases h with h | ⟨e', he', h⟩
  · exact .inl h
  · exact .inr ⟨e', List.mem_cons_of_mem _ he', h⟩

/-- A guard and the table of its branches. -/
theorem ite {c : ByteClass} {m n : Step} {table : List Edge} {b : UInt8} {g : Prop} [Decidable g]
    (hg : g → c.has b = true) (hn : InTable table b n) :
    InTable ((c, m) :: table) b (if g then m else n) := by
  split
  · exact .head table (hg ‹_›)
  · exact .tail _ hn

/-- The last branch. -/
theorem ite' {c : ByteClass} {m : Step} {b : UInt8} {g : Prop} [Decidable g]
    (hg : g → c.has b = true) : InTable [(c, m)] b (if g then m else .dead) :=
  .ite hg (.dead _ _)

theorem of_mem {table : List Edge} {c : ByteClass} {m : Step} {b : UInt8} (hm : (c, m) ∈ table)
    (h : c.has b = true) : InTable table b m :=
  .inr ⟨(c, m), hm, h, rfl⟩

end InTable

theorem close_inTable {table : List Edge} (top : Option Frame) {b : UInt8}
    (h : ∀ c ∈ [Byte.rparen, Byte.rbracket, Byte.rbrace],
      ((ByteClass.one c, .pop .afterValue) : Edge) ∈ table) :
    InTable table b (close top b) := by
  have hone : b ∈ [Byte.rparen, Byte.rbracket, Byte.rbrace] →
      InTable table b (.pop .afterValue) :=
    fun hb => .of_mem (h b hb) (by simp [ByteClass.has])
  cases top with
  | none => exact .dead _ _
  | some f =>
    cases f <;> (simp only [close]; split)
    all_goals first | exact .dead _ _ | exact hone (by simp [*])

theorem afterValue_inTable (top : Option Frame) (b : UInt8) :
    InTable afterValueEdges b (afterValue top b) := by
  have hclose : InTable afterValueEdges b (close top b) := close_inTable top (by decide +kernel)
  unfold afterValue
  refine pick_forall ?_ (.dead _ _)
  simp only [List.forall_mem_cons, List.not_mem_nil, false_implies, implies_true, and_true, hclose]
  simp +contextual [InTable, afterValueEdges, ByteClass.has]
  tauto

theorem valuePosition_inTable (top : Option Frame) (b : UInt8) (allowClose : Bool) :
    InTable (valueEdges allowClose) b (valuePosition top b allowClose) := by
  unfold valuePosition
  refine pick_forall ?_ (.dead _ _)
  cases allowClose with
  | true =>
    have hclose : InTable (valueEdges true) b (close top b) := close_inTable top (by decide +kernel)
    simp only [List.forall_mem_cons, List.not_mem_nil, false_implies, implies_true, and_true, hclose]
    simp +contextual [InTable, valueEdges, ByteClass.has]
  | false => simp +contextual [InTable, valueEdges, ByteClass.has]

theorem blockStmt_inTable (top : Option Frame) (b : UInt8) (allowClose : Bool) :
    InTable (blockEdges allowClose) b (blockStmt top b allowClose) := by
  unfold blockStmt
  refine pick_forall ?_ (.dead _ _)
  cases allowClose with
  | true =>
    have hclose : b = Byte.rbrace → InTable (blockEdges true) b (close top b) := by
      rintro rfl
      unfold close
      split <;> first | exact .dead _ _ | simp [InTable, blockEdges, ByteClass.has]
    simp only [List.forall_mem_cons, List.not_mem_nil, false_implies, implies_true, and_true]
    refine ⟨?_, ?_, ?_, ?_, ?_⟩
    case refine_5 => intro h; exact hclose (by simpa using h)
    all_goals simp +contextual [InTable, blockEdges, ByteClass.has]
  | false => simp +contextual [InTable, blockEdges, ByteClass.has]

theorem inSourceIdent_inTable (b : UInt8) : InTable sourceEdges b (inSourceIdent b) := by
  unfold inSourceIdent
  refine .ite id (.ite ?_ (.ite ?_ (.ite' ?_)))
  all_goals simp +contextual [ByteClass.has]

theorem demand_inTable {c : ByteClass} {ok : Bool} {s : State} {b : UInt8}
    (h : ok = true → c.has b = true) : InTable [(c, .next s)] b (demand ok s) :=
  .ite' h

/-- **A step is dead or in the table.** -/
theorem step_inTable (s : State) (top : Option Frame) (b : UInt8) :
    InTable (edges s) b (step s top b) := by
  have hav := afterValue_inTable top b
  have hval := valuePosition_inTable top b
  have hsrc := inSourceIdent_inTable b
  cases s with
  | afterValue => exact hav
  | blockStmt => exact blockStmt_inTable top b false
  | blockStmtClose => exact blockStmt_inTable top b true
  | expectValue => exact hval true
  | expectValueReq => exact hval false
  | inSourceIdent => exact hsrc
  | inIdent => exact .ite id hav
  | letL => exact .ite (by simp [ByteClass.has]) hsrc
  | letLe => exact .ite (by simp [ByteClass.has]) hsrc
  | letLet => exact .ite id hsrc
  | sawDash => exact .ite (by simp [ByteClass.has]) (hval false)
  | sawPipe => exact .ite (by simp [ByteClass.has]) (hval false)
  | sawGt => exact .ite (by simp [ByteClass.has]) (hval false)
  | sawLt => exact .ite (by simp [ByteClass.has]) (hval false)
  | inNumberInt => exact .ite id (.ite (by simp [ByteClass.has]) hav)
  | inExp => exact .ite id hav
  | inDateLit => exact .ite id hav
  | inMilestoneLit => exact .ite id hav
  | inNumberFrac =>
    refine .ite id ?_
    by_cases he : b = Byte.e
    · rw [if_pos (.inl he)]
      exact .head _ (by simp [ByteClass.has, he])
    · by_cases hE : b = Byte.bigE
      · rw [if_pos (.inr hE)]
        exact .tail _ (.head _ (by simp [ByteClass.has, hE]))
      · rw [if_neg (by simp [he, hE])]
        exact .tail _ (.tail _ hav)
  | inMultiplicity =>
    simp only [step, close]
    split
    · rename_i hb
      subst hb
      split <;> first | exact .dead _ _ | exact .head _ rfl
    · exact .dead _ _
  | inStrLit escaped =>
    cases escaped with
    | true => exact .ite (by simp [ByteClass.has]) hav
    | false =>
      simp only [step]
      split
      · exact .head _ (by simp [ByteClass.has, *])
      · exact .tail _ (.head _ (by simp [ByteClass.has, *]))
  | sourceColon => exact demand_inTable (by simp [ByteClass.has])
  | sourceColon2 => exact demand_inTable id
  | sourceDash => exact demand_inTable (by simp [ByteClass.has])
  | needFracDigit => exact demand_inTable id
  | needExpDigit => exact demand_inTable id
  | afterDollar => exact demand_inTable id
  | afterColon2 => exact demand_inTable id
  | sawEq => exact demand_inTable (by simp [ByteClass.has])
  | sawBang => exact demand_inTable (by simp [ByteClass.has])
  | sawAmp => exact demand_inTable (by simp [ByteClass.has])
  | sawExp =>
    simp only [step]
    split
    · rename_i h
      rcases h with h | h
      · exact .head _ (by simp [ByteClass.has, h])
      · exact .tail _ (.head _ (by simp [ByteClass.has, h]))
    · exact .tail _ (.tail _ (.ite' id))
  | start => exact .ite id (.ite (by simp [ByteClass.has]) (.ite' (by simp [ByteClass.has])))
  | expectSource => exact .ite id (.ite' id)
  | afterBraceOpen => exact .ite id (.ite' (by simp [ByteClass.has]))
  | expectBinder => exact .ite id (.ite' id)
  | inBinder => exact .ite id (.ite id (.ite' (by simp [ByteClass.has])))
  | afterBinder => exact .ite id (.ite' (by simp [ByteClass.has]))
  | expectBraceBinder => exact .ite id (.ite' id)
  | sawNumSign => exact .ite id (.ite' (by simp [ByteClass.has]))
  | sawPercent => exact .ite id (.ite' id)
  | afterDot => exact .ite id (.ite id (.ite' (by simp [ByteClass.has])))
  | afterArrow => exact .ite id (.ite' id)
  | afterColon =>
    exact .ite id (.ite (by simp [ByteClass.has]) (.ite id (.ite' (by simp [ByteClass.has]))))
  | afterColonWs => exact .ite id (.ite id (.ite' (by simp [ByteClass.has])))
  | sawTilde =>
    exact .ite (by simp [ByteClass.has]) (.ite (by simp [ByteClass.has]) (.ite' id))

/-! ## Checking the table -/

def allStates : List State :=
  [.start, .expectSource, .afterBraceOpen, .blockStmt, .blockStmtClose, .inSourceIdent, .sourceColon,
   .sourceColon2, .sourceDash, .letL, .letLe, .letLet, .expectBinder, .inBinder, .afterBinder,
   .inMultiplicity, .expectBraceBinder, .afterColonWs, .expectValue, .expectValueReq, .afterValue,
   .inIdent, .sawNumSign, .inNumberInt, .needFracDigit, .inNumberFrac, .sawExp, .needExpDigit,
   .inExp, .inStrLit false, .inStrLit true, .sawPercent, .inDateLit, .inMilestoneLit, .afterDollar,
   .afterDot, .afterArrow, .afterColon, .afterColon2, .sawDash, .sawPipe, .sawEq, .sawBang, .sawGt,
   .sawLt, .sawAmp, .sawTilde]

theorem mem_allStates (s : State) : s ∈ allStates := by
  cases s with
  | inStrLit escaped => cases escaped <;> decide
  | _ => decide

/-- The state a move goes to. -/
def target : Step → Option State
  | .next s | .push _ s | .pop s => some s
  | .dead => none

/-- `P` holds of every row: state, byte class, target state. -/
def checkEdges (P : State → ByteClass → State → Bool) : Bool :=
  allStates.all fun s => (edges s).all fun e => ((target e.2).map (P s e.1)).getD true

/-- **What holds of every row of the table holds of every step taken.** -/
theorem advance_check {P : State → ByteClass → State → Bool} (hP : checkEdges P = true)
    {s s' : State} {st st' : List Frame} {b : UInt8}
    (h : Pushdown.advance step (s, st) b = some (s', st')) :
    ∃ c : ByteClass, c.has b = true ∧ P s c s' = true := by
  have hne : step s st.head? b ≠ .dead := by
    intro hd
    have hnone : Pushdown.advance step (s, st) b = none := (advance_eq_none step).mpr hd
    rw [hnone] at h
    cases h
  rcases step_inTable s st.head? b with hd | ⟨e, he, hb, hm⟩
  · exact absurd hd hne
  · refine ⟨e.1, hb, ?_⟩
    simp only [checkEdges, List.all_eq_true] at hP
    have hrow := hP s (mem_allStates s) e he
    have happly : (step s st.head? b).apply st = some (s', st') := h
    rw [hm] at happly
    cases hmove : e.2 with
    | dead =>
      rw [hmove] at happly
      cases happly
    | _ =>
      rw [hmove] at happly hrow
      simp only [Move.apply, Option.some.injEq, Prod.mk.injEq] at happly
      rw [← happly.1]
      exact hrow

/-- `P` holds of every row with its move: state, byte class, move. -/
def checkMoves (P : State → ByteClass → Step → Bool) : Bool :=
  allStates.all fun s => (edges s).all fun e => P s e.1 e.2

/-- What holds of every row holds of every live step. -/
theorem step_check {P : State → ByteClass → Step → Bool} (hP : checkMoves P = true) {s : State}
    {top : Option Frame} {b : UInt8} (hlive : step s top b ≠ .dead) :
    ∃ k : ByteClass, k.has b = true ∧ P s k (step s top b) = true := by
  rcases step_inTable s top b with hd | ⟨e, he, hb, hm⟩
  · exact absurd hd hlive
  · simp only [checkMoves, List.all_eq_true] at hP
    exact ⟨e.1, hb, hm ▸ hP s (mem_allStates s) e he⟩

/-- The same with the move taken, which tells an opened frame from a closed
one. -/
theorem advance_checkMoves {P : State → ByteClass → Step → Bool} (hP : checkMoves P = true)
    {s : State} {st : List Frame} {b : UInt8} {c : State × List Frame}
    (h : Pushdown.advance step (s, st) b = some c) :
    ∃ (k : ByteClass) (m : Step), k.has b = true ∧ P s k m = true ∧ step s st.head? b = m ∧
      m.apply st = some c := by
  have hlive : step s st.head? b ≠ .dead := by
    intro hd
    rw [Pushdown.advance, hd] at h
    cases h
  obtain ⟨k, hk, hrow⟩ := step_check hP hlive
  exact ⟨k, _, hk, hrow, rfl, h⟩

/-! ## Inside a lexeme -/

def IsIdent (name : Bytes) : Prop :=
  ∃ b u, name = b :: u ∧ isIdentStart b = true ∧ ∀ c ∈ u, isIdentTail c = true

/-- Delimiters open and close outside lexemes only. -/
def lexemeMove (_ : State) (_ : ByteClass) : Step → Bool
  | .next _ | .dead => true
  | .push _ s | .pop s => s.lexemeKind.isNone

theorem checkMoves_lexemeMove : checkMoves lexemeMove = true := by decide +kernel

/-- Inside a lexeme the stack stays as it is. -/
theorem next_of_lexeme {s : State} {st : List Frame} {b : UInt8} {c : State × List Frame}
    (h : Pushdown.advance step (s, st) b = some c) {k : LexKind} (hk : c.1.lexemeKind = some k) :
    step s st.head? b = .next c.1 ∧ c.2 = st := by
  obtain ⟨_, m, _, hrow, hm, happly⟩ := advance_checkMoves checkMoves_lexemeMove h
  cases m with
  | next s' =>
    cases happly
    exact ⟨hm, rfl⟩
  | push f s' =>
    cases happly
    simp [lexemeMove, hk] at hrow
  | pop s' =>
    cases happly
    simp [lexemeMove, hk] at hrow
  | dead => cases happly

/-- The automaton reads `w` inside one lexeme of kind `k`. -/
abbrev InLexeme (k : LexKind) : State × List Frame → Bytes → State × List Frame → Prop :=
  RunsIn step fun s => s.lexemeKind = some k

end PureCard
