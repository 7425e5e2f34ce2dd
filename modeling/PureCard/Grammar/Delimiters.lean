/-
PureCard.Grammar.Delimiters — the frame stack is what an independent scan
of the bytes finds open.

The scan (`scanStep`) knows three things about a byte: whether it is a
quote, an opening or a closing delimiter. It is a pushdown machine of its
own, whose states say where it is with respect to strings and whose frames
are the opening delimiters. The automaton is a refinement of it: forget
what a state is beyond `quoting`, and what a frame is beyond `opener`, and
every move it makes is the scan's (`scanStep_step`, lifted to runs by
`run_map`). A quote that may turn out to be doubled is left undecided by
both until the next byte.

The rest are invariants of runs: what the stack looks like when a byte is
accepted, and for the `=` of a binding what has been read since the
statement began (`LetText`). An `=` that is the last byte of a stream may
still become an `==`; of every other one the byte behind it shows what it
is.
-/
import PureCard.Grammar.Edges

namespace PureCard

open Pushdown

/-! ## The scan -/

/-- Where a scan is with respect to string literals: `closing` is right
behind a quote that ends the string unless it is doubled. -/
inductive Quoting where
  | outside
  | inside
  | closing
  deriving DecidableEq, Repr

/-- The closing delimiter of an opening one. -/
def closerOf (b : UInt8) : UInt8 :=
  if b = Byte.lparen then Byte.rparen
  else if b = Byte.lbracket then Byte.rbracket
  else Byte.rbrace

def outsideStep (top : Option UInt8) (b : UInt8) : Move Quoting UInt8 :=
  if b = Byte.quote then .next .inside
  else if b = Byte.lparen ∨ b = Byte.lbracket ∨ b = Byte.lbrace then .push b .outside
  else if b = Byte.rparen ∨ b = Byte.rbracket ∨ b = Byte.rbrace then
    if top.map closerOf = some b then .pop .outside else .dead
  else .next .outside

/-- One byte of the scan. A closing delimiter that does not match is dead. -/
def scanStep (q : Quoting) (top : Option UInt8) (b : UInt8) : Move Quoting UInt8 :=
  match q with
  | .outside => outsideStep top b
  | .inside => .next (if b = Byte.quote then .closing else .inside)
  | .closing => if b = Byte.quote then .next .inside else outsideStep top b

/-- The delimiters opened and not yet closed, innermost first. -/
def scan (w : Bytes) : Option (Quoting × Bytes) := Pushdown.run scanStep (.outside, []) w

/-- What comes after `u` is outside strings, if it is no quote. -/
def OutsideStrings (u : Bytes) : Prop := ∃ q opened, scan u = some (q, opened) ∧ q ≠ .inside

/-! ## The automaton is a scan -/

def quoting : State → Quoting
  | .inStrLit false => .inside
  | .inStrLit true => .closing
  | _ => .outside

/-- The delimiter that opens a frame. -/
def opener : Frame → UInt8
  | .paren => Byte.lparen
  | .bracket => Byte.lbracket
  | .brace | .braceLambda => Byte.lbrace

/-- The delimiter that closes a frame. -/
def closer : Frame → UInt8
  | .paren => Byte.rparen
  | .bracket => Byte.rbracket
  | .brace | .braceLambda => Byte.rbrace

/-- The bytes a scan looks at. -/
def scanned : Bytes :=
  [Byte.quote, Byte.lparen, Byte.rparen, Byte.lbracket, Byte.rbracket, Byte.lbrace, Byte.rbrace]

/-- A row does to strings and delimiters what its bytes say. -/
def scanRow (s : State) (k : ByteClass) (m : Step) : Bool :=
  match m with
  | .next s' =>
    if s = .inStrLit false then
      (k == .one Byte.quote && s' == .inStrLit true) || (k == .notQuote && s' == .inStrLit false)
    else
      (k == .one Byte.quote && s' == .inStrLit false) ||
        (scanned.all (fun b => !k.has b) && quoting s' == .outside)
  | .push f s' => s != .inStrLit false && k == .one (opener f) && quoting s' == .outside
  | .pop s' =>
    s != .inStrLit false &&
      (k == .one Byte.rparen || k == .one Byte.rbracket || k == .one Byte.rbrace) &&
      quoting s' == .outside
  | .dead => true

theorem checkMoves_scanRow : checkMoves scanRow = true := by decide +kernel

def allTops : List (Option Frame) :=
  [none, some .paren, some .bracket, some .brace, some .braceLambda]

theorem mem_allTops (top : Option Frame) : top ∈ allTops := by
  cases top with
  | none => decide
  | some f => cases f <;> decide

/-- Whether a move, made on `b` under `top`, closes the frame of `b`. -/
def popsMatching (top : Option Frame) (b : UInt8) : Step → Bool
  | .pop _ => top.map closer == some b
  | _ => true

theorem checkPops : (allStates.all fun s => allTops.all fun top =>
    [Byte.rparen, Byte.rbracket, Byte.rbrace].all fun b => popsMatching top b (step s top b))
      = true := by decide +kernel

/-- **A step closes the frame whose closer it read**, so there is one. -/
theorem closes_top {s s' : State} {top : Option Frame} {b : UInt8} (h : step s top b = .pop s') :
    ∃ f, top = some f ∧ b = closer f := by
  have hb : b ∈ [Byte.rparen, Byte.rbracket, Byte.rbrace] := by
    have hlive : step s top b ≠ .dead := by simp [h]
    obtain ⟨k, hk, hrow⟩ := step_check checkMoves_scanRow hlive
    rw [h] at hrow
    simp only [scanRow, Bool.and_eq_true, Bool.or_eq_true, beq_iff_eq] at hrow
    obtain ⟨⟨-, hone⟩, -⟩ := hrow
    rcases hone with (rfl | rfl) | rfl <;> simp_all [ByteClass.has]
  have htops := List.all_eq_true.mp (List.all_eq_true.mp checkPops s (mem_allStates s))
  have hmatch := List.all_eq_true.mp (htops top (mem_allTops top)) b hb
  rw [h] at hmatch
  have htop : top.map closer = some b := by simpa [popsMatching] using hmatch
  obtain ⟨f, hf, hcloser⟩ := Option.map_eq_some_iff.mp htop
  exact ⟨f, hf, hcloser.symm⟩

theorem outsideStep_plain {top : Option UInt8} {b : UInt8} (h : b ∉ scanned) :
    outsideStep top b = .next .outside := by
  simp only [scanned, List.mem_cons, List.not_mem_nil, or_false, not_or] at h
  simp [outsideStep, h]

theorem outsideStep_opener (top : Option UInt8) (f : Frame) :
    outsideStep top (opener f) = .push (opener f) .outside := by
  cases f <;> rfl

theorem outsideStep_closer (f : Frame) :
    outsideStep (some (opener f)) (closer f) = .pop .outside := by
  cases f <;> decide

/-- Outside the body of a string a step of the scan is decided by the byte
alone. -/
theorem scanStep_outside {s : State} (hs : s ≠ .inStrLit false) (top : Option UInt8) (b : UInt8) :
    scanStep (quoting s) top b = outsideStep top b := by
  unfold quoting
  split
  · exact absurd rfl hs
  · rw [scanStep]
    split
    · simp [outsideStep, *]
    · rfl
  · rfl

/-- **Every step of the automaton is the scan's**, its states and frames
seen as the scan sees them. -/
theorem scanStep_step (s : State) (top : Option Frame) (b : UInt8) (hlive : step s top b ≠ .dead) :
    scanStep (quoting s) (top.map opener) b = (step s top b).map quoting opener := by
  obtain ⟨k, hk, hrow⟩ := step_check checkMoves_scanRow hlive
  by_cases hs : s = .inStrLit false
  · subst hs
    by_cases hb : b = Byte.quote <;> simp [step, hb, scanStep, quoting, Move.map]
  · rw [scanStep_outside hs]
    cases hm : step s top b with
    | dead => exact absurd hm hlive
    | next s' =>
      rw [hm] at hrow
      simp only [scanRow, hs, if_false, Bool.or_eq_true, Bool.and_eq_true, beq_iff_eq,
        List.all_eq_true, Bool.not_eq_true'] at hrow
      rcases hrow with ⟨rfl, rfl⟩ | ⟨hplain, hq⟩
      · have hb : b = Byte.quote := by simpa [ByteClass.has] using hk
        subst hb
        rfl
      · rw [outsideStep_plain, Move.map, hq]
        intro hmem
        rw [hplain b hmem] at hk
        cases hk
    | push f s' =>
      rw [hm] at hrow
      simp only [scanRow, Bool.and_eq_true, beq_iff_eq] at hrow
      obtain ⟨⟨-, rfl⟩, hq⟩ := hrow
      have hb : b = opener f := by simpa [ByteClass.has] using hk
      rw [hb, outsideStep_opener, Move.map, hq]
    | pop s' =>
      rw [hm] at hrow
      simp only [scanRow, Bool.and_eq_true, beq_iff_eq] at hrow
      obtain ⟨f, rfl, rfl⟩ := closes_top hm
      rw [Option.map_some, outsideStep_closer, Move.map, hrow.2]

/-- **The stack is what the scan finds open**, and a string is open where
the scan says. -/
theorem scan_of_run {w : Bytes} {c : State × List Frame}
    (h : run step Pda.new.config w = some c) :
    scan w = some (quoting c.1, c.2.map opener) :=
  run_map quoting opener scanStep_step h

theorem not_inside_of_outsideStrings {u : Bytes} {c : State × List Frame}
    (h : run step Pda.new.config u = some c) (hu : OutsideStrings u) : c.1 ≠ .inStrLit false := by
  obtain ⟨q, opened, hscan, hq⟩ := hu
  rw [scan_of_run h] at hscan
  rintro hs
  rw [hs] at hscan
  cases hscan
  exact hq rfl

/-- The multiplicity is entered by a star where a value may stand. -/
def starMove (s : State) (k : ByteClass) : Step → Bool
  | .next s' => s' != .inMultiplicity || (s == .expectValue && k == .one Byte.star)
  | .push _ s' | .pop s' => s' != .inMultiplicity
  | .dead => true

theorem checkMoves_starMove : checkMoves starMove = true := by decide +kernel

/-- The star of a multiplicity stands directly under a bracket. -/
theorem bracket_of_inMultiplicity {s : State} {st st' : List Frame} {b : UInt8}
    (h : Pushdown.advance step (s, st) b = some (.inMultiplicity, st')) :
    st'.head? = some .bracket := by
  obtain ⟨k, m, hk, hrow, hm, happly⟩ := advance_checkMoves checkMoves_starMove h
  cases m with
  | next s' =>
    cases happly
    simp only [starMove, bne_self_eq_false, Bool.false_or, Bool.and_eq_true, beq_iff_eq] at hrow
    obtain ⟨rfl, rfl⟩ := hrow
    have hb : b = Byte.star := by simpa [ByteClass.has] using hk
    subst hb
    cases htop : st.head? with
    | none =>
      rw [htop] at hm
      revert hm
      decide
    | some f =>
      rw [htop] at hm
      cases f with
      | bracket => rfl
      | _ =>
        revert hm
        decide
  | push f s' =>
    cases happly
    simp [starMove] at hrow
  | pop s' =>
    cases happly
    simp [starMove] at hrow
  | dead => cases happly

theorem bracket_of_run {w : Bytes} {st : List Frame}
    (h : run step Pda.new.config w = some (.inMultiplicity, st)) : st.head? = some .bracket := by
  rcases List.eq_nil_or_concat w with rfl | ⟨w, b, rfl⟩
  · cases h
  · rw [List.concat_eq_append, run_concat] at h
    obtain ⟨⟨s, st'⟩, _, hlast⟩ := Option.bind_eq_some_iff.mp h
    exact bracket_of_inMultiplicity hlast

/-! ## The brace of a block -/

/-- A block query has been begun: the text is its `{` and then its `|`, with
white space only before them and between them. -/
def OpensBlock (w : Bytes) : Prop :=
  ∃ gap gap' rest, w = gap ++ Byte.lbrace :: (gap' ++ rest) ∧ (∀ b ∈ gap, isWs b = true) ∧
    (∀ b ∈ gap', isWs b = true) ∧ (rest = [] ∨ ∃ v, rest = Byte.pipe :: v)

/-- What the stack and the text have to do with the brace of a block. -/
inductive Framing : State × List Frame → Bytes → Prop where
  | start {w : Bytes} (hw : ∀ b ∈ w, isWs b = true) : Framing (.start, []) w
  | opened {gap gap' : Bytes} (hgap : ∀ b ∈ gap, isWs b = true) (hgap' : ∀ b ∈ gap', isWs b = true) :
      Framing (.afterBraceOpen, [.brace]) (gap ++ Byte.lbrace :: gap')
  | block {s : State} {st : List Frame} {gap gap' v : Bytes} (hs : s ∉ [State.start, .afterBraceOpen])
      (hst : .brace ∉ st) (hgap : ∀ b ∈ gap, isWs b = true) (hgap' : ∀ b ∈ gap', isWs b = true) :
      Framing (s, st ++ [.brace]) (gap ++ Byte.lbrace :: (gap' ++ Byte.pipe :: v))
  | free {s : State} {st : List Frame} {w : Bytes} (hs : s ∉ [State.start, .afterBraceOpen])
      (hst : .brace ∉ st) : Framing (s, st) w

/-- Only a block query opens a brace, and nothing comes before it. -/
def frameRow (s : State) (k : ByteClass) (m : Step) : Bool :=
  match m with
  | .next s' =>
    (s' != .start || (s == .start && k == .ws)) &&
      (s' != .afterBraceOpen || (s == .afterBraceOpen && k == .ws)) &&
      (s != .afterBraceOpen || s' == .afterBraceOpen || k == .one Byte.pipe)
  | .push f s' =>
    if s = .start then f == .brace && s' == .afterBraceOpen && k == .one Byte.lbrace
    else s != .afterBraceOpen && f != .brace && !decide (s' ∈ [State.start, .afterBraceOpen])
  | .pop s' =>
    !decide (s ∈ [State.start, .afterBraceOpen]) && !decide (s' ∈ [State.start, .afterBraceOpen])
  | .dead => true

theorem checkMoves_frameRow : checkMoves frameRow = true := by decide +kernel

theorem forall_ws_concat {g : Bytes} (hg : ∀ b ∈ g, isWs b = true) {b : UInt8}
    (hb : isWs b = true) : ∀ b' ∈ g ++ [b], isWs b' = true := by
  intro b' hb'
  rcases List.mem_append.mp hb' with hmem | hmem
  · exact hg b' hmem
  · rwa [List.mem_singleton.mp hmem]

theorem Framing.step {c d : State × List Frame} {w : Bytes} (h : Framing c w) {b : UInt8}
    (hstep : Pushdown.advance PureCard.step c b = some d) : Framing d (w ++ [b]) := by
  obtain ⟨s, st⟩ := c
  obtain ⟨k, m, hk, hrow, hm, happly⟩ := advance_checkMoves checkMoves_frameRow hstep
  have hws : k = .ws → isWs b = true := fun hws => by simpa [hws, ByteClass.has] using hk
  have hone : ∀ a, k = .one a → b = a := fun a ha => by simpa [ha, ByteClass.has] using hk
  cases m with
  | dead => cases happly
  | next s' =>
    cases happly
    simp only [frameRow, Bool.and_eq_true, Bool.or_eq_true, bne_iff_ne, beq_iff_eq, ne_eq] at hrow
    obtain ⟨⟨hstart, hopened⟩, hpipe⟩ := hrow
    cases h with
    | start hw =>
      by_cases hs' : s' = .start
      · subst hs'
        exact .start (forall_ws_concat hw (hws (by simpa using hstart)))
      · exact .free (by simpa [hs'] using hopened) (by simp)
    | @opened gap gap' hgap hgap' =>
      by_cases hs' : s' = .afterBraceOpen
      · subst hs'
        have hb : isWs b = true := hws (by simpa using hopened)
        have hframing := Framing.opened hgap (forall_ws_concat hgap' hb)
        simpa using hframing
      · have hb : b = Byte.pipe := hone _ (by simpa [hs'] using hpipe)
        have hframing : Framing (s', [] ++ [.brace]) (gap ++ Byte.lbrace :: (gap' ++ Byte.pipe :: []))
          := .block (by simpa [hs'] using hstart) (by simp) hgap hgap'
        subst hb
        simpa using hframing
    | @block _ st gap gap' v hs hst hgap hgap' =>
      have hframing : Framing (s', st ++ [.brace])
          (gap ++ Byte.lbrace :: (gap' ++ Byte.pipe :: (v ++ [b]))) :=
        .block (by simp_all) hst hgap hgap'
      simpa using hframing
    | free hs hst => exact .free (by simp_all) hst
  | push f s' =>
    cases happly
    have hpush : s ≠ .start → .brace ≠ f ∧ s' ∉ [State.start, .afterBraceOpen] := by
      intro hs
      simp only [frameRow, hs, if_false, Bool.and_eq_true, bne_iff_ne, Bool.not_eq_true',
        decide_eq_false_iff_not] at hrow
      exact ⟨hrow.1.2.symm, hrow.2⟩
    cases h with
    | start hw =>
      simp only [frameRow, if_true, Bool.and_eq_true, beq_iff_eq] at hrow
      obtain ⟨⟨rfl, rfl⟩, hk'⟩ := hrow
      rw [hone _ hk']
      exact .opened hw (by simp)
    | opened hgap hgap' => simp [frameRow] at hrow
    | @block _ st gap gap' v hs hst hgap hgap' =>
      obtain ⟨hf, hs'⟩ := hpush (by simp_all)
      have hframing : Framing (s', (f :: st) ++ [.brace])
          (gap ++ Byte.lbrace :: (gap' ++ Byte.pipe :: (v ++ [b]))) :=
        .block hs' (List.not_mem_cons_of_ne_of_not_mem hf hst) hgap hgap'
      simpa using hframing
    | free hs hst =>
      obtain ⟨hf, hs'⟩ := hpush (by simp_all)
      exact .free hs' (List.not_mem_cons_of_ne_of_not_mem hf hst)
  | pop s' =>
    cases happly
    simp only [frameRow, Bool.and_eq_true, Bool.not_eq_true', decide_eq_false_iff_not] at hrow
    cases h with
    | start hw => simp at hrow
    | opened hgap hgap' => simp at hrow
    | @block _ st gap gap' v hs hst hgap hgap' =>
      cases st with
      | nil => exact .free hrow.2 (by simp)
      | cons f st =>
        have hframing : Framing (s', st ++ [.brace])
            (gap ++ Byte.lbrace :: (gap' ++ Byte.pipe :: (v ++ [b]))) :=
          .block hrow.2 (by simp_all) hgap hgap'
        simpa using hframing
    | free hs hst => exact .free hrow.2 fun hmem => hst (List.mem_of_mem_tail hmem)

theorem framing_of_run {w : Bytes} {c : State × List Frame}
    (h : run step Pda.new.config w = some c) : Framing c w :=
  run_invariant step (.start (by simp)) (fun _ hI hstep => hI.step hstep) h

/-- **A brace stands at the bottom, in a block query.** -/
theorem Framing.bottom {s : State} {st : List Frame} {w : Bytes} (h : Framing (s, st) w)
    (hmem : .brace ∈ st) :
    st.getLast? = some .brace ∧ .brace ∉ st.dropLast ∧ OpensBlock w := by
  cases h with
  | start hw => simp at hmem
  | @opened gap gap' hgap hgap' =>
    exact ⟨rfl, by simp, gap, gap', [], by simp, hgap, hgap', .inl rfl⟩
  | @block _ st gap gap' v hs hst hgap hgap' =>
    exact ⟨by simp, by simpa using hst, gap, gap', _, rfl, hgap, hgap', .inr ⟨v, rfl⟩⟩
  | free hs hst => exact absurd hmem hst

/-- Directly under the brace there is nothing else. -/
theorem Framing.alone {s : State} {st : List Frame} {w : Bytes} (h : Framing (s, st) w)
    (htop : st.head? = some .brace) : st = [.brace] := by
  obtain ⟨rest, rfl⟩ := List.head?_eq_some_iff.mp htop
  obtain ⟨-, hdrop, -⟩ := h.bottom (by simp)
  cases rest with
  | nil => rfl
  | cons f rest => simp at hdrop

/-! ## Semicolons and commas -/

/-- Outside strings a `;` needs the brace on top and a `,` any frame. -/
def separates (s : State) (top : Option Frame) : Bool :=
  s == .inStrLit false ||
    ((step s top Byte.semi == .dead || top == some .brace) &&
      (step s top Byte.comma == .dead || top.isSome))

theorem separates_all (s : State) (top : Option Frame) : separates s top = true := by
  have hall : (allStates.all fun s => allTops.all fun top => separates s top) = true := by
    decide +kernel
  exact List.all_eq_true.mp (List.all_eq_true.mp hall s (mem_allStates s)) top (mem_allTops top)

theorem top_of_semi {s : State} (hs : s ≠ .inStrLit false) {top : Option Frame}
    (h : step s top Byte.semi ≠ .dead) : top = some .brace := by
  have hrow := separates_all s top
  simp only [separates, Bool.or_eq_true, Bool.and_eq_true, beq_iff_eq] at hrow
  tauto

theorem top_of_comma {s : State} (hs : s ≠ .inStrLit false) {top : Option Frame}
    (h : step s top Byte.comma ≠ .dead) : top.isSome = true := by
  have hrow := separates_all s top
  simp only [separates, Bool.or_eq_true, Bool.and_eq_true, beq_iff_eq] at hrow
  tauto

/-! ## The `=` of a binding -/

/-- A statement of a block may begin after `p`. -/
def AtStatement (p : Bytes) : Prop :=
  ∃ q, Pda.new.advanceAll p = .ok q ∧ q.state ∈ [State.blockStmt, .blockStmtClose]

/-- The text is a `let` at the start of a statement, and a name. -/
def LetBinder (u : Bytes) : Prop :=
  ∃ p gap name gap', u = p ++ ascii "let" ++ gap ++ name ++ gap' ∧ AtStatement p ∧ gap ≠ [] ∧
    (∀ b ∈ gap, isWs b = true) ∧ IsIdent name ∧ ∀ b ∈ gap', isWs b = true

/-- The steps of a binding up to its `=`. -/
inductive LetStep : State → UInt8 → State → Prop where
  | first {s : State} (hs : s ∈ [State.blockStmt, .blockStmtClose]) : LetStep s Byte.l .letL
  | second : LetStep .letL Byte.e .letLe
  | third : LetStep .letLe Byte.t .letLet
  | gap {s : State} {b : UInt8} (hs : s ∈ [State.letLet, .expectBinder]) (hb : isWs b = true) :
      LetStep s b .expectBinder
  | nameFirst {b : UInt8} (hb : isIdentStart b = true) : LetStep .expectBinder b .inBinder
  | nameMore {b : UInt8} (hb : isIdentTail b = true) : LetStep .inBinder b .inBinder
  | space {s : State} {b : UInt8} (hs : s ∈ [State.inBinder, .afterBinder]) (hb : isWs b = true) :
      LetStep s b .afterBinder

def letStates : List State :=
  [.letL, .letLe, .letLet, .expectBinder, .inBinder, .afterBinder]

def letRows : List (State × ByteClass × State) :=
  [(.blockStmt, .one Byte.l, .letL), (.blockStmtClose, .one Byte.l, .letL),
   (.letL, .one Byte.e, .letLe), (.letLe, .one Byte.t, .letLet), (.letLet, .ws, .expectBinder),
   (.expectBinder, .ws, .expectBinder), (.expectBinder, .identStart, .inBinder),
   (.inBinder, .identTail, .inBinder), (.inBinder, .ws, .afterBinder),
   (.afterBinder, .ws, .afterBinder)]

theorem letStep_of_row :
    ∀ r ∈ letRows, ∀ b, r.2.1.has b = true → LetStep r.1 b r.2.2 := by
  simp only [letRows, List.forall_mem_cons, ByteClass.has, beq_iff_eq, forall_eq]
  exact ⟨.first (by simp), .first (by simp), .second, .third, fun _ => .gap (by simp),
    fun _ => .gap (by simp), fun _ => .nameFirst, fun _ => .nameMore, fun _ => .space (by simp),
    fun _ => .space (by simp), by simp⟩

/-- How a row enters a binding. -/
def letRow (s : State) (k : ByteClass) (s' : State) : Bool :=
  !decide (s' ∈ letStates) || decide ((s, k, s') ∈ letRows)

theorem checkEdges_letRow : checkEdges letRow = true := by decide +kernel

theorem letStep {c d : State × List Frame} {b : UInt8}
    (h : Pushdown.advance step c b = some d) (hd : d.1 ∈ letStates) :
    LetStep c.1 b d.1 := by
  obtain ⟨k, hk, hrow⟩ := advance_check checkEdges_letRow h
  exact letStep_of_row (c.1, k, d.1) (by simpa [letRow, hd] using hrow) b hk

/-- The states behind the first byte of `==`, `!=`, `>=`, `<=`. -/
def operatorStates : List State := [.sawEq, .sawBang, .sawGt, .sawLt]

def operatorBytes : Bytes := [Byte.eq, Byte.bang, Byte.gt, Byte.lt]

/-- Where an `=` is read, what leads behind the first byte of an operator,
and what a first `=` demands. -/
def equalRow (s : State) (k : ByteClass) (s' : State) : Bool :=
  (!k.has Byte.eq || s == .inStrLit false || decide (s ∈ [State.inBinder, .afterBinder]) ||
      decide (s ∈ operatorStates) || s' == .sawEq) &&
    (!decide (s' ∈ operatorStates) || operatorBytes.any fun b => k == .one b) &&
    (s != .sawEq || k == .one Byte.eq)

theorem checkEdges_equalRow : checkEdges equalRow = true := by decide +kernel

structure EqualStep (s : State) (b : UInt8) (s' : State) : Prop where
  equal : b = Byte.eq → s ≠ .inStrLit false →
    s ∈ [State.inBinder, .afterBinder] ∨ s ∈ operatorStates ∨ s' = .sawEq
  entered : s' ∈ operatorStates → b ∈ operatorBytes
  second : s = .sawEq → b = Byte.eq

theorem equalStep {c d : State × List Frame} {b : UInt8}
    (h : Pushdown.advance step c b = some d) : EqualStep c.1 b d.1 := by
  obtain ⟨k, hk, hrow⟩ := advance_check checkEdges_equalRow h
  have hone : ∀ a, k = .one a → b = a := fun a ha => by simpa [ha, ByteClass.has] using hk
  simp only [equalRow, Bool.and_eq_true] at hrow
  obtain ⟨⟨hequal, hentered⟩, hsecond⟩ := hrow
  refine ⟨fun hb hs => ?_, fun hd => ?_, fun hs => ?_⟩
  · subst hb
    simpa [hk, hs, or_assoc] using hequal
  · obtain ⟨a, ha, hka⟩ : ∃ a ∈ operatorBytes, k = .one a := by simpa [hd] using hentered
    exact hone a hka ▸ ha
  · exact hone _ (by simpa [hs] using hsecond)

/-- What has been read of a binding in each of its states. -/
inductive LetText : State → Bytes → Prop where
  | l {p : Bytes} (hp : AtStatement p) : LetText .letL (p ++ ascii "l")
  | le {p : Bytes} (hp : AtStatement p) : LetText .letLe (p ++ ascii "le")
  | keyword {p : Bytes} (hp : AtStatement p) : LetText .letLet (p ++ ascii "let")
  | gap {p gap : Bytes} (hp : AtStatement p) (hne : gap ≠ []) (hgap : ∀ b ∈ gap, isWs b = true) :
      LetText .expectBinder (p ++ ascii "let" ++ gap)
  | name {p gap name : Bytes} (hp : AtStatement p) (hne : gap ≠ [])
      (hgap : ∀ b ∈ gap, isWs b = true) (hname : IsIdent name) :
      LetText .inBinder (p ++ ascii "let" ++ gap ++ name)
  | named {p gap name gap' : Bytes} (hp : AtStatement p) (hne : gap ≠ [])
      (hgap : ∀ b ∈ gap, isWs b = true) (hname : IsIdent name) (hgap' : ∀ b ∈ gap', isWs b = true) :
      LetText .afterBinder (p ++ ascii "let" ++ gap ++ name ++ gap')

theorem IsIdent.concat {name : Bytes} (h : IsIdent name) {b : UInt8} (hb : isIdentTail b = true) :
    IsIdent (name ++ [b]) := by
  obtain ⟨a, u, rfl, ha, hu⟩ := h
  refine ⟨a, u ++ [b], rfl, ha, fun c hc => ?_⟩
  rcases List.mem_append.mp hc with hmem | hmem
  · exact hu c hmem
  · rwa [List.mem_singleton.mp hmem]

theorem LetText.step {s s' : State} {u : Bytes} {b : UInt8} (h : LetStep s b s')
    (hfirst : s ∈ [State.blockStmt, .blockStmtClose] → AtStatement u)
    (hu : s ∈ letStates → LetText s u) : LetText s' (u ++ [b]) := by
  cases h with
  | first hs => exact .l (hfirst hs)
  | second =>
    cases hu (by decide) with
    | l hp =>
      rw [List.append_assoc]
      exact .le hp
  | third =>
    cases hu (by decide) with
    | le hp =>
      rw [List.append_assoc]
      exact .keyword hp
  | gap hs hb =>
    simp only [List.mem_cons, List.not_mem_nil, or_false] at hs
    rcases hs with rfl | rfl
    · cases hu (by decide) with
      | keyword hp => exact .gap hp (by simp) (by simpa using hb)
    · cases hu (by decide) with
      | gap hp hne hgap =>
        rw [List.append_assoc]
        exact .gap hp (by simp) (forall_ws_concat hgap hb)
  | nameFirst hb =>
    cases hu (by decide) with
    | gap hp hne hgap => exact .name hp hne hgap ⟨b, [], rfl, hb, by simp⟩
  | nameMore hb =>
    cases hu (by decide) with
    | name hp hne hgap hname =>
      rw [List.append_assoc]
      exact .name hp hne hgap (hname.concat hb)
  | space hs hb =>
    simp only [List.mem_cons, List.not_mem_nil, or_false] at hs
    rcases hs with rfl | rfl
    · cases hu (by decide) with
      | name hp hne hgap hname => exact .named hp hne hgap hname (by simpa using hb)
    · cases hu (by decide) with
      | named hp hne hgap hname hgap' =>
        rw [List.append_assoc]
        exact .named hp hne hgap hname (forall_ws_concat hgap' hb)

theorem letText_of_run {u : Bytes} {c : State × List Frame}
    (h : run PureCard.step Pda.new.config u = some c) (hc : c.1 ∈ letStates) :
    LetText c.1 u := by
  refine run_invariant (I := fun c u => c.1 ∈ letStates → LetText c.1 u) PureCard.step ?_ ?_ h hc
  · intro hstart
    simp [letStates, Pda.config, Pda.new] at hstart
  · intro d e u b hrun hu hstep he
    exact .step (letStep hstep he)
      (fun hs => ⟨Pda.ofConfig d, Pda.advanceAll_eq_ok.mpr hrun, hs⟩) hu

/-- At the `=` of a binding its `let` has been read. -/
theorem LetText.letBinder {s : State} {u : Bytes} (h : LetText s u)
    (hs : s ∈ [State.inBinder, .afterBinder]) : LetBinder u := by
  cases h with
  | @name p gap name hp hne hgap hname =>
    exact ⟨p, gap, name, [], by simp, hp, hne, hgap, hname, by simp⟩
  | @named p gap name gap' hp hne hgap hname hgap' =>
    exact ⟨p, gap, name, gap', rfl, hp, hne, hgap, hname, hgap'⟩
  | _ => simp at hs

/-- Behind the first byte of an operator that byte is the last one read. -/
theorem operator_of_run {u : Bytes} {c : State × List Frame}
    (h : run step Pda.new.config u = some c) (hc : c.1 ∈ operatorStates) :
    ∃ b ∈ u.getLast?, b ∈ operatorBytes := by
  refine run_invariant (I := fun c u => c.1 ∈ operatorStates → ∃ b ∈ u.getLast?, b ∈ operatorBytes)
    step ?_ ?_ h hc
  · intro hstart
    simp [operatorStates, Pda.config, Pda.new] at hstart
  · intro d e u b _ _ hstep he
    exact ⟨b, by simp, (equalStep hstep).entered he⟩

/-- The `=` between `u` and `v` is part of no `==`, `!=`, `>=` or `<=`. -/
def Lone (u v : Bytes) : Prop :=
  (∀ b ∈ u.getLast?, b ∉ operatorBytes) ∧ v.head? ≠ some Byte.eq

/-- **A lone `=` is a binding's**, if a byte behind it shows that it is
lone. -/
theorem letBinder_of_lone {u v : Bytes} {c d : State × List Frame}
    (hu : run step Pda.new.config u = some c) (hs : c.1 ≠ .inStrLit false)
    (hlive : run step c (Byte.eq :: v) = some d) (hlone : Lone u v) (hv : v ≠ []) :
    LetBinder u := by
  rw [run_cons] at hlive
  obtain ⟨c', hstep, hrest⟩ := Option.bind_eq_some_iff.mp hlive
  rcases (equalStep hstep).equal rfl hs with hbinder | hoperator | hfirst
  · have hstates : c.1 ∈ letStates := by
      simp only [List.mem_cons, List.not_mem_nil, or_false] at hbinder
      rcases hbinder with h | h <;> simp [h, letStates]
    exact (letText_of_run hu hstates).letBinder hbinder
  · obtain ⟨b, hb, hmem⟩ := operator_of_run hu hoperator
    exact absurd hmem (hlone.1 b hb)
  · -- the byte behind the first half of an `==` is its second half
    obtain ⟨b, v, rfl⟩ := List.exists_cons_of_ne_nil hv
    rw [run_cons] at hrest
    obtain ⟨c'', hstep', -⟩ := Option.bind_eq_some_iff.mp hrest
    have hb : b = Byte.eq := (equalStep hstep').second hfirst
    exact absurd (by simp [hb]) hlone.2

/-! ## The skeleton of a query -/

/-- What a stream and the automaton behind it have to do with delimiters. -/
structure Skeleton (w : Bytes) (p : Pda) : Prop where
  stack : ∃ q, scan w = some (q, p.stack.map opener)
  brace : .brace ∈ p.stack →
    p.stack.getLast? = some .brace ∧ .brace ∉ p.stack.dropLast ∧ OpensBlock w
  semi : ∀ u v, w = u ++ Byte.semi :: v → OutsideStrings u →
    ∃ q, Pda.new.advanceAll u = .ok q ∧ q.stack = [.brace]
  comma : ∀ u v, w = u ++ Byte.comma :: v → OutsideStrings u →
    ∃ q, Pda.new.advanceAll u = .ok q ∧ q.stack ≠ []
  equal : ∀ u v, w = u ++ Byte.eq :: v → OutsideStrings u → Lone u v → v ≠ [] → LetBinder u
  pops : ∀ u b v, w = u ++ b :: v → ∃ q, Pda.new.advanceAll u = .ok q ∧
    ∀ s', step q.state q.stackTop b = .pop s' → ∃ f rest, q.stack = f :: rest ∧ b = closer f
  multiplicity : p.state = .inMultiplicity → p.stackTop = some .bracket
  complete : p.isAccepting = true → ∃ q, scan w = some (q, []) ∧ q ≠ .inside

/-- **The stack is the open-delimiter skeleton of the stream.** -/
theorem delimiters_skeleton {w : Bytes} {p : Pda} (h : Pda.new.advanceAll w = .ok p) :
    Skeleton w p := by
  have hrun := Pda.advanceAll_eq_ok.mp h
  -- the stream is read up to each of its bytes, and then that byte
  have hat : ∀ u b v, w = u ++ b :: v → ∃ c, run step Pda.new.config u = some c ∧
      step c.1 c.2.head? b ≠ .dead ∧ run step c (b :: v) = some p.config := by
    rintro u b v rfl
    rw [run_append] at hrun
    obtain ⟨c, hu, hrest⟩ := Option.bind_eq_some_iff.mp hrun
    refine ⟨c, hu, fun hd => ?_, hrest⟩
    rw [run_cons, (advance_eq_none step).mpr hd] at hrest
    cases hrest
  constructor
  case stack => exact ⟨_, scan_of_run hrun⟩
  case brace => exact (framing_of_run hrun).bottom
  case semi =>
    intro u v hw hout
    obtain ⟨c, hu, hlive, -⟩ := hat u _ v hw
    have htop := top_of_semi (not_inside_of_outsideStrings hu hout) hlive
    exact ⟨Pda.ofConfig c, Pda.advanceAll_eq_ok.mpr hu, (framing_of_run hu).alone htop⟩
  case comma =>
    intro u v hw hout
    obtain ⟨c, hu, hlive, -⟩ := hat u _ v hw
    have htop := top_of_comma (not_inside_of_outsideStrings hu hout) hlive
    refine ⟨Pda.ofConfig c, Pda.advanceAll_eq_ok.mpr hu, fun hnil => ?_⟩
    have hnil' : c.2 = [] := hnil
    simp [hnil'] at htop
  case equal =>
    intro u v hw hout hlone hv
    obtain ⟨c, hu, -, hrest⟩ := hat u _ v hw
    exact letBinder_of_lone hu (not_inside_of_outsideStrings hu hout) hrest hlone hv
  case pops =>
    intro u b v hw
    obtain ⟨c, hu, -, -⟩ := hat u b v hw
    refine ⟨Pda.ofConfig c, Pda.advanceAll_eq_ok.mpr hu, fun s' hpop => ?_⟩
    obtain ⟨f, htop, hb⟩ := closes_top hpop
    obtain ⟨rest, hrest⟩ := List.head?_eq_some_iff.mp htop
    exact ⟨f, rest, hrest, hb⟩
  case multiplicity =>
    intro hs
    have hconfig : p.config = (.inMultiplicity, p.stack) := by rw [Pda.config, hs]
    exact bracket_of_run (hconfig ▸ hrun)
  case complete =>
    intro hacc
    simp only [Pda.isAccepting, Bool.and_eq_true, List.isEmpty_iff, decide_eq_true_eq] at hacc
    have hscan := scan_of_run hrun
    refine ⟨quoting p.state, by simpa [Pda.config, hacc.1] using hscan, fun hq => ?_⟩
    have hs : p.state = .inStrLit false := by
      revert hq
      unfold quoting
      split <;> simp_all
    rw [hs] at hacc
    exact absurd hacc.2 (by decide)

theorem delimiters_skeleton_block :
    Skeleton (ascii "\x7b|let a = X.all(); $a->take(2);\x7d") ⟨.afterValue, []⟩ :=
  delimiters_skeleton (by rfl)

/-- The first half of an unfinished `==` is a lone `=` that binds nothing. -/
theorem unfinished_equal_lone :
    ¬ ∀ w p, Pda.new.advanceAll w = .ok p → ∀ u v, w = u ++ Byte.eq :: v → OutsideStrings u →
        Lone u v → LetBinder u := by
  intro h
  have hbinder : LetBinder (ascii "|A.all()") :=
    h (ascii "|A.all()=") ⟨.sawEq, []⟩ (by rfl) (ascii "|A.all()") [] (by decide +kernel)
      ⟨.outside, [], by decide +kernel, by decide +kernel⟩
        ⟨by decide +kernel, by decide +kernel⟩
  obtain ⟨p, gap, name, gap', hu, -⟩ := hbinder
  have hlet : Byte.e ∈ ascii "let" := by decide +kernel
  have he : Byte.e ∈ ascii "|A.all()" := by
    rw [hu]
    simp only [List.mem_append]
    tauto
  exact absurd he (by decide)

end PureCard
