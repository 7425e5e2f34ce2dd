/-
PureCard.Passages — one item of a query.

What the automaton does with each kind of item at the states where a query
has it: where a value begins (`startStates`), behind a name or a closed
list (`primaryStates`) and behind any value (`valuedStates`). The effect on
the tracker is left to the dispatch of the item's text, which
`Schema.Effects` describes.
-/
import PureCard.Typing

namespace PureCard

open Pushdown Completion ScopeTracker

/-! ## Marks -/

/-- The states a value may begin in. -/
def startStates : List State := [.expectValue, .expectValueReq, .sawPipe, .sawGt, .sawLt]

/-- The states behind a name or a closed list. -/
def primaryStates : List State := [.inIdent, .afterValue]

theorem start_of_value {s : State} (h : s ∈ valueStates) : s ∈ startStates := by
  revert h
  revert s
  decide

theorem valued_of_primary {s : State} (h : s ∈ primaryStates) : s ∈ valuedStates := by
  simp only [primaryStates, List.mem_cons, List.not_mem_nil, or_false] at h
  rcases h with rfl | rfl <;> decide

/-- The binary operators. -/
def operators : List Bytes := comparisonOps ++ arithmeticOps ++ logicalOps

def markTexts : List Bytes :=
  [[Byte.dollar], [Byte.dot], [Byte.dash, Byte.gt], [Byte.pipe], [Byte.comma], [Byte.bang]] ++
    openers ++ closers ++ operators

/-- What makes a text a mark. -/
def markRow (m : Bytes) : Bool :=
  m.head?.any (fun b => !isIdentTail b && b != Byte.quote && b != Byte.percent) &&
    (m.head? != some Byte.dash || m == [Byte.dash, Byte.gt]) && m.all (fun b => !isIdentStart b) &&
    (m.length == 1 && m.all (fun b => !isAsciiWhitespace b && b != Byte.dash) ||
      m.length == 2 && startsTwoByteOp m)

theorem isMark_of_row {m : Bytes} (h : markRow m = true) : IsMark m := by
  simp only [markRow, Bool.and_eq_true, Bool.or_eq_true, beq_iff_eq, bne_iff_ne, ne_eq] at h
  obtain ⟨⟨⟨hfirst, hdash⟩, hkey⟩, hshape⟩ := h
  obtain ⟨b, u, rfl⟩ : ∃ b u, m = b :: u := by
    cases m with
    | nil => cases hfirst
    | cons b u => exact ⟨b, u, rfl⟩
  refine ⟨⟨⟨b, u, rfl, by simpa [and_assoc] using hfirst⟩, ?_⟩, fun c hc => ?_, ?_⟩
  · intro c v hcons
    obtain ⟨rfl, rfl⟩ := List.cons.inj hcons
    rcases hdash with hdash | hdash
    · exact absurd rfl hdash
    · obtain ⟨rfl, -⟩ := List.cons.inj (List.cons.inj hdash).2
      rfl
  · simpa using List.all_eq_true.mp hkey c hc
  · rcases hshape with ⟨hone, hall⟩ | ⟨htwo, hop⟩
    · obtain ⟨c, hc⟩ := List.length_eq_one_iff.mp hone
      rw [hc] at hall ⊢
      exact .inl ⟨c, rfl, by simpa using hall⟩
    · obtain ⟨c, d, hcd⟩ := List.length_eq_two.mp htwo
      rw [hcd] at hop ⊢
      exact .inr ⟨c, d, rfl, hop⟩

theorem isMark_of_mem {m : Bytes} (hm : m ∈ markTexts) : IsMark m := by
  have hall : markTexts.all markRow = true := by decide +kernel
  exact isMark_of_row (List.all_eq_true.mp hall m hm)

/-- The gap state that the bytes lead to, none closed or opened on the
way. -/
def leadsTo (top : Option Frame) : State → Bytes → Option State
  | s, [] => some s
  | s, b :: u =>
    (allStates.find? fun s' => decide (step s top b = .next s') && s'.lexemeKind.isNone).bind
      fun s' => leadsTo top s' u

theorem runs_of_leadsTo {st : List Frame} {m : Bytes} {s s' : State}
    (h : leadsTo st.head? s m = some s') :
    RunsIn step (fun s => s.lexemeKind = none) (s, st) m (s', st) := by
  induction m generalizing s with
  | nil =>
    cases h
    exact .nil _
  | cons b m ih =>
    obtain ⟨s₁, hfound, hrest⟩ := Option.bind_eq_some_iff.mp h
    have hstep := List.find?_some hfound
    simp only [Bool.and_eq_true, decide_eq_true_eq, Option.isNone_iff_eq_none] at hstep
    refine .cons (d := (s₁, st)) ?_ hstep.2 (ih hrest)
    rw [Pushdown.advance, hstep.1]
    rfl

/-- A mark, the states and stack tops it is read at and the state behind. -/
abbrev MarkMove := Bytes × List State × List (Option Frame) × State

def markMoves : List MarkMove :=
  [([Byte.dollar], startStates, allTops, .afterDollar),
    ([Byte.bang], startStates, allTops, .expectValueReq),
    ([Byte.dot], .inSourceIdent :: primaryStates, allTops, .afterDot),
    ([Byte.dash, Byte.gt], primaryStates, allTops, .afterArrow),
    ([Byte.comma], valuedStates, allFrames.map some, .expectValueReq),
    ([Byte.pipe], [.inIdent], allTops, .sawPipe),
    ([Byte.pipe], valueStates, allTops, .expectValueReq),
    ([Byte.pipe], [.start], allTops, .expectSource)]

def MarkMove.check (row : MarkMove) : Bool :=
  markTexts.contains row.1 && row.2.1.all fun s =>
    decide (SameSide s row.2.2.2) && row.2.2.1.all fun top => leadsTo top s row.1 == some row.2.2.2

theorem check_markMoves : markMoves.all MarkMove.check = true := by decide +kernel

section

variable {schema : Schema} {p : Point}

/-- A mark of the table. -/
theorem Goes.lead_mark (states : List State) (tops : List (Option Frame)) (s' : State) {m : Bytes}
    (hrow : (m, states, tops, s') ∈ markMoves) (hs : p.state ∈ states)
    (htop : p.stack.head? ∈ tops) :
    Goes schema p [.mark m] ⟨s', p.stack, p.tracker.dispatchToken m p.state schema⟩ := by
  have hcheck := List.all_eq_true.mp check_markMoves _ hrow
  simp only [MarkMove.check, Bool.and_eq_true, List.all_eq_true, decide_eq_true_eq, beq_iff_eq,
    List.contains_iff_mem] at hcheck
  obtain ⟨hm, hlead⟩ := hcheck
  obtain ⟨hside, hlead⟩ := hlead p.state hs
  exact .single (.mark (c := (s', p.stack)) (isMark_of_mem hm) hside
    (runs_of_leadsTo (hlead _ htop)))

theorem Goes.dollar (hs : p.state ∈ startStates) :
    Goes schema p [.dollar] ⟨.afterDollar, p.stack, p.tracker.cleared⟩ := by
  have h : Goes schema p [.dollar] _ :=
    .lead_mark startStates allTops .afterDollar (by simp [markMoves]) hs (mem_allTops _)
  rwa [dispatch_clears _ _ _ (by decide)] at h

theorem Goes.bang (hs : p.state ∈ startStates) :
    Goes schema p [.bang] ⟨.expectValueReq, p.stack, p.tracker.cleared⟩ := by
  have h : Goes schema p [.bang] _ :=
    .lead_mark startStates allTops .expectValueReq (by simp [markMoves]) hs (mem_allTops _)
  rwa [dispatch_clears _ _ _ (by decide)] at h

theorem Goes.dot (hs : p.state ∈ .inSourceIdent :: primaryStates) :
    Goes schema p [.dot] ⟨.afterDot, p.stack, p.tracker.dotted⟩ := by
  have h : Goes schema p [.dot] _ :=
    .lead_mark (.inSourceIdent :: primaryStates) allTops .afterDot (by simp [markMoves]) hs
      (mem_allTops _)
  rwa [dispatch_dot _ _ _ (by decide)] at h

theorem Goes.arrow (hs : p.state ∈ primaryStates) :
    Goes schema p [.arrow] ⟨.afterArrow, p.stack, p.tracker.arrowed⟩ := by
  have h : Goes schema p [.arrow] _ :=
    .lead_mark primaryStates allTops .afterArrow (by simp [markMoves]) hs (mem_allTops _)
  rwa [dispatch_arrow _ _ _ (by decide)] at h

/-- A comma in an open list. -/
theorem Goes.comma (hs : p.state ∈ valuedStates) (hstack : p.stack ≠ []) :
    Goes schema p [.comma] ⟨.expectValueReq, p.stack, p.tracker.parted⟩ := by
  have htop : p.stack.head? ∈ allFrames.map some := by
    obtain ⟨f, rest, hcons⟩ := List.exists_cons_of_ne_nil hstack
    rw [hcons, List.head?_cons]
    exact List.mem_map_of_mem (mem_allFrames f)
  have h : Goes schema p [.comma] _ :=
    .lead_mark valuedStates (allFrames.map some) .expectValueReq (by simp [markMoves]) hs htop
  rwa [dispatch_comma _ _ _ (by decide)] at h

/-- The pipe of a lambda, behind its variable. -/
theorem Goes.lambda_bar (hs : p.state = .inIdent) : Goes schema p [.bar]
    ⟨.sawPipe, p.stack, p.tracker.dispatchToken [Byte.pipe] p.state schema⟩ :=
  .lead_mark [.inIdent] allTops .sawPipe (by simp [markMoves]) (by simp [hs]) (mem_allTops _)

/-- The pipe of a body without a variable. -/
theorem Goes.thunk_bar (hs : p.state ∈ valueStates) : Goes schema p [.bar]
    ⟨.expectValueReq, p.stack, p.tracker.dispatchToken [Byte.pipe] p.state schema⟩ :=
  .lead_mark valueStates allTops .expectValueReq (by simp [markMoves]) hs (mem_allTops _)

/-- The pipe a query begins with. -/
theorem Goes.source_bar (hs : p.state = .start) : Goes schema p [.bar]
    ⟨.expectSource, p.stack, p.tracker.dispatchToken [Byte.pipe] p.state schema⟩ :=
  .lead_mark [.start] allTops .expectSource (by simp [markMoves]) (by simp [hs]) (mem_allTops _)

theorem sameSide_start {s s' : State} (hs : s ∈ valuedStates) (hs' : s' ∈ startStates) :
    SameSide s s' := by
  have hall : ∀ s ∈ valuedStates, ∀ s' ∈ startStates, SameSide s s' := by decide
  exact hall s hs s' hs'

/-- A binary operator leads to where a value may begin. -/
theorem Goes.operator {op : Bytes} (hop : op ∈ operators) (hs : p.state ∈ valuedStates) :
    ∃ s' ∈ startStates, Goes schema p [.mark op]
      ⟨s', p.stack, p.tracker.dispatchToken op p.state schema⟩ := by
  have hall : (valuedStates.all fun s => allTops.all fun top => operators.all fun op =>
      (leadsTo top s op).any startStates.contains) = true := by decide +kernel
  have hlead := List.all_eq_true.mp (List.all_eq_true.mp (List.all_eq_true.mp hall p.state hs) _
    (mem_allTops p.stack.head?)) op hop
  cases hs' : leadsTo p.stack.head? p.state op with
  | none =>
    rw [hs'] at hlead
    cases hlead
  | some s' =>
    rw [hs', Option.any_some, List.contains_iff_mem] at hlead
    exact ⟨s', hlead, .single (.mark (c := (s', p.stack)) (isMark_of_mem (List.mem_append_right _ hop))
      (sameSide_start hs hlead) (runs_of_leadsTo hs'))⟩

theorem Goes.comparison {op : Bytes} (hop : op ∈ comparisonOps) (hs : p.state ∈ valuedStates) :
    ∃ s' ∈ startStates, Goes schema p [.mark op] ⟨s', p.stack, p.tracker.comparing⟩ := by
  have hall : ∀ op ∈ comparisonOps, classify op = .cmp := by decide
  obtain ⟨s', hs', h⟩ := Goes.operator (List.mem_append_left _ (List.mem_append_left _ hop)) hs
  rw [dispatch_cmp _ _ _ (hall op hop)] at h
  exact ⟨s', hs', h⟩

theorem Goes.operation {op : Bytes} (hop : op ∈ arithmeticOps ++ logicalOps)
    (hs : p.state ∈ valuedStates) :
    ∃ s' ∈ startStates, Goes schema p [.mark op] ⟨s', p.stack, p.tracker.cleared⟩ := by
  have hall : ∀ op ∈ arithmeticOps ++ logicalOps, op ∈ operators ∧
      classify op ∈ [.dollar, .number, .date, .other] := by decide
  obtain ⟨hmem, hlex⟩ := hall op hop
  obtain ⟨s', hs', h⟩ := Goes.operator hmem hs
  rw [dispatch_clears _ _ _ hlex] at h
  exact ⟨s', hs', h⟩

/-! ## Delimiters -/

/-- The frame an opener pushes. -/
def frameOf (m : Bytes) : Frame := if m = [Byte.lparen] then .paren else .bracket

/-- The closer of an opener. -/
def closerText (m : Bytes) : Bytes := [closer (frameOf m)]

/-- A list opens where a value may begin, and behind a name. -/
theorem Goes.opener {m : Bytes} (hm : m ∈ openers) (hs : p.state ∈ .inIdent :: startStates) :
    Goes schema p [.mark m] ⟨.expectValue, frameOf m :: p.stack,
      p.tracker.dispatchToken m p.state schema⟩ := by
  have hall : ((State.inIdent :: startStates).all fun s => allTops.all fun top =>
      openers.all fun m => decide (step s top (m.headD 0) = .push (frameOf m) .expectValue) &&
        decide (m.length = 1)) = true := by decide +kernel
  have hrow := List.all_eq_true.mp (List.all_eq_true.mp (List.all_eq_true.mp hall p.state hs) _
    (mem_allTops p.stack.head?)) m hm
  rw [Bool.and_eq_true, decide_eq_true_eq, decide_eq_true_eq] at hrow
  have hmark : ∀ m ∈ openers, m ∈ markTexts := by decide
  have hside : ∀ s ∈ State.inIdent :: startStates, SameSide s .expectValue := by decide
  obtain ⟨b, rfl⟩ := List.length_eq_one_iff.mp hrow.2
  refine .single (.mark (c := (.expectValue, frameOf [b] :: p.stack)) (isMark_of_mem (hmark _ hm))
    (hside p.state hs) (.cons ?_ rfl (.nil _)))
  have hstep : step p.state p.stack.head? b = .push (frameOf [b]) .expectValue := hrow.1
  rw [Pushdown.advance, hstep]
  rfl

/-- It closes behind a value or at once. -/
theorem Goes.closer {m : Bytes} (hm : m ∈ openers) (hs : p.state ∈ .expectValue :: valuedStates)
    {st : List Frame} (hst : p.stack = frameOf m :: st) : Goes schema p [.mark (closerText m)]
      ⟨.afterValue, st, p.tracker.dispatchToken (closerText m) p.state schema⟩ := by
  have hstep : step p.state (some (frameOf m)) (PureCard.closer (frameOf m)) = .pop .afterValue := by
    rcases List.mem_cons.mp hs with hs | hs
    · rw [hs]
      simp only [openers, List.mem_cons, List.not_mem_nil, or_false] at hm
      rcases hm with rfl | rfl <;> rfl
    · exact step_closer hs _
  have hmark : ∀ m ∈ openers, closerText m ∈ markTexts := by decide
  have hside : ∀ s ∈ State.expectValue :: valuedStates, SameSide s .afterValue := by decide
  refine .single (.mark (c := (.afterValue, st)) (isMark_of_mem (hmark m hm)) (hside p.state hs)
    (.cons ?_ rfl (.nil _)))
  rw [Pushdown.advance, hst, List.head?_cons, hstep]
  rfl

/-! ## Whitespace -/

theorem mem_of_isWs {b : UInt8} (h : isWs b = true) : b ∈ [(32 : UInt8), 9, 10, 13] := by
  simpa [isWs, or_assoc] using h

/-- Where whitespace leads. -/
def blankMoves : List (List State × State) :=
  [([.expectValue], .expectValue), (startStates.filter (· != .expectValue), .expectValueReq),
    (valuedStates, .afterValue)]

def blankCheck (row : List State × State) : Bool :=
  row.2.lexemeKind.isNone && (row.2 :: row.1).all fun s => decide (SameSide s row.2) &&
    allTops.all fun top => [(32 : UInt8), 9, 10, 13].all fun b => decide (step s top b = .next row.2)

theorem check_blankMoves : blankMoves.all blankCheck = true := by decide +kernel

/-- Whitespace of the table. -/
theorem Goes.lead_blank (states : List State) {s' : State} (hrow : (states, s') ∈ blankMoves)
    {w : Bytes} (hw : IsBlank w) (hs : p.state ∈ states) :
    Goes schema p [.blank w] ⟨s', p.stack, p.tracker⟩ := by
  have hcheck := List.all_eq_true.mp check_blankMoves _ hrow
  simp only [blankCheck, Bool.and_eq_true, List.all_eq_true, decide_eq_true_eq,
    Option.isNone_iff_eq_none] at hcheck
  obtain ⟨hgap, hall⟩ := hcheck
  have hstep : ∀ s ∈ s' :: states, ∀ b, isWs b = true → step s p.stack.head? b = .next s' :=
    fun s hs b hb => (hall s hs).2 _ (mem_allTops _) b (mem_of_isWs hb)
  have hmem := List.mem_cons_of_mem s' hs
  exact .single (.blank ⟨hw.1, hw.2, hgap, hstep p.state hmem, hstep s' (by simp)⟩
    (hall p.state hmem).1)

/-- Whitespace in front of a value. -/
theorem Goes.lead {w : Bytes} (hw : IsBlank w) (hs : p.state ∈ startStates) :
    ∃ s' ∈ valueStates, Goes schema p [.blank w] ⟨s', p.stack, p.tracker⟩ := by
  by_cases hvalue : p.state = .expectValue
  · exact ⟨.expectValue, by decide,
      .lead_blank [.expectValue] (by simp [blankMoves]) hw (by simp [hvalue])⟩
  · refine ⟨.expectValueReq, by decide,
      .lead_blank (startStates.filter (· != .expectValue)) (by simp [blankMoves]) hw ?_⟩
    exact List.mem_filter.mpr ⟨hs, by simpa using hvalue⟩

/-- Whitespace behind a value. -/
theorem Goes.pad {w : Bytes} (hw : IsBlank w) (hs : p.state ∈ valuedStates) :
    Goes schema p [.blank w] ⟨.afterValue, p.stack, p.tracker⟩ :=
  .lead_blank valuedStates (by simp [blankMoves]) hw hs

end

/-! ## Names and literals -/

/-- The states a name may begin in. -/
def nameStates : List State := startStates ++ [.afterDollar, .afterDot, .afterArrow]

theorem IsIdent.begins {w : Bytes} (h : IsIdent w) {s : State} (hs : s ∈ nameStates)
    (st : List Frame) : InLexeme .ident (s, st) w (.inIdent, st) := by
  obtain ⟨b, u, rfl, hb, hu⟩ := h
  refine .cons (d := (.inIdent, st)) ?_ rfl (inLexeme_tail (.inl rfl) st hu)
  have hne : b ≠ Byte.pipe ∧ b ≠ Byte.eq := by
    constructor <;> (rintro rfl; cases hb)
  simp only [nameStates, startStates, List.cons_append, List.nil_append, List.mem_cons,
    List.not_mem_nil, or_false] at hs
  rcases hs with rfl | rfl | rfl | rfl | rfl | rfl | rfl | rfl
  all_goals
    simp [Pushdown.advance, step, valuePosition, orExpectValueReq, demand, pick, hb, isWs_of_start hb,
      hne, Move.apply]

theorem cons_of_head {b : UInt8} {u x : Bytes} (hx : x.head? = (b :: u).head?) : ∃ v, x = b :: v := by
  cases x with
  | nil => cases hx
  | cons c v => exact ⟨v, by rw [Option.some.inj hx]⟩

/-- What begins like a name is no operand of a wrong class. -/
theorem keeps_identStart {b : UInt8} (hb : isIdentStart b = true) (u : Bytes) (tc : TypeClass) :
    keepsOperand (classify (b :: u)) tc = true := by
  refine keeps_of_first ?_ ?_ ?_ ?_
  · rintro rfl
    cases hb
  · rintro rfl
    cases hb
  · intro hdigit
    grind [isIdentStart, isAsciiAlphabetic, isAsciiLowercase, isAsciiDigit]
  · intro c v hcons
    obtain ⟨rfl, -⟩ := List.cons.inj hcons
    cases hb

theorem IsClasspath.classify_eq {path : Bytes} (h : IsClasspath path) :
    classify path = .ident path := by
  have hascii : ∀ c ∈ path, c < 128 := by
    intro c hc
    rcases h.pathBytes c hc with htail | rfl
    · grind [isIdentTail, isAsciiAlphanumeric, isAsciiAlphabetic, isAsciiLowercase, isAsciiDigit]
    · decide
  obtain ⟨b, u, rfl, hb, _⟩ := h.read
  exact classify_of_identStart hb (isUtf8_of_ascii hascii)

/-- The first byte of a literal. -/
theorem IsLiteral.first {tc : TypeClass} {w : Bytes} (h : IsLiteral tc w) : ∃ b u, w = b :: u ∧
    (b = Byte.quote → tc = .str) ∧ (b = Byte.percent → tc = .temporal) ∧
    (isAsciiDigit b = true ∨ b = Byte.dash ∨ b = Byte.dot → tc = .numeric) ∧
    (b = Byte.quote ∨ b = Byte.percent ∨ isAsciiDigit b = true ∨ b = Byte.dash ∨ b = Byte.dot) := by
  obtain ⟨hne, k, s, hk, _, hread⟩ := h
  obtain ⟨b, u, rfl⟩ := List.exists_cons_of_ne_nil hne
  refine ⟨b, u, rfl, ?_⟩
  cases hread with
  | @cons _ d _ _ _ hstep hd _ =>
    obtain ⟨hstr, hdate, hnumber⟩ := literal_opens hstep
    cases k with
    | ident => cases hk
    | str =>
      cases hk
      have hb := hstr hd
      subst hb
      exact ⟨fun _ => rfl, by decide, by decide, .inl rfl⟩
    | date =>
      cases hk
      have hb := hdate hd
      subst hb
      exact ⟨by decide, fun _ => rfl, by decide, .inr (.inl rfl)⟩
    | number =>
      cases hk
      have hb := hnumber hd
      refine ⟨?_, ?_, fun _ => rfl, .inr (.inr hb)⟩
      all_goals
        rintro rfl
        revert hb
        decide

theorem mem_digits {b : UInt8} (h : isAsciiDigit b = true) :
    b ∈ [(48 : UInt8), 49, 50, 51, 52, 53, 54, 55, 56, 57] := by
  simp only [isAsciiDigit, Bool.and_eq_true, decide_eq_true_eq, UInt8.le_iff_toNat_le] at h
  simp only [List.mem_cons, List.not_mem_nil, or_false, ← UInt8.toNat_inj]
  simp at h ⊢
  omega

/-- The bytes a literal begins with. -/
def literalFirsts : Bytes :=
  [Byte.quote, Byte.percent, Byte.dash, Byte.dot, 48, 49, 50, 51, 52, 53, 54, 55, 56, 57]

theorem mem_literalFirsts {b : UInt8} (h : b = Byte.quote ∨ b = Byte.percent ∨
    isAsciiDigit b = true ∨ b = Byte.dash ∨ b = Byte.dot) : b ∈ literalFirsts := by
  rcases h with rfl | rfl | hb | rfl | rfl
  case inr.inr.inl => exact List.mem_append_right [_, _, _, _] (mem_digits hb)
  all_goals decide

/-- It may begin wherever a value may. -/
theorem IsLiteral.begins {tc : TypeClass} {w : Bytes} (h : IsLiteral tc w) {s : State}
    (hs : s ∈ startStates) (st : List Frame) :
    ∃ k s', s' ∈ valuedStates ∧ InLexeme k (s, st) w (s', st) := by
  obtain ⟨b, u, rfl, -, -, -, hb⟩ := h.first
  obtain ⟨-, k, s', -, hs', hread⟩ := h
  refine ⟨k, s', hs', ?_⟩
  have hframed := hread.frame step_framed st
  cases hframed with
  | cons hstep hd hrest =>
    refine .cons ?_ hd hrest
    have hall : (startStates.all fun s => allTops.all fun top => literalFirsts.all fun b =>
        decide (step s top b = step .expectValueReq top b)) = true := by decide +kernel
    have hrow := List.all_eq_true.mp (List.all_eq_true.mp (List.all_eq_true.mp hall s hs) _
      (mem_allTops st.head?)) b (mem_literalFirsts hb)
    rw [decide_eq_true_eq] at hrow
    rw [Pushdown.advance, hrow]
    exact hstep

/-- What begins like it is an operand of its class. -/
theorem IsLiteral.keeps {tc : TypeClass} {w x : Bytes} (h : IsLiteral tc w)
    (hx : x.head? = w.head?) : keepsOperand (classify x) tc = true := by
  obtain ⟨b, w, rfl, hquote, hpercent, hnumber, -⟩ := h.first
  obtain ⟨u, rfl⟩ := cons_of_head hx
  refine keeps_of_first hquote hpercent (fun hb => hnumber (.inl hb)) fun c v hcons _ => ?_
  exact hnumber (.inr (.inl (List.cons.inj hcons).1))

/-- Among these bytes only `-` begins an operator and only `.` is a mark. -/
def literalFirstRow (b : UInt8) : Bool :=
  !isAsciiWhitespace b && !isIdentStart b &&
    (!([Byte.lt, Byte.gt, Byte.eq, Byte.bang, Byte.dash].contains b) || b == Byte.dash) &&
    (!markBytes.contains b || b == Byte.dot)

theorem literalFirst_row {b : UInt8} (hb : b ∈ literalFirsts) : isAsciiWhitespace b = false ∧
    isIdentStart b = false ∧
    (b ∈ [Byte.lt, Byte.gt, Byte.eq, Byte.bang, Byte.dash] → b = Byte.dash) ∧
    (b ∈ markBytes → b = Byte.dot) := by
  have hall : literalFirsts.all literalFirstRow = true := by decide +kernel
  have hrow := List.all_eq_true.mp hall b hb
  simp only [literalFirstRow, Bool.and_eq_true, Bool.not_eq_true', Bool.or_eq_true, beq_iff_eq] at hrow
  obtain ⟨⟨⟨hws, hident⟩, hop⟩, hmark⟩ := hrow
  refine ⟨hws, hident, fun h => hop.resolve_left ?_, fun h => hmark.resolve_left ?_⟩
  · rw [List.contains_iff_mem.mpr h]
    simp
  · rw [List.contains_iff_mem.mpr h]
    simp

/-- To the tracker it is a string, or nothing it knows. -/
theorem IsLiteral.lexeme {tc : TypeClass} {w : Bytes} (h : IsLiteral tc w) :
    (∃ content, classify w = .str content) ∨ classify w ∈ [.dollar, .number, .date, .other] := by
  obtain ⟨b, u, rfl, -, -, -, hb⟩ := h.first
  obtain ⟨-, k, s, -, hs, hread⟩ := h
  have hrun := hread.run_eq
  obtain ⟨hblank, hident, hop, hmark⟩ := literalFirst_row (mem_literalFirsts hb)
  rcases classify_shape (b :: u) with ⟨hws, -⟩ | ⟨c, v, hcons, hmem, hlex⟩ | ⟨c, hcons, hmem, -⟩ |
    ⟨c, v, hcons, hlex⟩
  · simp [hblank] at hws
  · obtain ⟨rfl, rfl⟩ := List.cons.inj hcons
    obtain rfl := hop hmem
    -- only `->` is an operator here, and no number
    rcases u with _ | ⟨d, _ | ⟨e, v⟩⟩
    · exact absurd hlex (by decide)
    · by_cases hd : d = Byte.gt
      · subst hd
        have hdead : Pushdown.run step (State.expectValueReq, []) [Byte.dash, Byte.gt] = none := rfl
        rw [hdead] at hrun
        cases hrun
      · simp [classify, hd, classifyFirst] at hlex
        grind
    · simp [classify, classifyFirst] at hlex
      grind
  · obtain ⟨rfl, rfl⟩ := List.cons.inj hcons
    obtain rfl := hmark hmem
    cases hrun
    exact absurd hs (by decide)
  · obtain ⟨rfl, rfl⟩ := List.cons.inj hcons
    rw [hlex, classifyFirst, hident]
    split
    · exact .inl ⟨_, rfl⟩
    · right
      split
      · simp
      · split <;> simp

/-! ### What their positions admit -/

section

variable {schema : Schema} {t : ScopeTracker} {s : State} {w : Bytes}

/-- Where no rule begins. -/
theorem admits_quiet (hs : s ∈ [.sawPipe, .sawGt, .sawLt, .afterDollar, .afterArrow]) :
    Admits schema t s w := by
  refine .free ?_
  simp only [List.mem_cons, List.not_mem_nil, or_false] at hs
  rcases hs with rfl | rfl | rfl | rfl | rfl <;> rfl

theorem value_or_quiet (hs : s ∈ startStates) :
    s ∈ valueStates ∨ s ∈ [State.sawPipe, .sawGt, .sawLt, .afterDollar, .afterArrow] := by
  revert hs
  revert s
  decide

theorem openingPosition_value (hs : s ∈ valueStates) : t.openingPosition s =
    match t.cmpPending with
    | some tc => .reValue tc
    | none => if t.inColumnArg then .column else .none := by
  simp only [valueStates, List.mem_cons, List.not_mem_nil, or_false] at hs
  rcases hs with rfl | rfl <;> rfl

/-- A name is no operand of a wrong class and no quoted column. -/
theorem admits_ident (hw : IsIdent w) (hs : s ∈ startStates) : Admits schema t s w := by
  rcases value_or_quiet hs with hs | hs
  · have hpos := openingPosition_value (t := t) hs
    cases hcmp : t.cmpPending with
    | some tc =>
      rw [hcmp] at hpos
      obtain ⟨b, u, rfl, hb, -⟩ := hw
      refine .operand hpos fun x hx => ?_
      obtain ⟨v, rfl⟩ := cons_of_head hx
      exact keeps_identStart hb v tc
    | none =>
      rw [hcmp] at hpos
      dsimp only at hpos
      by_cases hcolumn : t.inColumnArg = true
      · rw [if_pos hcolumn] at hpos
        refine .beside hpos ?_
        obtain ⟨b, u, rfl, hb, _⟩ := hw
        intro hquote
        cases hquote
        cases hb
      · rw [if_neg hcolumn] at hpos
        exact .free hpos
  · exact admits_quiet hs

/-- A literal of the class the comparison waits for. -/
theorem admits_literal {tc : TypeClass} (hw : IsLiteral tc w) (hs : s ∈ startStates)
    (hcmp : ∀ lhs, t.cmpPending = some lhs → lhs = tc) (href : t.refStack = []) :
    Admits schema t s w := by
  rcases value_or_quiet hs with hs | hs
  · have hpos := openingPosition_value (t := t) hs
    cases hpending : t.cmpPending with
    | some lhs =>
      obtain rfl := hcmp lhs hpending
      rw [hpending] at hpos
      exact .operand hpos fun x hx => hw.keeps hx
    | none =>
      rw [hpending] at hpos
      refine .free (hpos.trans ?_)
      simp [inColumnArg, href]
  · exact admits_quiet hs

/-- A quoted column on record, or one that nothing narrows. -/
theorem admits_column {c : Bytes} (hs : s ∈ valueStates) (hcmp : t.cmpPending = none)
    (hc : t.refStack = [] ∨ c ∈ t.emittedStrings) : Admits schema t s (quote c) := by
  have hpos := openingPosition_value (t := t) hs
  rw [hcmp] at hpos
  dsimp only at hpos
  by_cases hcolumn : t.inColumnArg = true
  · rw [if_pos hcolumn] at hpos
    rcases hc with href | hc
    · simp [inColumnArg, href] at hcolumn
    · refine .named ?_ (by rw [hpos]; simp)
      rw [hpos]
      exact .column hc
  · rw [if_neg hcolumn] at hpos
    exact .free hpos

/-- A member of the class behind the dot, or a name behind a dot that
nothing is known of. -/
theorem admits_member (hcolumn : t.dotIsColumn = false)
    (hbase : t.dotBase = none ∨ ∃ cls, t.dotBase = some cls ∧ w ∈ schema.memberNames cls) :
    Admits schema t .afterDot w := by
  rcases hbase with hbase | ⟨cls, hbase, hmem⟩
  · refine .free ?_
    simp [openingPosition, hcolumn, hbase]
  · have hpos : t.openingPosition .afterDot = .member cls := by simp [openingPosition, hcolumn, hbase]
    refine .named ?_ (by rw [hpos]; simp)
    rw [hpos]
    exact .member hmem

end

/-! ### Their passages -/

section

variable {schema : Schema} {p : Point} {w : Bytes}

theorem Goes.name (hw : IsIdent w) (hs : p.state ∈ nameStates)
    (hadm : Admits schema p.tracker p.state w) : Goes schema p [.word w]
      ⟨.inIdent, p.stack, p.tracker.dispatchToken w p.state schema⟩ := by
  have hgap : p.state.lexemeKind = none := by
    have hall : ∀ s ∈ nameStates, s.lexemeKind = none := by decide
    exact hall p.state hs
  have hne : w ≠ [] := by
    obtain ⟨b, u, rfl, _⟩ := hw
    simp
  exact .single (.word hne hgap (hw.begins hs p.stack) hadm)

section

variable (hw : IsIdent w) (hclass : schema.hasClass w = false)

include hw hclass

/-- A name where a value begins. -/
theorem Goes.leading (hs : p.state ∈ valueStates) : ∃ columns,
    Goes schema p [.word w] ⟨.inIdent, p.stack, p.tracker.leading w columns⟩ := by
  have h : Goes schema p [.word w] _ := .name hw (List.mem_append_left _ (start_of_value hs))
    (admits_ident hw (start_of_value hs))
  obtain ⟨columns, hdispatch⟩ := dispatch_value p.tracker p.state hw.classify_eq hclass hs
  rw [hdispatch] at h
  exact ⟨columns, h⟩

/-- A name where a value may begin. -/
theorem Goes.plain (hs : p.state ∈ startStates) : ∃ t, Goes schema p [.word w] ⟨.inIdent, p.stack, t⟩ ∧
    (t = p.tracker.named w ∨ ∃ columns, t = p.tracker.leading w columns) := by
  rcases value_or_quiet hs with hvalue | hquiet
  · obtain ⟨columns, h⟩ := Goes.leading hw hclass hvalue
    exact ⟨_, h, .inr ⟨columns, rfl⟩⟩
  · have h : Goes schema p [.word w] _ := .name hw (List.mem_append_left _ hs) (admits_ident hw hs)
    have hstart : p.state ∈ [State.sawPipe, .sawGt, .sawLt] := by
      have hall : ∀ s ∈ startStates, s ∈ [State.sawPipe, .sawGt, .sawLt, .afterDollar, .afterArrow] →
        s ∈ [State.sawPipe, .sawGt, .sawLt] := by decide
      exact hall p.state hs hquiet
    rw [dispatch_quiet _ _ hw.classify_eq hclass hstart] at h
    exact ⟨_, h, .inl rfl⟩

/-- A variable behind its `$`. -/
theorem Goes.variable (hs : p.state = .afterDollar) :
    Goes schema p [.word w] ⟨.inIdent, p.stack, p.tracker.referring w⟩ := by
  have h : Goes schema p [.word w] _ := .name hw (by rw [hs]; decide) (admits_quiet (by simp [hs]))
  rwa [hs, dispatch_refvar _ hw.classify_eq hclass] at h

/-- A method behind its arrow. -/
theorem Goes.method (hs : p.state = .afterArrow) :
    Goes schema p [.word w] ⟨.inIdent, p.stack, p.tracker.named w⟩ := by
  have h : Goes schema p [.word w] _ := .name hw (by rw [hs]; decide) (admits_quiet (by simp [hs]))
  rwa [hs, dispatch_method _ hw.classify_eq hclass] at h

/-- A name behind a dot that nothing is known of. -/
theorem Goes.free (hs : p.state = .afterDot) (hcolumn : p.tracker.dotIsColumn = false)
    (hbase : p.tracker.dotBase = none) :
    Goes schema p [.word w] ⟨.inIdent, p.stack, p.tracker.named w⟩ := by
  have h : Goes schema p [.word w] _ := .name hw (by rw [hs]; decide)
    (hs ▸ admits_member hcolumn (.inl hbase))
  rwa [hs, dispatch_member_free _ hw.classify_eq hclass hcolumn hbase] at h

end

theorem Goes.source (hw : IsClasspath w) (hs : p.state = .expectSource)
    (hadm : Admits schema p.tracker p.state w) : Goes schema p [.word w]
      ⟨.inSourceIdent, p.stack, p.tracker.dispatchToken w p.state schema⟩ := by
  obtain ⟨b, u, rfl, hb, hread⟩ := hw.read
  have hstep : Pushdown.advance step (p.state, p.stack) b = some (.inSourceIdent, p.stack) := by
    simp [hs, Pushdown.advance, step, hb, isWs_of_start hb, Move.apply]
  exact .single (.word (by simp) (by rw [hs]; rfl) (.cons hstep rfl (hread p.stack)) hadm)

theorem Goes.literal {tc : TypeClass} (hw : IsLiteral tc w) (hs : p.state ∈ startStates)
    (hadm : Admits schema p.tracker p.state w) : ∃ s' ∈ valuedStates, Goes schema p [.word w]
      ⟨s', p.stack, p.tracker.dispatchToken w p.state schema⟩ := by
  have hgap : p.state.lexemeKind = none := by
    have hall : ∀ s ∈ startStates, s.lexemeKind = none := by decide
    exact hall p.state hs
  obtain ⟨k, s', hs', hread⟩ := hw.begins hs p.stack
  exact ⟨s', hs', .single (.word hw.1 hgap hread hadm)⟩

theorem dispatch_literal {tc : TypeClass} (hw : IsLiteral tc w) (t : ScopeTracker) (s : State) :
    t.dispatchToken w s schema = t.cleared ∨
      ∃ content, t.dispatchToken w s schema = t.quoted content := by
  rcases hw.lexeme with ⟨content, hlex⟩ | hlex
  · exact .inr ⟨content, dispatch_str t s schema hlex⟩
  · exact .inl (dispatch_clears t s schema hlex)

/-- A quoted column. -/
theorem Goes.quoted {c : Bytes} (hs : p.state ∈ valueStates)
    (hadm : Admits schema p.tracker p.state (quote c)) :
    Goes schema p [.word (quote c)] ⟨.inStrLit true, p.stack, p.tracker.quoted c⟩ := by
  have hgap : p.state.lexemeKind = none := by
    have hall : ∀ s ∈ valueStates, s.lexemeKind = none := by decide
    exact hall p.state hs
  have h : Goes schema p [.word (quote c)] _ :=
    .single (.word (by simp [quote_eq]) hgap (quote_read c hs p.stack) hadm)
  rwa [dispatch_str _ _ _ (classify_quote c)] at h

end

end PureCard
