/-
PureCard.Schema.Nesting — one depth, counted three times.

The automaton counts open delimiters on its frame stack, byte by byte. The
tracker counts them in `depth`, piece by piece. `level_read` says that the
pieces of a live stream nest exactly as the frames do: every delimiter the
automaton pushes or pops is a piece of its own, in order, and a delimiter
byte inside a string or an operator is neither.

`byteNesting` is the reading of a byte as a delimiter; a gap nests as its
bytes (`level_gapTokens`) and the automaton moves its stack on delimiter
bytes of gaps only (`NestStep`).
-/
import PureCard.Schema.Reading
import PureCard.Schema.Scoping

namespace PureCard

open Pushdown Scopes ScopeTracker

/-! ## Bytes -/

/-- What a byte of a gap does to the depth. -/
def byteNesting (b : UInt8) : Nesting :=
  if b = Byte.lparen ∨ b = Byte.lbracket ∨ b = Byte.lbrace then .opens
  else if b = Byte.rparen ∨ b = Byte.rbracket ∨ b = Byte.rbrace then .closes
  else .flat

def delimiters : Bytes :=
  [Byte.lparen, Byte.lbracket, Byte.lbrace, Byte.rparen, Byte.rbracket, Byte.rbrace]

theorem byteNesting_of_not_mem {b : UInt8} (h : b ∉ delimiters) : byteNesting b = .flat := by
  simp only [delimiters, List.mem_cons, List.not_mem_nil, or_false, not_or] at h
  obtain ⟨h1, h2, h3, h4, h5, h6⟩ := h
  rw [byteNesting, if_neg (by simp [h1, h2, h3]), if_neg (by simp [h4, h5, h6])]

/-- A class of bytes without a delimiter. -/
theorem byteNesting_of_class {P : UInt8 → Bool} (hP : delimiters.all (fun c => !P c) = true)
    {b : UInt8} (h : P b = true) : byteNesting b = .flat := by
  refine byteNesting_of_not_mem fun hb => ?_
  have hnot := List.all_eq_true.mp hP b hb
  rw [h] at hnot
  cases hnot

theorem byteNesting_of_tail {b : UInt8} (h : isIdentTail b = true) : byteNesting b = .flat :=
  byteNesting_of_class (by decide) h

theorem byteNesting_of_ws {b : UInt8} (h : isAsciiWhitespace b = true) : byteNesting b = .flat :=
  byteNesting_of_class (by decide) h

theorem byteNesting_of_op {a b : UInt8} (h : isTwoByteOp a b = true) :
    byteNesting a = .flat ∧ byteNesting b = .flat := by
  have hall : twoByteOps.all (fun op => byteNesting op.1 = .flat && byteNesting op.2 = .flat) =
      true := by decide
  simpa using List.all_eq_true.mp hall (a, b) (isTwoByteOp_iff.mp h)

/-- One byte on its own nests as a byte. -/
theorem nesting_singleton (b : UInt8) : (classify [b]).nesting = byteNesting b := by
  have hmark : ∀ c ∈ markBytes, (classify [c]).nesting = byteNesting c := by decide +kernel
  by_cases hb : b ∈ markBytes
  · exact hmark b hb
  · have hflat : byteNesting b = .flat := by
      simp only [markBytes, List.mem_cons, List.not_mem_nil, or_false, not_or] at hb
      obtain ⟨_, _, _, _, h1, h2, h3, h4, h5, h6⟩ := hb
      rw [byteNesting, if_neg (by simp [h1, h2, h3]), if_neg (by simp [h4, h5, h6])]
    rw [hflat]
    have hnot : (classify [b]).isMark = false := by
      rw [Bool.eq_false_iff]
      intro h
      obtain ⟨c, hc, heq⟩ := classify_mark h
      exact hb (by rw [List.cons.inj heq |>.1]; exact hc)
    revert hnot
    cases classify [b] <;> first | exact fun _ => rfl | (intro h; cases h)

/-- A run that does not begin with a delimiter, or goes on after it, is no
delimiter. -/
theorem nesting_flat {b : UInt8} {u : Bytes} (h : byteNesting b = .flat ∨ u ≠ []) :
    (classify (b :: u)).nesting = .flat := by
  cases u with
  | nil =>
    rw [nesting_singleton]
    exact h.resolve_right (fun hne => hne rfl)
  | cons c u =>
    have hnot : (classify (b :: c :: u)).isMark = false := by
      rw [Bool.eq_false_iff]
      intro h
      obtain ⟨x, _, heq⟩ := classify_mark h
      cases heq
    revert hnot
    cases classify (b :: c :: u) <;> first | exact fun _ => rfl | (intro h; cases h)

/-! ## Gaps -/

/-- The nesting of a piece's text. -/
def textNesting (text : Bytes) : Nesting := (classify text).nesting

theorem level_flat_bytes {bytes : Bytes} (h : ∀ b ∈ bytes, byteNesting b = .flat) (n : Nat) :
    level byteNesting n bytes = some n := by
  induction bytes with
  | nil => rfl
  | cons b bytes ih =>
    rw [level_flat (h b (by simp))]
    exact ih fun c hc => h c (List.mem_cons_of_mem b hc)

/-- Two heads that nest alike. -/
theorem level_cons_congr {α β : Type} {f : α → Nesting} {g : β → Nesting} {a : α} {b : β}
    (h : f a = g b) {as : List α} {bs : List β} (hrest : ∀ n, level f n as = level g n bs)
    (n : Nat) : level f n (a :: as) = level g n (b :: bs) := by
  cases hb : g b with
  | opens => rw [level_opens (h.trans hb), level_opens hb, hrest]
  | flat => rw [level_flat (h.trans hb), level_flat hb, hrest]
  | closes =>
    cases n with
    | zero => rw [level_closes_zero (h.trans hb), level_closes_zero hb]
    | succ n => rw [level_closes (h.trans hb), level_closes hb, hrest]

/-- **A gap nests as its bytes.** -/
theorem level_gapTokens (gap : Bytes) (n : Nat) :
    level textNesting n (gapTokens gap) = level byteNesting n gap := by
  induction hlen : gap.length using Nat.strong_induction_on generalizing gap n with
  | _ len ih =>
    cases gap with
    | nil => rfl
    | cons b tail =>
      have hih : ∀ g : Bytes, g.length ≤ tail.length → ∀ n,
          level textNesting n (gapTokens g) = level byteNesting n g := by
        intro g hg n
        exact ih g.length (by simp only [List.length_cons] at hlen; omega) g n rfl
      by_cases hws : isAsciiWhitespace b = true
      · rw [gapTokens_ws hws, level_flat (byteNesting_of_ws hws)]
        exact hih tail (le_refl _) n
      · by_cases hid : isIdentStart b = true
        · have hflat : textNesting (b :: tail.takeWhile isIdentTail) = .flat :=
            nesting_flat (.inl (byteNesting_of_tail (isIdentTail_of_start hid)))
          have hsplit : tail = tail.takeWhile isIdentTail ++ tail.dropWhile isIdentTail :=
            (List.takeWhile_append_dropWhile).symm
          have hrun : level byteNesting n (tail.takeWhile isIdentTail) = some n :=
            level_flat_bytes (fun c hc => byteNesting_of_tail (List.mem_takeWhile_imp hc)) n
          rw [gapTokens_ident hid, level_flat hflat,
            level_flat (byteNesting_of_tail (isIdentTail_of_start hid)),
            hih _ (length_dropWhile_le ..) n]
          conv_rhs => rw [hsplit, level_append, hrun, Option.bind_some]
        · by_cases hop : startsTwoByteOp (b :: tail) = true
          · cases tail with
            | nil => cases hop
            | cons c tail =>
              have hbc := byteNesting_of_op hop
              have hflat : textNesting [b, c] = .flat := nesting_flat (.inl hbc.1)
              rw [gapTokens_op hop, level_flat hflat, level_flat hbc.1, level_flat hbc.2]
              exact hih tail (by simp) n
          · rw [gapTokens_single (by simpa using hws) (by simpa using hop) (by simpa using hid)]
            exact level_cons_congr (f := textNesting) (nesting_singleton b) (hih tail (le_refl _)) n

theorem level_gapPieces (gap : Bytes) (anchor : State) (n : Nat) :
    level Piece.nesting n (gapPieces gap anchor) = level byteNesting n gap := by
  have hmap : ∀ (texts : List Bytes) (m : Nat),
      level Piece.nesting m (texts.map (⟨·, anchor⟩)) = level textNesting m texts := by
    intro texts
    induction texts with
    | nil => exact fun m => rfl
    | cons t texts ih => exact level_cons_congr (f := Piece.nesting) (g := textNesting) rfl ih
  rw [gapPieces, hmap, level_gapTokens]

/-! ## The automaton -/

/-- What a class of bytes may do to the depth: nothing, for a class without
a delimiter. -/
def ByteClass.nesting : ByteClass → Option Nesting
  | .one b => some (byteNesting b)
  | .notQuote => none
  | _ => some .flat

/-- A row of the table moves the stack as its bytes nest, and closes and
opens in gaps only. Strings are the only lexemes that take any byte. -/
def nestRow (s : State) (k : ByteClass) (m : Step) : Bool :=
  match m with
  | .next s' =>
    k.nesting == some .flat || (s.lexemeKind == some .str && s'.lexemeKind == some .str)
  | .push _ s' => k.nesting == some .opens && s'.lexemeKind.isNone
  | .pop s' => k.nesting == some .closes && s'.lexemeKind.isNone
  | .dead => true

theorem checkMoves_nestRow : checkMoves nestRow = true := by decide +kernel

theorem ByteClass.nesting_has {k : ByteClass} {b : UInt8} {x : Nesting} (hb : k.has b = true)
    (hk : k.nesting = some x) : byteNesting b = x := by
  cases k with
  | one c =>
    have hbc : b = c := by simpa [ByteClass.has] using hb
    rw [hbc]
    exact Option.some.inj hk
  | notQuote => cases hk
  | _ =>
    cases hk
    exact byteNesting_of_class (by decide) hb

/-- What one byte does to the stack: it stays inside a string, or its
nesting is what happens to the depth, in a gap unless that is nothing. -/
inductive NestStep (s : State) (st : List Frame) (b : UInt8) (c : State × List Frame) : Prop where
  | str (hs : s.lexemeKind = some .str) (hc : c.1.lexemeKind = some .str) (hst : c.2 = st)
  | flat (hb : byteNesting b = .flat) (hst : c.2 = st)
  | opens (hb : byteNesting b = .opens) (hc : c.1.lexemeKind = none) (f : Frame)
      (hst : c.2 = f :: st)
  | closes (hb : byteNesting b = .closes) (hc : c.1.lexemeKind = none) (f : Frame)
      (hst : st = f :: c.2)

theorem nestStep {s : State} {st : List Frame} {b : UInt8} {c : State × List Frame}
    (h : Pushdown.advance step (s, st) b = some c) : NestStep s st b c := by
  obtain ⟨k, m, hk, hrow, hm, happly⟩ := advance_checkMoves checkMoves_nestRow h
  unfold nestRow at hrow
  cases m with
  | dead => cases happly
  | next s' =>
    cases happly
    simp only [Bool.or_eq_true, Bool.and_eq_true, beq_iff_eq] at hrow
    rcases hrow with hflat | ⟨hs, hc⟩
    · exact .flat (ByteClass.nesting_has hk hflat) rfl
    · exact .str hs hc rfl
  | push f s' =>
    cases happly
    simp only [Bool.and_eq_true, beq_iff_eq, Option.isNone_iff_eq_none] at hrow
    exact .opens (ByteClass.nesting_has hk hrow.1) hrow.2 f rfl
  | pop s' =>
    simp only [Bool.and_eq_true, beq_iff_eq, Option.isNone_iff_eq_none] at hrow
    cases st with
    | nil => exact absurd hm (step_framed.pop_top s b s')
    | cons f st =>
      cases happly
      exact .closes (ByteClass.nesting_has hk hrow.1) hrow.2 f rfl

/-! ## The pieces -/

/-- The pieces completed so far nest to some depth, and with the bytes of
the segment to the height of the stack; a lexeme being read is no
delimiter. -/
structure Nested (r : Reader) (n : Nat) : Prop where
  done : level Piece.nesting 0 r.done = some n
  gap : r.lexer.state.lexemeKind = none →
    level byteNesting n r.lexer.seg = some r.lexer.stack.length
  lexeme : r.lexer.state.lexemeKind ≠ none →
    n = r.lexer.stack.length ∧ ∃ b u, r.lexer.seg = b :: u ∧ byteNesting b = .flat

theorem Nested.all {r : Reader} {n : Nat} (h : Nested r n) :
    level Piece.nesting 0 r.all = some r.lexer.stack.length := by
  rw [Reader.all, level_append, h.done, Option.bind_some]
  by_cases hk : r.lexer.state.lexemeKind = none
  · rw [Reader.pieces_gap hk, level_gapPieces]
    exact h.gap hk
  · obtain ⟨hn, b, u, hseg, hb⟩ := h.lexeme hk
    rw [Reader.pieces_lexeme hk, level_flat, hn]
    · rfl
    · rw [Piece.nesting, Piece.lexeme, hseg]
      exact nesting_flat (.inl hb)

/-- The depth after one more byte of a gap. -/
theorem level_byte {s : State} {st : List Frame} {b : UInt8} {c : State × List Frame}
    (h : NestStep s st b c) (hs : s.lexemeKind ≠ some .str ∨ c.1.lexemeKind ≠ some .str) :
    level byteNesting st.length [b] = some c.2.length := by
  cases h with
  | str hs' hc _ => exact absurd hc (hs.resolve_left (not_not_intro hs'))
  | flat hb hst =>
    rw [level_flat hb, hst]
    rfl
  | opens hb _ f hst =>
    rw [level_opens hb, hst]
    rfl
  | closes hb _ f hst =>
    rw [hst, List.length_cons, level_closes hb]
    rfl

/-- In a lexeme nothing opens or closes. -/
theorem stack_eq_of_lexeme {s : State} {st : List Frame} {b : UInt8} {c : State × List Frame}
    (h : NestStep s st b c) (hc : c.1.lexemeKind ≠ none) : c.2 = st := by
  cases h with
  | str _ _ hst => exact hst
  | flat _ hst => exact hst
  | opens _ hnone _ _ => exact absurd hnone hc
  | closes _ hnone _ _ => exact absurd hnone hc

theorem Nested.byte {r : Reader} {n : Nat} (h : Nested r n) {b : UInt8} {c : State × List Frame}
    (hadv : Pushdown.advance step (r.lexer.state, r.lexer.stack) b = some c) :
    ∃ m, Nested (r.byte b c) m := by
  have hstep := nestStep hadv
  by_cases hkind : r.lexer.state.lexemeKind = c.1.lexemeKind
  · rw [Reader.byte_same b hkind]
    refine ⟨n, h.done, ?_, ?_⟩
    · intro hc
      have hk : r.lexer.state.lexemeKind = none := hkind.trans hc
      have hlevel := level_byte hstep (.inl (by simp [hk]))
      dsimp only
      rw [level_append, h.gap hk, Option.bind_some]
      exact hlevel
    · intro hc
      have hk : r.lexer.state.lexemeKind ≠ none := fun hnone => hc (hkind.symm.trans hnone)
      obtain ⟨hn, x, u, hseg, hx⟩ := h.lexeme hk
      refine ⟨hn.trans (congrArg List.length (stack_eq_of_lexeme hstep hc)).symm, x, u ++ [b], ?_, hx⟩
      dsimp only
      rw [hseg, List.cons_append]
  · have hstr : r.lexer.state.lexemeKind ≠ some .str ∨ c.1.lexemeKind ≠ some .str := by
      by_cases hs : r.lexer.state.lexemeKind = some .str
      · exact .inr fun hc => hkind (hs.trans hc.symm)
      · exact .inl hs
    rw [Reader.byte_other b hkind]
    refine ⟨r.lexer.stack.length, h.all, fun _ => level_byte hstep hstr, ?_⟩
    intro hc
    refine ⟨(congrArg List.length (stack_eq_of_lexeme hstep hc)).symm, b, [], rfl, ?_⟩
    cases hstep with
    | str hs hc' _ => exact absurd (hs.trans hc'.symm) hkind
    | flat hb _ => exact hb
    | opens _ hnone _ _ => exact absurd hnone hc
    | closes _ hnone _ _ => exact absurd hnone hc

theorem Nested.cut {r : Reader} {n : Nat} (h : Nested r n) : ∃ m, Nested r.cut m := by
  cases hk : r.lexer.state.lexemeKind with
  | some k =>
    rw [Reader.cut_lexeme hk]
    exact ⟨n, h⟩
  | none =>
    have hcut : r.cut = ⟨⟨r.lexer.state, r.lexer.stack, [], r.lexer.state⟩, r.all⟩ := by
      rw [Reader.cut, Lexer.cut_gap hk, Lexer.cutPieces_gap hk, Reader.all]
    rw [hcut]
    exact ⟨r.lexer.stack.length, h.all, fun _ => rfl, fun hne => absurd hk hne⟩

theorem nested_read {syms : List Sym} {r : Reader} (h : Reader.start.read syms = some r) :
    ∃ n, Nested r n :=
  Reader.invariant (I := fun _ r => ∃ n, Nested r n)
    ⟨0, rfl, fun _ => rfl, fun hne => absurd rfl hne⟩
    (fun _ _ _ _ ⟨_, hI⟩ hadv => hI.byte hadv) (fun _ _ ⟨_, hI⟩ => hI.cut) h

/-- **The pieces of a live stream nest as the automaton's frames.** -/
theorem level_read {syms : List Sym} {r : Reader} (h : Reader.start.read syms = some r) :
    level Piece.nesting 0 r.all = some r.lexer.stack.length := by
  obtain ⟨n, hn⟩ := nested_read h
  exact hn.all

/-- So do the pieces the tracker has been shown at the end of a token. -/
theorem level_tokens {toks : List Bytes} {l : Lexer} {ps : List Piece}
    (h : Lexer.start.tokens toks = some (l, ps)) :
    level Piece.nesting 0 ps = some l.stack.length := by
  obtain ⟨n, hn⟩ := nested_read (Reader.read_of_tokens h)
  have hdone : level Piece.nesting 0 ps = some n := hn.done
  rw [hdone]
  by_cases hk : l.state.lexemeKind = none
  · obtain ⟨hseg, _⟩ := Lexer.settled_tokens Lexer.settled_start h hk
    have hgap : level byteNesting n l.seg = some l.stack.length := hn.gap hk
    rw [hseg] at hgap
    exact hgap
  · exact congrArg some (hn.lexeme hk).1

end PureCard
