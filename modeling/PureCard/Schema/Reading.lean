/-
PureCard.Schema.Reading — reading a stream one symbol at a time.

A run of tokens is a list of symbols: the bytes, and a cut after each
token. `Reader` is the lexer with the pieces it has completed; reading a
symbol is one small step, so what holds of every stream is proved by
looking at one byte and at one cut (`Reader.invariant`).

`Reader.all` is the list of pieces there would be if the stream ended
here. A cut does not change it and a byte drops out, opens a new last
piece or makes the last piece longer (`Reader.all_byte`). From that come
the text of a stream (`spells_all`) and what an anchor says about the
piece before it (`Anchored`): a name read after a `$` has the `$` right
before it, a name read after a dot has the dot.
-/
import PureCard.Grammar.Edges
import PureCard.Schema.Gaps
import PureCard.Schema.Lexing

namespace PureCard

open Pushdown ScopeTracker

/-- A byte, or the end of a token. -/
inductive Sym where
  | byte (b : UInt8)
  | cut
  deriving DecidableEq, Repr

/-- The symbols of a run of tokens. -/
def symbols (toks : List Bytes) : List Sym := toks.flatMap fun tok => tok.map .byte ++ [.cut]

/-- The bytes among the symbols. -/
def symBytes (syms : List Sym) : Bytes :=
  syms.flatMap fun
    | .byte b => [b]
    | .cut => []

theorem symBytes_append (xs ys : List Sym) : symBytes (xs ++ ys) = symBytes xs ++ symBytes ys :=
  List.flatMap_append

theorem symBytes_map (w : Bytes) : symBytes (w.map .byte) = w := by
  induction w with
  | nil => rfl
  | cons b w ih => exact congrArg (b :: ·) ih

theorem symBytes_symbols (toks : List Bytes) : symBytes (symbols toks) = toks.flatten := by
  induction toks with
  | nil => rfl
  | cons tok toks ih =>
    have hcut : symBytes (tok.map .byte ++ [.cut] ++ symbols toks) = tok ++ symBytes (symbols toks) := by
      rw [symBytes_append, symBytes_append, symBytes_map]
      simp [symBytes]
    rw [List.flatten_cons, ← ih]
    exact hcut

/-- Where a byte of a stream stands: in which token and after which bytes
of it. -/
theorem symbols_eq_byte {toks : List Bytes} {xs ys : List Sym} {b : UInt8}
    (h : symbols toks = xs ++ .byte b :: ys) :
    ∃ front u v back, toks = front ++ (u ++ b :: v) :: back ∧
      xs = symbols front ++ u.map .byte := by
  induction toks generalizing xs with
  | nil => simp [symbols] at h
  | cons tok rest ih =>
    have hsplit : tok.map .byte ++ (.cut :: symbols rest) = xs ++ .byte b :: ys := by
      rw [← h]
      simp [symbols]
    rcases List.append_eq_append_iff.mp hsplit with ⟨zs, rfl, hzs⟩ | ⟨zs, htok, hzs⟩
    · -- the byte is in a later token
      cases zs with
      | nil => simp at hzs
      | cons z zs =>
        rw [List.cons_append, List.cons.injEq] at hzs
        obtain ⟨rfl, hrest⟩ := hzs
        obtain ⟨front, u, v, back, rfl, rfl⟩ := ih hrest
        refine ⟨tok :: front, u, v, back, rfl, ?_⟩
        simp [symbols]
    · cases zs with
      | nil => simp at hzs
      | cons z zs =>
        rw [List.cons_append, List.cons.injEq] at hzs
        obtain ⟨rfl, -⟩ := hzs
        obtain ⟨u, v', rfl, rfl, hv⟩ := List.map_eq_append_iff.mp htok
        obtain ⟨d, v, rfl, hd, -⟩ := List.map_eq_cons_iff.mp hv
        cases hd
        exact ⟨[], u, v, rest, rfl, rfl⟩

/-! ## The reader -/

/-- The lexer, and the pieces it has completed. -/
structure Reader where
  lexer : Lexer
  done : List Piece

namespace Reader

def start : Reader := ⟨.start, []⟩

/-- Read a byte that moves the automaton to `c`. -/
def byte (r : Reader) (b : UInt8) (c : State × List Frame) : Reader :=
  ⟨r.lexer.read b c, r.done ++ r.lexer.completed c⟩

/-- A token ends. -/
def cut (r : Reader) : Reader := ⟨r.lexer.cut, r.done ++ r.lexer.cutPieces⟩

/-- Read a list of symbols. -/
def read (r : Reader) : List Sym → Option Reader
  | [] => some r
  | .byte b :: rest =>
    match Pushdown.advance step (r.lexer.state, r.lexer.stack) b with
    | none => none
    | some c => (r.byte b c).read rest
  | .cut :: rest => r.cut.read rest

theorem read_append (r : Reader) (xs ys : List Sym) :
    r.read (xs ++ ys) = (r.read xs).bind fun r' => r'.read ys := by
  induction xs generalizing r with
  | nil => rfl
  | cons x xs ih =>
    cases x with
    | cut => exact ih _
    | byte b =>
      rw [List.cons_append, read, read]
      cases Pushdown.advance step (r.lexer.state, r.lexer.stack) b with
      | none => rfl
      | some c => exact ih _

theorem read_bytes (r : Reader) (w : Bytes) : r.read (w.map .byte) =
    (r.lexer.feed w).map fun c => ⟨c.1, r.done ++ c.2⟩ := by
  induction w generalizing r with
  | nil => simp [read, Lexer.feed]
  | cons b w ih =>
    rw [List.map_cons, read, Lexer.feed]
    cases Pushdown.advance step (r.lexer.state, r.lexer.stack) b with
    | none => rfl
    | some c =>
      simp only
      rw [ih, byte]
      cases (r.lexer.read b c).feed w with
      | none => rfl
      | some d => simp only [Option.map_some, List.append_assoc]

/-- Reading the symbols of a run of tokens is lexing it. -/
theorem read_symbols (r : Reader) (toks : List Bytes) : r.read (symbols toks) =
    (r.lexer.tokens toks).map fun c => ⟨c.1, r.done ++ c.2⟩ := by
  induction toks generalizing r with
  | nil => simp [symbols, read, Lexer.tokens]
  | cons tok toks ih =>
    have hcons : symbols (tok :: toks) = tok.map .byte ++ .cut :: symbols toks := by
      simp [symbols]
    rw [hcons, read_append, read_bytes, Lexer.tokens, Lexer.token]
    cases r.lexer.feed tok with
    | none => rfl
    | some c =>
      simp only [Option.map_some, Option.bind_some]
      rw [read, ih, cut]
      cases c.1.cut.tokens toks with
      | none => rfl
      | some d => simp only [Option.map_some, List.append_assoc]

/-- The reader at the end of a live stream. -/
theorem read_of_tokens {toks : List Bytes} {l : Lexer} {ps : List Piece}
    (h : Lexer.start.tokens toks = some (l, ps)) : start.read (symbols toks) = some ⟨l, ps⟩ := by
  rw [read_symbols]
  exact Option.map_eq_some_iff.mpr ⟨(l, ps), h, rfl⟩

/-- Induction along a read, with the symbols read so far. -/
theorem read_induction {I : List Sym → Reader → Prop} (hstart : I [] start)
    (hbyte : ∀ syms r b c, I syms r →
      Pushdown.advance step (r.lexer.state, r.lexer.stack) b = some c →
      I (syms ++ [.byte b]) (r.byte b c))
    (hcut : ∀ syms r, I syms r → I (syms ++ [.cut]) r.cut) {syms : List Sym} {r : Reader}
    (h : start.read syms = some r) : I syms r := by
  induction syms using List.reverseRecOn generalizing r with
  | nil =>
    cases h
    exact hstart
  | append_singleton syms s ih =>
    rw [read_append] at h
    obtain ⟨r₀, hr₀, hlast⟩ := Option.bind_eq_some_iff.mp h
    cases s with
    | cut =>
      cases hlast
      exact hcut syms r₀ (ih hr₀)
    | byte b =>
      rw [read] at hlast
      split at hlast
      · cases hlast
      · rename_i c hc
        cases hlast
        exact hbyte syms r₀ b c (ih hr₀) hc

/-- **The invariant rule.** What one byte and one cut preserve holds of
every stream; `I` may speak of the bytes read so far. -/
theorem invariant {I : Bytes → Reader → Prop} (hstart : I [] start)
    (hbyte : ∀ w r b c, I w r → Pushdown.advance step (r.lexer.state, r.lexer.stack) b = some c →
      I (w ++ [b]) (r.byte b c))
    (hcut : ∀ w r, I w r → I w r.cut) {syms : List Sym} {r : Reader}
    (h : start.read syms = some r) : I (symBytes syms) r := by
  refine read_induction (I := fun syms r => I (symBytes syms) r) hstart ?_ ?_ h
  · intro syms r b c hI hadv
    rw [symBytes_append]
    exact hbyte (symBytes syms) r b c hI hadv
  · intro syms r hI
    rw [symBytes_append, show symBytes [.cut] = [] from rfl, List.append_nil]
    exact hcut (symBytes syms) r hI

/-- A token that ends inside a lexeme changes nothing. -/
theorem cut_lexeme {r : Reader} {k : LexKind} (h : r.lexer.state.lexemeKind = some k) :
    r.cut = r := by
  rw [cut, Lexer.cut_lexeme h, Lexer.cutPieces_lexeme h, List.append_nil]

/-- **The invariant rule for a lexeme.** What the byte that opens a lexeme
of the kind `k` establishes and every further byte of it keeps holds of a
lexeme of that kind in flight, wherever the tokens cut it. -/
theorem lexeme_invariant {I : Lexer → Prop} {k : LexKind}
    (hopen : ∀ (l : Lexer) (b : UInt8) (c : State × List Frame),
      Pushdown.advance step (l.state, l.stack) b = some c → l.state.lexemeKind ≠ some k →
      c.1.lexemeKind = some k → I ⟨c.1, c.2, [b], l.state⟩)
    (hmore : ∀ (l : Lexer) (b : UInt8) (c : State × List Frame),
      Pushdown.advance step (l.state, l.stack) b = some c → l.state.lexemeKind = some k →
      c.1.lexemeKind = some k → I l → I ⟨c.1, c.2, l.seg ++ [b], l.anchor⟩)
    {toks : List Bytes} {l : Lexer} {ps : List Piece}
    (h : Lexer.start.tokens toks = some (l, ps)) (hk : l.state.lexemeKind = some k) : I l := by
  refine invariant (I := fun _ r => r.lexer.state.lexemeKind = some k → I r.lexer) ?_ ?_ ?_
    (read_of_tokens h) hk
  · intro hk
    cases hk
  · intro _ r b c hI hadv hk
    have hc : c.1.lexemeKind = some k := by simpa [byte] using hk
    rw [byte]
    by_cases hkind : r.lexer.state.lexemeKind = c.1.lexemeKind
    · have hk₀ := hkind.trans hc
      rw [Lexer.read_same b hkind]
      exact hmore r.lexer b c hadv hk₀ hc (hI hk₀)
    · rw [Lexer.read_other b hkind]
      exact hopen r.lexer b c hadv (fun heq => hkind (heq.trans hc.symm)) hc
  · intro _ r hI hk
    have hk₀ : r.lexer.state.lexemeKind = some k := r.lexer.state_cut ▸ hk
    rw [cut_lexeme hk₀]
    exact hI hk₀

/-! ## The pieces so far -/

/-- The pieces, were the stream to end here. -/
def all (r : Reader) : List Piece := r.done ++ r.lexer.pieces

@[simp] theorem all_start : start.all = [] := rfl

/-- A byte that keeps the lexeme class makes the segment longer. -/
theorem byte_same {r : Reader} {c : State × List Frame} (b : UInt8)
    (h : r.lexer.state.lexemeKind = c.1.lexemeKind) :
    r.byte b c = ⟨⟨c.1, c.2, r.lexer.seg ++ [b], r.lexer.anchor⟩, r.done⟩ := by
  rw [byte, Lexer.read_same b h, Lexer.completed_same h, List.append_nil]

/-- A byte that changes the lexeme class opens a segment of its own. -/
theorem byte_other {r : Reader} {c : State × List Frame} (b : UInt8)
    (h : r.lexer.state.lexemeKind ≠ c.1.lexemeKind) :
    r.byte b c = ⟨⟨c.1, c.2, [b], r.lexer.state⟩, r.all⟩ := by
  rw [byte, Lexer.read_other b h, Lexer.completed_other h, all]

theorem pieces_gap {l : Lexer} (h : l.state.lexemeKind = none) :
    l.pieces = gapPieces l.seg l.anchor := by
  unfold Lexer.pieces
  simp only [h]

theorem pieces_lexeme {l : Lexer} (h : l.state.lexemeKind ≠ none) :
    l.pieces = [⟨l.seg, l.anchor⟩] := by
  unfold Lexer.pieces
  split
  · rfl
  · contradiction

@[simp] theorem all_cut (r : Reader) : r.cut.all = r.all := by
  unfold cut all Lexer.cut Lexer.cutPieces
  cases hk : r.lexer.state.lexemeKind with
  | some k => simp
  | none =>
    simp only [Option.isSome_none, Bool.false_eq_true, if_false, List.append_assoc]
    rw [pieces_gap (l := ⟨_, _, [], _⟩) hk, gapPieces_nil, List.append_nil]

/-- The state a piece that begins with the next byte is anchored at: the
state before the byte, or the gap's anchor while a gap goes on. -/
def NextAnchor (r : Reader) (c : State × List Frame) (a : State) : Prop :=
  (r.lexer.state.lexemeKind ≠ c.1.lexemeKind ∧ a = r.lexer.state) ∨
    (r.lexer.state.lexemeKind = none ∧ c.1.lexemeKind = none ∧ a = r.lexer.anchor)

/-- How the byte `b` changes the pieces so far. -/
inductive Grew (r : Reader) (b : UInt8) (c : State × List Frame) : List Piece → Prop where
  | drop (hb : isAsciiWhitespace b = true) (hc : c.1.lexemeKind = none) : Grew r b c r.all
  | next (a : State) (ha : NextAnchor r c a)
      (hb : c.1.lexemeKind = none → isAsciiWhitespace b = false) :
      Grew r b c (r.all ++ [⟨[b], a⟩])
  | more (front : List Piece) (p : Piece) (hall : r.all = front ++ [p])
      (hb : c.1.lexemeKind = none → ∃ a u, p.text = a :: u ∧
        (u = [] ∧ isTwoByteOp a b = true ∨ isIdentTail b = true)) :
      Grew r b c (front ++ [⟨p.text ++ [b], p.anchor⟩])

theorem gapPieces_singleton {b : UInt8} (h : isAsciiWhitespace b = false) (anchor : State) :
    gapPieces [b] anchor = [⟨[b], anchor⟩] := by
  have htokens : gapTokens [b] = [[b]] := by
    by_cases hid : isIdentStart b = true
    · rw [gapTokens_ident hid]
      rfl
    · rw [gapTokens_single h rfl (by simpa using hid)]
      rfl
  rw [gapPieces, htokens]
  rfl

/-- **A byte drops out, opens a new last piece or makes the last piece
longer.** -/
theorem all_byte (r : Reader) (b : UInt8) (c : State × List Frame) :
    Grew r b c (r.byte b c).all := by
  by_cases hkind : r.lexer.state.lexemeKind = c.1.lexemeKind
  · rw [byte_same b hkind, all]
    cases hc : c.1.lexemeKind with
    | some k =>
      have hk : r.lexer.state.lexemeKind ≠ none := by simp [hkind, hc]
      rw [pieces_lexeme (by simp [hc])]
      exact .more r.done ⟨r.lexer.seg, r.lexer.anchor⟩ (by rw [all, pieces_lexeme hk])
        (by simp [hc])
    | none =>
      have hk : r.lexer.state.lexemeKind = none := hkind.trans hc
      have hall : r.all = r.done ++ gapPieces r.lexer.seg r.lexer.anchor := by
        rw [all, pieces_gap hk]
      rw [pieces_gap hc]
      have hgrown := gapTokens_concat r.lexer.seg b
      generalize hqs : gapTokens (r.lexer.seg ++ [b]) = qs at hgrown
      have hpieces : gapPieces (r.lexer.seg ++ [b]) r.lexer.anchor = qs.map (⟨·, r.lexer.anchor⟩) := by
        rw [gapPieces, hqs]
      rw [hpieces]
      cases hgrown with
      | ws h =>
        have := Grew.drop (r := r) (c := c) h hc
        rwa [hall] at this
      | single h =>
        have := Grew.next (r := r) (c := c) (b := b) r.lexer.anchor (.inr ⟨hk, hc, rfl⟩) fun _ => h
        rw [hall, List.append_assoc] at this
        rwa [List.map_append]
      | op front hps h =>
        rename_i a
        have hlast : r.all = (r.done ++ front.map (⟨·, r.lexer.anchor⟩)) ++
            [⟨[a], r.lexer.anchor⟩] := by
          rw [hall, gapPieces, hps, List.map_append, List.append_assoc]
          rfl
        have := Grew.more (c := c) (b := b) _ _ hlast fun _ => ⟨_, [], rfl, .inl ⟨rfl, h⟩⟩
        rw [List.append_assoc] at this
        rwa [List.map_append]
      | ident front hps hstart h =>
        rename_i a w
        have hlast : r.all = (r.done ++ front.map (⟨·, r.lexer.anchor⟩)) ++
            [⟨a :: w, r.lexer.anchor⟩] := by
          rw [hall, gapPieces, hps, List.map_append, List.append_assoc]
          rfl
        have := Grew.more (c := c) (b := b) _ _ hlast fun _ => ⟨_, _, rfl, .inr h⟩
        rw [List.append_assoc] at this
        rwa [List.map_append]
  · have hread : r.lexer.read b c = ⟨c.1, c.2, [b], r.lexer.state⟩ := by
      rw [Lexer.read, if_neg hkind]
    have hdone : (r.byte b c).all = r.all ++ (r.lexer.read b c).pieces := by
      rw [all, byte, Lexer.completed, if_neg hkind, all]
    rw [hdone, hread]
    cases hc : c.1.lexemeKind with
    | some k =>
      rw [pieces_lexeme (by simp [hc])]
      exact .next _ (.inl ⟨hkind, rfl⟩) (by simp [hc])
    | none =>
      rw [pieces_gap hc]
      by_cases hb : isAsciiWhitespace b = true
      · have hnil : gapPieces [b] r.lexer.state = [] := by
          rw [gapPieces, gapTokens_ws hb]
          rfl
        rw [hnil, List.append_nil]
        exact .drop hb hc
      · rw [gapPieces_singleton (by simpa using hb)]
        exact .next _ (.inl ⟨hkind, rfl⟩) fun _ => by simpa using hb

/-- A byte that is always a piece of its own, whatever precedes it. -/
def Solo (b : UInt8) : Prop :=
  isAsciiWhitespace b = false ∧ isIdentTail b = false ∧ twoByteOps.all (·.2 != b) = true

instance (b : UInt8) : Decidable (Solo b) := inferInstanceAs (Decidable (_ ∧ _ ∧ _))

theorem all_byte_solo {b : UInt8} (hb : Solo b) (r : Reader) {c : State × List Frame}
    (hc : c.1.lexemeKind = none) :
    ∃ a, NextAnchor r c a ∧ (r.byte b c).all = r.all ++ [⟨[b], a⟩] := by
  have hgrew := r.all_byte b c
  generalize (r.byte b c).all = after at hgrew ⊢
  cases hgrew with
  | drop hws _ =>
    rw [hb.1] at hws
    cases hws
  | next a ha _ => exact ⟨a, ha, rfl⟩
  | more front p hall hmore =>
    obtain ⟨a, u, _, h⟩ := hmore hc
    rcases h with ⟨_, hop⟩ | htail
    · have hne := List.all_eq_true.mp hb.2.2 _ (isTwoByteOp_iff.mp hop)
      simp at hne
    · rw [hb.2.1] at htail
      cases htail

/-! ## The text of a stream -/

theorem spells_pieces (l : Lexer) : Spells (l.pieces.map Piece.text) l.seg := by
  by_cases hk : l.state.lexemeKind = none
  · rw [pieces_gap hk, gapPieces, List.map_map]
    have hid : (Piece.text ∘ fun x => (⟨x, l.anchor⟩ : Piece)) = id := rfl
    rw [hid, List.map_id]
    exact spells_gapTokens l.seg
  · rw [pieces_lexeme hk]
    exact .single l.seg

/-- What has been completed, then the segment, is the text. -/
def Spelled (w : Bytes) (r : Reader) : Prop :=
  ∃ x, w = x ++ r.lexer.seg ∧ Spells (r.done.map Piece.text) x

theorem spelled_start : Spelled [] start := ⟨[], rfl, .nil⟩

theorem Spelled.byte {w : Bytes} {r : Reader} (h : Spelled w r) (b : UInt8)
    (c : State × List Frame) : Spelled (w ++ [b]) (r.byte b c) := by
  obtain ⟨x, rfl, hx⟩ := h
  unfold Spelled Reader.byte Lexer.read Lexer.completed
  dsimp only
  split
  · exact ⟨x, by rw [List.append_assoc], by rwa [List.append_nil]⟩
  · refine ⟨x ++ r.lexer.seg, rfl, ?_⟩
    rw [List.map_append]
    exact hx.append (spells_pieces r.lexer)

theorem Spelled.cut {w : Bytes} {r : Reader} (h : Spelled w r) : Spelled w r.cut := by
  obtain ⟨x, rfl, hx⟩ := h
  unfold Spelled Reader.cut Lexer.cut Lexer.cutPieces
  dsimp only
  split
  · exact ⟨x, rfl, by rwa [List.append_nil]⟩
  · refine ⟨x ++ r.lexer.seg, (List.append_nil _).symm, ?_⟩
    rw [List.map_append]
    exact hx.append (spells_pieces r.lexer)

theorem spelled_read {syms : List Sym} {r : Reader} (h : start.read syms = some r) :
    Spelled (symBytes syms) r :=
  invariant spelled_start (fun _ _ b c hI _ => hI.byte b c) (fun _ _ hI => hI.cut) h

/-- **The pieces are the text.** -/
theorem spells_all {syms : List Sym} {r : Reader} (h : start.read syms = some r) :
    Spells (r.all.map Piece.text) (symBytes syms) := by
  obtain ⟨x, hx, hdone⟩ := spelled_read h
  rw [hx, all, List.map_append]
  exact hdone.append (spells_pieces r.lexer)

/-! ## What an anchor says about the piece before it -/

/-- The text of the last piece. -/
def lastText (ps : List Piece) : Option Bytes := ps.getLast?.map Piece.text

/-- What the pieces before a piece anchored at a state look like. -/
def Before : State → List Piece → Prop
  | .afterDollar, pre => lastText pre = some [Byte.dollar]
  | .afterDot, pre => lastText pre = some [Byte.dot]
  | .start, pre => ∀ p ∈ pre, p.anchor = .start
  | _, _ => True

/-- The gap states that only whitespace stays in. -/
def quietStates : List State := [.afterDollar, .afterDot, .expectSource]

/-- The anchors of a reader's pieces tell the truth. -/
structure Anchored (r : Reader) : Prop where
  state : Before r.lexer.state r.all
  gap : r.lexer.state.lexemeKind = none → Before r.lexer.anchor r.all
  quiet : r.lexer.state.lexemeKind = none → r.lexer.anchor ∈ quietStates →
    r.lexer.state = r.lexer.anchor
  pieces : ∀ pre p post, r.all = pre ++ p :: post → Before p.anchor pre
  source : ∀ p ∈ r.all, p.anchor = .expectSource →
    ∃ b u, p.text = b :: u ∧ isIdentStart b = true

/-- What the table of moves says about the states that `Before` and `quietStates`
speak of. -/
def anchorRow (s : State) (c : ByteClass) (s' : State) : Bool :=
  (s' != .afterDollar || c == .one Byte.dollar) &&
    (s' != .afterDot || c == .one Byte.dot || (s == .afterDot && c == .ws)) &&
    (s' != .start || (s == .start && c == .ws)) &&
    (!decide (s ∈ quietStates) || s'.lexemeKind.isSome || (s' == s && c == .ws)) &&
    (s != .expectSource || s'.lexemeKind.isNone || c == .identStart)

theorem checkEdges_anchorRow : checkEdges anchorRow = true := by decide +kernel

theorem isAsciiWhitespace_of_ws {b : UInt8} (h : isWs b = true) : isAsciiWhitespace b = true := by
  grind [isWs, isAsciiWhitespace]

/-- The facts of `anchorRow` about one move. -/
structure AnchorStep (s : State) (b : UInt8) (s' : State) : Prop where
  dollar : s' = .afterDollar → b = Byte.dollar
  dot : s' = .afterDot → b = Byte.dot ∨ (s = .afterDot ∧ isAsciiWhitespace b = true)
  start : s' = .start → s = .start ∧ isAsciiWhitespace b = true
  quiet : s ∈ quietStates → s'.lexemeKind = none → s' = s ∧ isAsciiWhitespace b = true
  source : s = .expectSource → s'.lexemeKind ≠ none → isIdentStart b = true

theorem anchorStep {s s' : State} {st st' : List Frame} {b : UInt8}
    (h : Pushdown.advance step (s, st) b = some (s', st')) : AnchorStep s b s' := by
  obtain ⟨c, hc, hrow⟩ := advance_check checkEdges_anchorRow h
  simp only [anchorRow, Bool.and_eq_true, Bool.or_eq_true, bne_iff_ne, beq_iff_eq,
    Bool.not_eq_true', decide_eq_false_iff_not, ne_eq, Option.isSome_iff_ne_none,
    Option.isNone_iff_eq_none] at hrow
  obtain ⟨⟨⟨⟨h1, h2⟩, h3⟩, h4⟩, h5⟩ := hrow
  have hws : c = .ws → isAsciiWhitespace b = true := by
    rintro rfl
    exact isAsciiWhitespace_of_ws hc
  have hone : ∀ x, c = .one x → b = x := by
    rintro x rfl
    simpa [ByteClass.has] using hc
  refine ⟨?_, ?_, ?_, ?_, ?_⟩
  · intro hs
    exact hone _ (h1.resolve_left (not_not_intro hs))
  · intro hs
    rcases h2 with (h2 | h2) | ⟨h2, hc⟩
    · exact absurd hs h2
    · exact .inl (hone _ h2)
    · exact .inr ⟨h2, hws hc⟩
  · intro hs
    obtain ⟨h3, hc⟩ := h3.resolve_left (not_not_intro hs)
    exact ⟨h3, hws hc⟩
  · intro hs hk
    rcases h4 with (h4 | h4) | ⟨h4, hc⟩
    · exact absurd hs h4
    · exact absurd hk h4
    · exact ⟨h4, hws hc⟩
  · intro hs hk
    rcases h5 with (h5 | h5) | rfl
    · exact absurd hs h5
    · exact absurd h5 hk
    · exact hc

theorem anchored_start : Anchored start where
  state := by intro p hp; cases hp
  gap := by intro _ p hp; cases hp
  quiet := by
    intro _ h
    revert h
    decide
  pieces := by
    intro pre p post h
    simp at h
  source := by intro p hp; cases hp

/-- A split of a list at its last piece, or before it. -/
theorem concat_eq_split {front pre post : List Piece} {p q : Piece}
    (h : front ++ [p] = pre ++ q :: post) :
    (front = pre ∧ p = q ∧ post = []) ∨ ∃ post', post = post' ++ [p] ∧ front = pre ++ q :: post' := by
  rcases List.eq_nil_or_concat post with rfl | ⟨post', x, rfl⟩
  · obtain ⟨h1, h2⟩ := List.append_inj' h rfl
    exact .inl ⟨h1, by simpa using h2, rfl⟩
  · have h' : front ++ [p] = (pre ++ q :: post') ++ [x] := by
      rw [h, List.concat_eq_append, List.append_assoc]
      rfl
    obtain ⟨h1, h2⟩ := List.append_inj' h' rfl
    obtain rfl : p = x := by simpa using h2
    exact .inr ⟨post', List.concat_eq_append, h1⟩

/-- What an anchor says holds of the anchor of a piece about to begin. -/
theorem Anchored.next {r : Reader} (h : Anchored r) {c : State × List Frame} {a : State}
    (ha : NextAnchor r c a) : Before a r.all := by
  rcases ha with ⟨_, rfl⟩ | ⟨hk, _, rfl⟩
  · exact h.state
  · exact h.gap hk

theorem before_lexeme {s : State} (h : s.lexemeKind ≠ none) (pre : List Piece) : Before s pre := by
  cases s <;> trivial

theorem lastText_concat (ps : List Piece) (p : Piece) : lastText (ps ++ [p]) = some p.text := by
  rw [lastText, List.getLast?_concat]
  rfl

theorem Anchored.pieces_byte {r : Reader} (h : Anchored r) {b : UInt8} {c : State × List Frame}
    {pre post : List Piece} {p : Piece} (hall : (r.byte b c).all = pre ++ p :: post) :
    Before p.anchor pre := by
  have hgrew := r.all_byte b c
  rw [hall] at hgrew
  generalize hafter : pre ++ p :: post = after at hgrew
  cases hgrew with
  | drop _ _ => exact h.pieces pre p post hafter.symm
  | next a ha _ =>
    rcases concat_eq_split hafter.symm with ⟨rfl, rfl, _⟩ | ⟨post', _, hsplit⟩
    · exact h.next ha
    · exact h.pieces pre p post' hsplit
  | more front q hq _ =>
    rcases concat_eq_split hafter.symm with ⟨rfl, rfl, _⟩ | ⟨post', _, hsplit⟩
    · exact h.pieces front q [] hq
    · exact h.pieces pre p (post' ++ [q]) (by rw [hq, hsplit, List.append_assoc]; rfl)

/-- Whitespace in a gap is dropped. -/
theorem all_byte_ws {b : UInt8} (hb : isAsciiWhitespace b = true) (r : Reader)
    {c : State × List Frame} (hc : c.1.lexemeKind = none) : (r.byte b c).all = r.all := by
  have hops : twoByteOps.all (fun op => !isAsciiWhitespace op.2) = true := by decide
  have hgrew := r.all_byte b c
  generalize (r.byte b c).all = after at hgrew ⊢
  cases hgrew with
  | drop _ _ => rfl
  | next a _ hnot =>
    rw [hnot hc] at hb
    cases hb
  | more front p _ hmore =>
    obtain ⟨a, u, _, h⟩ := hmore hc
    rcases h with ⟨_, hab⟩ | htail
    · have hnot := List.all_eq_true.mp hops _ (isTwoByteOp_iff.mp hab)
      simp [hb] at hnot
    · rw [isAsciiWhitespace_of_tail htail] at hb
      cases hb

theorem Anchored.state_byte {r : Reader} (h : Anchored r) {b : UInt8} {c : State × List Frame}
    (hstep : AnchorStep r.lexer.state b c.1) : Before c.1 (r.byte b c).all := by
  have hsolo : Solo Byte.dollar ∧ Solo Byte.dot := by decide
  cases hc : c.1 with
  | afterDollar =>
    obtain rfl := hstep.dollar hc
    obtain ⟨a, _, hall⟩ := all_byte_solo hsolo.1 r (c := c) (by rw [hc]; rfl)
    rw [hall]
    exact lastText_concat ..
  | afterDot =>
    rcases hstep.dot hc with rfl | ⟨hs, hws⟩
    · obtain ⟨a, _, hall⟩ := all_byte_solo hsolo.2 r (c := c) (by rw [hc]; rfl)
      rw [hall]
      exact lastText_concat ..
    · rw [all_byte_ws hws r (by rw [hc]; rfl), ← hs]
      exact h.state
  | start =>
    obtain ⟨hs, hws⟩ := hstep.start hc
    rw [all_byte_ws hws r (by rw [hc]; rfl), ← hs]
    exact h.state
  | _ => trivial

/-- While a gap goes on, what its anchor says stays true. -/
theorem Anchored.gap_byte {r : Reader} (h : Anchored r) {b : UInt8} {c : State × List Frame}
    (hstep : AnchorStep r.lexer.state b c.1) (hk : r.lexer.state.lexemeKind = none)
    (hc : c.1.lexemeKind = none) : Before r.lexer.anchor (r.byte b c).all := by
  have hstay : r.lexer.anchor ∈ quietStates → (r.byte b c).all = r.all := by
    intro hq
    have hs := h.quiet hk hq
    exact all_byte_ws (hstep.quiet (hs ▸ hq) hc).2 r hc
  have hgap := h.gap hk
  cases ha : r.lexer.anchor with
  | afterDollar =>
    rw [hstay (by rw [ha]; decide), ← ha]
    exact hgap
  | afterDot =>
    rw [hstay (by rw [ha]; decide), ← ha]
    exact hgap
  | start =>
    rw [ha] at hgap
    have hgrew := r.all_byte b c
    generalize (r.byte b c).all = after at hgrew ⊢
    cases hgrew with
    | drop _ _ => exact hgap
    | next a hnext _ =>
      intro p hp
      rcases List.mem_append.mp hp with hp | hp
      · exact hgap p hp
      · rcases hnext with ⟨hne, _⟩ | ⟨_, _, rfl⟩
        · exact absurd (hk.trans hc.symm) hne
        · rw [List.mem_singleton.mp hp]
          exact ha
    | more front q hq _ =>
      intro p hp
      rcases List.mem_append.mp hp with hp | hp
      · exact hgap p (by rw [hq]; exact List.mem_append_left _ hp)
      · rw [List.mem_singleton.mp hp]
        exact hgap q (by rw [hq]; simp)
  | _ => trivial

theorem Anchored.source_byte {r : Reader} (h : Anchored r) {b : UInt8} {c : State × List Frame}
    (hstep : AnchorStep r.lexer.state b c.1) {p : Piece} (hp : p ∈ (r.byte b c).all)
    (ha : p.anchor = .expectSource) : ∃ b u, p.text = b :: u ∧ isIdentStart b = true := by
  have hgrew := r.all_byte b c
  generalize (r.byte b c).all = after at hgrew hp
  cases hgrew with
  | drop _ _ => exact h.source p hp ha
  | next a hnext hnot =>
    rcases List.mem_append.mp hp with hp | hp
    · exact h.source p hp ha
    · obtain rfl := List.mem_singleton.mp hp
      dsimp only at ha
      subst ha
      rcases hnext with ⟨hne, hs⟩ | ⟨hk, hc, hs⟩
      · refine ⟨b, [], rfl, hstep.source hs.symm ?_⟩
        rw [← hs] at hne
        exact hne.symm
      · -- a gap at a source position holds only whitespace
        have hq : r.lexer.anchor ∈ quietStates := by rw [← hs]; decide
        have hws := (hstep.quiet (h.quiet hk hq ▸ hq) hc).2
        rw [hnot hc] at hws
        cases hws
  | more front q hq _ =>
    rcases List.mem_append.mp hp with hp | hp
    · exact h.source p (by rw [hq]; exact List.mem_append_left _ hp) ha
    · obtain rfl := List.mem_singleton.mp hp
      obtain ⟨x, u, htext, hx⟩ := h.source q (by rw [hq]; simp) ha
      exact ⟨x, u ++ [b], by rw [htext]; rfl, hx⟩

theorem Anchored.byte {r : Reader} (h : Anchored r) {b : UInt8} {c : State × List Frame}
    (hadv : Pushdown.advance step (r.lexer.state, r.lexer.stack) b = some c) :
    Anchored (r.byte b c) := by
  have hstep : AnchorStep r.lexer.state b c.1 := @anchorStep _ _ _ c.2 _ hadv
  have hstate : (r.byte b c).lexer.state = c.1 := Lexer.state_read ..
  -- a gap goes on under its anchor, or begins at a lexeme state
  have hgap : c.1.lexemeKind = none →
      (r.lexer.state.lexemeKind = none ∧ (r.byte b c).lexer.anchor = r.lexer.anchor) ∨
        (r.lexer.state.lexemeKind ≠ none ∧ (r.byte b c).lexer.anchor = r.lexer.state) := by
    intro hc
    by_cases hkind : r.lexer.state.lexemeKind = c.1.lexemeKind
    · rw [Reader.byte_same b hkind]
      exact .inl ⟨hkind.trans hc, rfl⟩
    · rw [Reader.byte_other b hkind]
      exact .inr ⟨fun hk => hkind (hk.trans hc.symm), rfl⟩
  refine ⟨?_, ?_, ?_, fun pre p post hall => h.pieces_byte hall, ?_⟩
  · rw [hstate]
    exact h.state_byte hstep
  · rw [hstate]
    intro hc
    rcases hgap hc with ⟨hk, ha⟩ | ⟨hk, ha⟩
    · rw [ha]
      exact h.gap_byte hstep hk hc
    · rw [ha]
      exact before_lexeme hk _
  · rw [hstate]
    intro hc hq
    rcases hgap hc with ⟨hk, ha⟩ | ⟨hk, ha⟩
    · rw [ha] at hq ⊢
      have hs := h.quiet hk hq
      rw [← hs] at hq ⊢
      exact (hstep.quiet hq hc).1
    · rw [ha] at hq
      have hnone : ∀ s ∈ quietStates, s.lexemeKind = none := by decide +kernel
      exact absurd (hnone _ hq) hk
  · exact fun p hp ha => h.source_byte hstep hp ha

theorem Anchored.cut {r : Reader} (h : Anchored r) : Anchored r.cut := by
  have hstate : r.cut.lexer.state = r.lexer.state := congrArg Pda.state r.lexer.pda_cut
  refine ⟨?_, ?_, ?_, ?_, ?_⟩
  · rw [hstate, all_cut]
    exact h.state
  · rw [hstate, all_cut]
    intro hk
    have ha : r.cut.lexer.anchor = r.lexer.state := by
      simp [Reader.cut, Lexer.cut, hk]
    rw [ha]
    exact h.state
  · rw [hstate]
    intro hk _
    simp [Reader.cut, Lexer.cut, hk]
  · rw [all_cut]
    exact h.pieces
  · rw [all_cut]
    exact h.source

/-- **Every stream is truthfully anchored.** -/
theorem anchored_read {syms : List Sym} {r : Reader} (h : start.read syms = some r) :
    Anchored r :=
  invariant (I := fun _ r => Anchored r) anchored_start (fun _ _ _ _ hI hadv => hI.byte hadv)
    (fun _ _ hI => hI.cut) h

end Reader

/-- What the anchor of a piece of a live stream says about the pieces
before it. -/
theorem before_of_tokens {toks : List Bytes} {l : Lexer} {pre post : List Piece} {p : Piece}
    (h : Lexer.start.tokens toks = some (l, pre ++ p :: post)) : Reader.Before p.anchor pre := by
  have hanch := Reader.anchored_read (Reader.read_of_tokens h)
  refine hanch.pieces pre p (post ++ l.pieces) ?_
  rw [Reader.all, List.append_assoc]
  rfl

/-- A pipe of a live stream is no lambda pipe only at the very start. -/
theorem pipe_anchor_of_tokens {toks : List Bytes} {l : Lexer} {pre post : List Piece} {p : Piece}
    (h : Lexer.start.tokens toks = some (l, pre ++ p :: post)) (hp : p.lexeme = .pipe) :
    p.anchor ≠ .expectSource ∧ (p.anchor = .start → ∀ q ∈ pre, q.anchor = .start) := by
  constructor
  · intro ha
    have hanch := Reader.anchored_read (Reader.read_of_tokens h)
    have hmem : p ∈ Reader.all ⟨l, pre ++ p :: post⟩ := by simp [Reader.all]
    obtain ⟨b, u, htext, hb⟩ := hanch.source p hmem ha
    have hmark : (classify p.text).isMark = true := congrArg Lexeme.isMark hp
    obtain ⟨c, hc, hone⟩ := classify_mark hmark
    have hnot : ∀ c ∈ markBytes, isIdentStart c = false := by decide +kernel
    obtain ⟨rfl, _⟩ := List.cons.inj (htext.symm.trans hone)
    rw [hnot b hc] at hb
    cases hb
  · intro ha
    have hbefore := before_of_tokens h
    rw [ha] at hbefore
    exact hbefore

end PureCard
