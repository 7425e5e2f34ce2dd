/-
PureCard.StringColumns — strings are recorded byte for byte.

What closes as a string is `quote c` for some `c`, and what is recorded of
it is `unquote`. The automaton decides one byte late whether a quote has
closed the string; it reads the body as `quote` writes it, so a quote that
is doubled never closes it (`QuoteText`). The lexer holds the string until
that late byte, whatever the tokens are, and the late byte itself records
nothing.
-/
import PureCard.Grammar.Literals
import PureCard.OpenNames

namespace PureCard

open Pushdown ScopeTracker

/-! ## The text of a string -/

/-- A string literal may open here. -/
def Pda.OpensString (p : Pda) : Prop :=
  p.state.lexemeKind ≠ some .str ∧ p.admits [Byte.quote] = true

def doubled (c : Bytes) : Bytes := c.flatMap fun b => if b = Byte.quote then [Byte.quote, b] else [b]

theorem quote_eq (c : Bytes) : quote c = Byte.quote :: doubled c ++ [Byte.quote] := rfl

theorem doubled_concat (c : Bytes) (b : UInt8) : doubled (c ++ [b]) =
    doubled c ++ if b = Byte.quote then [Byte.quote, Byte.quote] else [b] := by
  simp only [doubled, List.flatMap_append, List.flatMap_singleton]
  split <;> simp_all

/-- What has been read of a string in its two states. -/
inductive QuoteText : State → Bytes → Prop where
  | body (c : Bytes) : QuoteText (.inStrLit false) (Byte.quote :: doubled c)
  | closed (c : Bytes) : QuoteText (.inStrLit true) (quote c)

theorem QuoteText.step {s s' : State} {w : Bytes} {b : UInt8} (hstep : LiteralStep s b s')
    (h : QuoteText s w) : QuoteText s' (w ++ [b]) := by
  cases h with
  | body c =>
    cases hstep with
    | char hb =>
      have hne : b ≠ Byte.quote := by simpa using hb
      have hbody := QuoteText.body (c ++ [b])
      rwa [doubled_concat, if_neg hne] at hbody
    | quote => exact .closed c
  | closed c =>
    cases hstep with
    | doubled =>
      have hbody := QuoteText.body (c ++ [Byte.quote])
      rw [doubled_concat, if_pos rfl] at hbody
      simpa [quote_eq] using hbody

theorem closing_of_complete {s : State} (h : s ∈ completeStates) (hk : s.lexemeKind = some .str) :
    s = .inStrLit true := by
  simp only [completeStates, numberEnd, List.mem_append, List.mem_cons, List.not_mem_nil,
    or_false] at h
  rcases h with (rfl | rfl | rfl) | rfl | rfl | rfl <;> first | rfl | cases hk

/-- A lexeme that was opened was read in its states. -/
theorem Opened.read {k : LexKind} {u x : Bytes} (h : Opened k u x) :
    ∃ c d, run PureCard.step Pda.new.config u = some c ∧ c.1.lexemeKind ≠ some k ∧
      InLexeme k c x d := by
  obtain ⟨c, hc, hk⟩ := h.before
  have hread : ∃ d, InLexeme k c x d := RunsIn.of_run fun y z hyz hy => by
    obtain ⟨e, he, hke⟩ := h.inside y z hyz hy
    rw [run_append, hc, Option.bind_some] at he
    exact ⟨e, he, hke⟩
  obtain ⟨d, hd⟩ := hread
  exact ⟨c, d, hc, hk, hd⟩

/-- **What closes as a string is quoted.** -/
theorem ClosedLexeme.quoted {u x : Bytes} {b : UInt8} (h : ClosedLexeme .str u x b) :
    x = quote (unquote x) := by
  obtain ⟨c, d, hu, hc, hread⟩ := h.opened.read
  obtain ⟨e, he, hke⟩ := h.ended
  have hd := hread.last h.opened.nonempty
  have hlit : literalOf .str = some (Phrase.ref .strlit) := rfl
  rw [run_concat, run_append, hu, Option.bind_some, hread.run_eq, Option.bind_some] at he
  have hcomplete := complete_of_leaves he hlit hd hke
  obtain ⟨a, v, rfl⟩ := List.exists_cons_of_ne_nil h.opened.nonempty
  cases hread with
  | @cons _ c' _ _ _ hfirst hk hrest =>
    have hstart : QuoteText c'.1 [a] := by
      have hlf := literalFirst hfirst hlit hc hk
      generalize c'.1 = s at hlf hk
      cases hlf with
      | quote => exact .body []
      | _ => cases hk
    have hend : QuoteText d.1 ([a] ++ v) :=
      hrest.invariant (I := fun c w => QuoteText c.1 w)
        (fun hc hw hstep hd => hw.step (literalStep hstep hlit hc hd)) hk hstart
    rw [List.singleton_append] at hend
    rw [closing_of_complete hcomplete hd] at hend
    generalize a :: v = x at hend
    cases hend with
    | closed c => rw [unquote_quote]

/-! ## The lexer in a string -/

theorem symBytes_eq_concat {syms : List Sym} {w v : Bytes} {b : UInt8}
    (h : symBytes syms = w ++ b :: v) :
    ∃ xs ys, syms = xs ++ .byte b :: ys ∧ symBytes xs = w ∧ symBytes ys = v := by
  induction syms generalizing w with
  | nil => simp [symBytes] at h
  | cons s syms ih =>
    cases s with
    | cut =>
      obtain ⟨xs, ys, rfl, hxs, hys⟩ := ih h
      exact ⟨.cut :: xs, ys, rfl, hxs, hys⟩
    | byte a =>
      have hcons : a :: symBytes syms = w ++ b :: v := h
      cases w with
      | nil =>
        obtain ⟨rfl, hv⟩ := List.cons.inj hcons
        exact ⟨[], syms, rfl, rfl, hv⟩
      | cons a' w =>
        obtain ⟨rfl, hrest⟩ := List.cons.inj hcons
        obtain ⟨xs, ys, rfl, hxs, hys⟩ := ih hrest
        exact ⟨.byte a :: xs, ys, rfl, congrArg (a :: ·) hxs, hys⟩

namespace Reader

/-- A cut inside a lexeme, or at an empty gap, is no cut. -/
theorem cut_eq {r : Reader} (h : r.lexer.state.lexemeKind ≠ none ∨ r.lexer.seg = [] ∧
    r.lexer.anchor = r.lexer.state) : r.cut = r := by
  obtain ⟨⟨s, st, seg, anchor⟩, done⟩ := r
  cases hk : s.lexemeKind with
  | some k => simp [cut, Lexer.cut, Lexer.cutPieces, hk]
  | none =>
    obtain ⟨rfl, rfl⟩ : seg = [] ∧ anchor = s := h.resolve_left (by simp [hk])
    simp [cut, Lexer.cut, Lexer.cutPieces, Lexer.pieces, hk]

/-- Inside a lexeme the segment grows, however the bytes are cut. -/
theorem read_inside {r : Reader} {k : LexKind} (hk : r.lexer.state.lexemeKind = some k)
    {syms : List Sym} {d : State × List Frame}
    (h : InLexeme k (r.lexer.state, r.lexer.stack) (symBytes syms) d) :
    r.read syms = some ⟨⟨d.1, d.2, r.lexer.seg ++ symBytes syms, r.lexer.anchor⟩, r.done⟩ := by
  induction syms generalizing r with
  | nil =>
    cases h
    simp [read, symBytes]
  | cons s syms ih =>
    cases s with
    | cut =>
      rw [read, cut_eq (.inl (by simp [hk]))]
      exact ih hk h
    | byte b =>
      have hbytes : symBytes (.byte b :: syms) = b :: symBytes syms := rfl
      rw [hbytes] at h ⊢
      cases h with
      | @cons _ c _ _ _ hstep hc hrest =>
        have hbyte : r.byte b c = ⟨⟨c.1, c.2, r.lexer.seg ++ [b], r.lexer.anchor⟩, r.done⟩ := by
          simp [byte, Lexer.read, Lexer.completed, hk, hc]
        rw [read, hstep]
        dsimp only
        rw [hbyte]
        have hread := @ih ⟨⟨c.1, c.2, r.lexer.seg ++ [b], r.lexer.anchor⟩, r.done⟩ hc hrest
        simpa using hread

/-- A lexeme that opens at an empty gap is the segment. -/
theorem read_opens {r : Reader} (hgap : r.lexer.state.lexemeKind = none)
    (hseg : r.lexer.seg = [] ∧ r.lexer.anchor = r.lexer.state) {k : LexKind} {syms : List Sym}
    {d : State × List Frame} (h : InLexeme k (r.lexer.state, r.lexer.stack) (symBytes syms) d)
    (hne : symBytes syms ≠ []) :
    r.read syms = some ⟨⟨d.1, d.2, symBytes syms, r.lexer.state⟩, r.done⟩ := by
  induction syms with
  | nil => exact absurd rfl hne
  | cons s syms ih =>
    cases s with
    | cut =>
      rw [read, cut_eq (.inr hseg)]
      exact ih h hne
    | byte b =>
      have hbytes : symBytes (.byte b :: syms) = b :: symBytes syms := rfl
      rw [hbytes] at h ⊢
      cases h with
      | @cons _ c _ _ _ hstep hc hrest =>
        have hbyte : r.byte b c = ⟨⟨c.1, c.2, [b], r.lexer.state⟩, r.done⟩ := by
          simp [byte, Lexer.read, Lexer.completed, Lexer.pieces, hgap, hc, hseg.1]
        rw [read, hstep]
        dsimp only
        rw [hbyte]
        exact @read_inside ⟨⟨c.1, c.2, [b], r.lexer.state⟩, r.done⟩ k hc _ _ hrest

/-- Cuts alone end a gap once. -/
theorem read_cuts {r r' : Reader} {syms : List Sym} (hsyms : symBytes syms = [])
    (h : r.read syms = some r') : r' = r ∨ r' = r.cut := by
  induction syms generalizing r with
  | nil => exact .inl (Option.some.inj h).symm
  | cons s syms ih =>
    cases s with
    | byte b => simp [symBytes] at hsyms
    | cut =>
      have hcut : r.cut.cut = r.cut := by
        refine cut_eq ?_
        by_cases hk : r.cut.lexer.state.lexemeKind = none
        · exact .inr (Lexer.settled_cut r.lexer hk)
        · exact .inl hk
      rcases ih hsyms h with h | h
      · exact .inr h
      · exact .inr (h.trans hcut)

end Reader

/-! ## The byte behind a string -/

/-- The bytes but white space that may come right behind a value. -/
def separators : Bytes :=
  [Byte.dash, Byte.gt, Byte.lt, Byte.eq, Byte.bang, Byte.amp, Byte.pipe, Byte.plus, Byte.star,
   Byte.slash, Byte.dot, Byte.colon, Byte.lparen, Byte.lbracket, Byte.comma, Byte.semi, Byte.rparen,
   Byte.rbracket, Byte.rbrace]

/-- The pieces that can be columns. -/
def Lexeme.mayRecord : Lexeme → Bool
  | .ident _ | .str _ => true
  | _ => false

theorem columnsOf_eq_nil {lex : Lexeme} (h : lex.mayRecord = false) (t : ScopeTracker)
    (a : State) : t.columnsOf lex a = [] := by
  cases lex <;> first | rfl | cases h

/-- A quote opens a string in a gap, and behind a string there is a gap. -/
def stringRow (s : State) (k : ByteClass) (s' : State) : Bool :=
  (s.lexemeKind == some .str || !k.has Byte.quote || (s.lexemeKind.isNone && s' == .inStrLit false))
    && (s != .inStrLit true || k == .one Byte.quote ||
      (s'.lexemeKind.isNone && (k == .ws || separators.any fun b => k == .one b)))

theorem checkEdges_stringRow : checkEdges stringRow = true := by decide +kernel

theorem opens_of_quote {s : State} {st : List Frame} {c : State × List Frame}
    (h : Pushdown.advance step (s, st) Byte.quote = some c) (hs : s.lexemeKind ≠ some .str) :
    s.lexemeKind = none ∧ c = (.inStrLit false, st) := by
  obtain ⟨k, hk, hrow⟩ := advance_check checkEdges_stringRow h
  have hopen : s.lexemeKind.isNone = true ∧ c.1 = .inStrLit false := by
    simpa [stringRow, hk, hs] using And.left (Bool.and_eq_true_iff.mp hrow)
  have hstack := (next_of_lexeme h (k := .str) (by rw [hopen.2]; rfl)).2
  exact ⟨Option.isNone_iff_eq_none.mp hopen.1, Prod.ext hopen.2 hstack⟩

/-- The byte behind a string opens a gap and records nothing. -/
theorem quiet_behind_string {st : List Frame} {b : UInt8} {c : State × List Frame}
    (h : Pushdown.advance step (.inStrLit true, st) b = some c) (hb : b ≠ Byte.quote) :
    c.1.lexemeKind = none ∧ ∀ (t : ScopeTracker) (a : State) (schema : Schema),
      (t.dispatchAll (gapPieces [b] a) schema).emittedStrings = t.emittedStrings := by
  obtain ⟨k, hk, hrow⟩ := advance_check checkEdges_stringRow h
  have hne : k ≠ .one Byte.quote := by
    rintro rfl
    exact hb (by simpa [ByteClass.has] using hk)
  have hbehind : c.1.lexemeKind.isNone = true ∧ (k = .ws ∨ ∃ b' ∈ separators, k = .one b') := by
    simpa [stringRow, hne] using And.right (Bool.and_eq_true_iff.mp hrow)
  refine ⟨Option.isNone_iff_eq_none.mp hbehind.1, fun t a schema => ?_⟩
  rcases hbehind.2 with rfl | ⟨b', hb', rfl⟩
  · rw [gapPieces, gapTokens_ws (Reader.isAsciiWhitespace_of_ws hk)]
    rfl
  · obtain rfl : b = b' := by simpa [ByteClass.has] using hk
    have hall : separators.all (fun b => !isAsciiWhitespace b && !(classify [b]).mayRecord) = true :=
      by decide +kernel
    have hplain := List.all_eq_true.mp hall b hb'
    rw [Bool.and_eq_true, Bool.not_eq_true', Bool.not_eq_true'] at hplain
    rw [Reader.gapPieces_singleton hplain.1, dispatchAll_cons, dispatchAll_nil,
      emitted_dispatchToken, columnsOf_eq_nil hplain.2, List.append_nil]

namespace Reader

theorem done_prefix {r r' : Reader} {syms : List Sym} (h : r.read syms = some r') :
    r.done <+: r'.done := by
  induction syms generalizing r with
  | nil =>
    cases h
    exact List.prefix_rfl
  | cons s syms ih =>
    cases s with
    | cut => exact (List.prefix_append _ _).trans (ih h)
    | byte b =>
      rw [read] at h
      split at h
      · cases h
      · exact (List.prefix_append _ _).trans (ih h)

/-- The byte behind a string completes it, and what that byte is itself
records nothing. -/
theorem read_closes {r r' : Reader} {b : UInt8} {c : State × List Frame} {syms : List Sym}
    (hr : r.lexer.state = .inStrLit true)
    (hstep : Pushdown.advance step (r.lexer.state, r.lexer.stack) b = some c)
    (hb : b ≠ Byte.quote) (hsyms : symBytes syms = [])
    (h : (r.byte b c).read syms = some r') :
    ∃ more, r'.done = r.done ++ ⟨r.lexer.seg, r.lexer.anchor⟩ :: more ∧
      ∀ (t : ScopeTracker) (schema : Schema),
        (t.dispatchAll more schema).emittedStrings = t.emittedStrings := by
  rw [hr] at hstep
  obtain ⟨hgap, hquiet⟩ := quiet_behind_string hstep hb
  have hbyte : r.byte b c = ⟨⟨c.1, c.2, [b], r.lexer.state⟩,
      r.done ++ [⟨r.lexer.seg, r.lexer.anchor⟩]⟩ := by
    have hk : r.lexer.state.lexemeKind = some .str := by rw [hr]; rfl
    simp [byte, Lexer.read, Lexer.completed, Lexer.pieces, hk, hgap]
  rcases read_cuts hsyms h with rfl | rfl
  · exact ⟨[], by rw [hbyte], fun t schema => rfl⟩
  · refine ⟨gapPieces [b] r.lexer.state, ?_, fun t schema => hquiet t _ schema⟩
    rw [hbyte]
    simp [cut, Lexer.cutPieces, Lexer.pieces, hgap]

end Reader

/-- A string that has closed is the last column. -/
theorem emitted_string (schema : Schema) (done : List Piece) (c : Bytes) (a : State)
    {more : List Piece} (hmore : ∀ t : ScopeTracker,
      (t.dispatchAll more schema).emittedStrings = t.emittedStrings) (t : ScopeTracker) :
    (t.dispatchAll (done ++ ⟨quote c, a⟩ :: more) schema).emittedStrings =
      (t.dispatchAll done schema).emittedStrings ++ [c] := by
  rw [dispatchAll_append, dispatchAll_cons, hmore, emitted_dispatchToken, classify_quote]
  rfl

/-- **A quoted string is recorded as its content**, however it is cut. -/
theorem string_recorded {schema : Schema} {toks : List Bytes} {p : Pda} {t : ScopeTracker}
    (h : drive schema freshStart toks = some (p, t)) (hopens : p.OpensString) (c : Bytes) :
    ∃ q, p.advanceAll (quote c) = .ok q ∧
      ∀ b, b ≠ Byte.quote → q.admits [b] = true → ∀ cut, cut.flatten = quote c ++ [b] →
        ∃ p' t', drive schema freshStart (toks ++ cut) = some (p', t') ∧
          t'.emittedColumns = t.emittedColumns ++ [c] := by
  obtain ⟨l, ps, htoks, hsettled, rfl, rfl⟩ := pieces_of_drive h
  obtain ⟨hstr, hadmits⟩ := hopens
  -- the state in front of the string, and the string
  obtain ⟨q₀, hq₀⟩ := Pda.admits_iff.mp hadmits
  have hrun₀ := Pda.advanceAll_eq_ok.mp hq₀
  rw [run_cons] at hrun₀
  obtain ⟨c₀, hstep₀, -⟩ := Option.bind_eq_some_iff.mp hrun₀
  obtain ⟨hgap, rfl⟩ := opens_of_quote hstep₀ hstr
  have hread := quote_read_of_opens c hstep₀
  refine ⟨⟨.inStrLit true, l.stack⟩, Pda.advanceAll_eq_ok.mpr hread.run_eq, ?_⟩
  intro b hb hadm cut hcut
  obtain ⟨q₁, hq₁⟩ := Pda.admits_iff.mp hadm
  have hrun₁ := Pda.advanceAll_eq_ok.mp hq₁
  -- the tokens are read
  have hpending := pending_new ps schema
  have hlive : drive schema (l.pda, (new.dispatchAll ps schema).hold l) cut ≠ none := by
    rw [ne_eq, drive_eq_none_iff, hcut, run_append]
    have hquote : run step l.pda.config (quote c) = some (.inStrLit true, l.stack) := hread.run_eq
    rw [hquote, Option.bind_some]
    intro hnone
    exact absurd (hnone.symm.trans hrun₁) (by simp)
  obtain ⟨⟨p', t'⟩, hdrive⟩ := Option.ne_none_iff_exists'.mp hlive
  obtain ⟨l', qs, hqs, hend⟩ := tokens_of_drive hpending hsettled hdrive
  obtain ⟨rfl, rfl⟩ := Prod.mk.inj hend
  refine ⟨l'.pda, _, by rw [drive_append, h, Option.bind_some, hdrive], ?_⟩
  -- symbol by symbol
  have hsyms : (⟨l, ps⟩ : Reader).read (symbols cut) = some ⟨l', ps ++ qs⟩ := by
    rw [Reader.read_symbols, hqs]
    rfl
  obtain ⟨xs, ys, hxy, hxs, hys⟩ := symBytes_eq_concat ((symBytes_symbols cut).trans hcut)
  have hopened := @Reader.read_opens ⟨l, ps⟩ hgap (hsettled hgap) .str xs _
    (by rw [hxs]; exact hread) (by rw [hxs]; simp [quote])
  rw [hxy, Reader.read_append, hopened, Option.bind_some, Reader.read] at hsyms
  split at hsyms
  · cases hsyms
  · rename_i e he
    obtain ⟨more, hdone, hmore⟩ := Reader.read_closes rfl he hb hys hsyms
    have hqs' : qs = ⟨quote c, l.state⟩ :: more := by
      rw [hxs] at hdone
      exact List.append_cancel_left hdone
    have hemit := emitted_string schema [] c l.state (fun t => hmore t schema)
      (new.dispatchAll ps schema)
    rw [List.nil_append, ← hqs'] at hemit
    exact hemit

/-- **A string that closes is the quotation of what is recorded.** -/
theorem closed_string_recorded {schema : Schema} {toks : List Bytes} {p : Pda} {t : ScopeTracker}
    (h : drive schema freshStart toks = some (p, t)) {u x v : Bytes} {b : UInt8}
    (htext : toks.flatten = u ++ x ++ b :: v) (hclosed : ClosedLexeme .str u x b) :
    x = quote (unquote x) ∧ unquote x ∈ t.emittedColumns ∧
      (v = [] → t.emittedColumns.getLast? = some (unquote x)) := by
  have hquoted := hclosed.quoted
  refine ⟨hquoted, ?_⟩
  obtain ⟨l, ps, htoks, -, rfl, rfl⟩ := pieces_of_drive h
  have hread := Reader.read_of_tokens htoks
  obtain ⟨xs, ys, hxy, hxs, hys⟩ := symBytes_eq_concat ((symBytes_symbols toks).trans htext)
  rw [hxy, Reader.read_append] at hread
  obtain ⟨r, hr, hrest⟩ := Option.bind_eq_some_iff.mp hread
  -- the segment in front of the closing byte is the string
  have htraced : Traced (u ++ x) r := hxs ▸ Reader.invariant (I := Traced) traced_start
    (fun _ _ _ _ hI hadv => hI.byte hadv) (fun _ _ hI => hI.cut) hr
  obtain ⟨d, hd, hkd⟩ := hclosed.opened.inside x [] (by simp) hclosed.opened.nonempty
  obtain rfl : d = (r.lexer.state, r.lexer.stack) := Option.some.inj (hd.symm.trans htraced.config)
  obtain ⟨u', hu', hopened⟩ := htraced.opened .str hkd
  obtain ⟨-, hseg⟩ := hclosed.opened.unique hopened hu'
  rw [Reader.read] at hrest
  split at hrest
  · cases hrest
  · rename_i c hc
    obtain ⟨e, he, hke⟩ := hclosed.ended
    rw [run_concat, htraced.config, Option.bind_some, hc] at he
    obtain rfl : c = e := Option.some.inj he
    have hlit : literalOf .str = some (Phrase.ref .strlit) := rfl
    have hstate : r.lexer.state = .inStrLit true :=
      closing_of_complete (complete_of_leaves hc hlit hkd hke) hkd
    have hb : b ≠ Byte.quote := by
      rintro rfl
      rw [hstate] at hc
      cases hc
      exact hke rfl
    have hdone : (r.byte b c).done = r.done ++ ⟨quote (unquote x), r.lexer.anchor⟩ :: [] := by
      have hkind : r.lexer.state.lexemeKind ≠ c.1.lexemeKind := fun heq => hke (heq.symm.trans hkd)
      rw [Reader.byte_other b hkind, Reader.all, Reader.pieces_lexeme (by simp [hkd]), ← hseg,
        ← hquoted]
    constructor
    · obtain ⟨later, rfl⟩ := Reader.done_prefix hrest
      have hnil (t : ScopeTracker) : (t.dispatchAll [] schema).emittedStrings = t.emittedStrings :=
        rfl
      have hemit := emitted_string schema r.done (unquote x) r.lexer.anchor hnil new
      rw [← hdone] at hemit
      have hmem : unquote x ∈ (new.dispatchAll (r.byte b c).done schema).emittedStrings := by
        rw [hemit]
        exact List.mem_append_right _ (List.mem_singleton.mpr rfl)
      have hkept := emitted_prefix_dispatchAll (new.dispatchAll (r.byte b c).done schema) later schema
      rw [← dispatchAll_append] at hkept
      exact hkept.subset hmem
    · rintro rfl
      obtain ⟨more, hps, hmore⟩ := Reader.read_closes hstate hc hb hys hrest
      have hps' : ps = r.done ++ ⟨quote (unquote x), r.lexer.anchor⟩ :: more := by
        rw [← hquoted, hseg]
        exact hps
      have hemit := emitted_string schema r.done (unquote x) r.lexer.anchor
        (fun t => hmore t schema) new
      rw [← hps'] at hemit
      show (new.dispatchAll ps schema).emittedStrings.getLast? = some (unquote x)
      rw [hemit, List.getLast?_concat]

/-- **String columns are recorded byte for byte, and nothing but quoted
strings closes.** -/
theorem strings_recorded (schema : Schema) :
    (∀ toks p t, drive schema freshStart toks = some (p, t) → p.OpensString → ∀ c,
        ∃ q, p.advanceAll (quote c) = .ok q ∧
          ∀ b, b ≠ Byte.quote → q.admits [b] = true → ∀ cut, cut.flatten = quote c ++ [b] →
            ∃ p' t', drive schema freshStart (toks ++ cut) = some (p', t') ∧
              t'.emittedColumns = t.emittedColumns ++ [c]) ∧
      (∀ toks p t, drive schema freshStart toks = some (p, t) → ∀ u x b v,
        toks.flatten = u ++ x ++ b :: v → ClosedLexeme .str u x b →
          x = quote (unquote x) ∧ unquote x ∈ t.emittedColumns ∧
            (v = [] → t.emittedColumns.getLast? = some (unquote x))) ∧
      ∀ c, unquote (quote c) = c :=
  ⟨fun _ _ _ h hopens c => string_recorded h hopens c,
    fun _ _ _ h _ _ _ _ htext hclosed => closed_string_recorded h htext hclosed, unquote_quote⟩

end PureCard
