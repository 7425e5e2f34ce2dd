/-
PureCard.ByteDriven — driving one session by bytes and by tokens.

`accept_byte` moves the automaton and the offset and leaves the scope
tracker alone; `accept_token` moves all three. Under a schema the two
therefore part ways at the first byte the tracker would have noticed, and
the masks after it are narrowed for different positions
(`byte_driven_tracker_stale`).

A byte is `Silent` when the tracker, shown it, would not change: it stands
between two lexemes and is whitespace or a mark whose handler finds nothing
to change (`silent_iff`), such as the opening `|` or an operator right
behind a literal. `mixed_lockstep` says that runs that mix tokens and
silent bytes agree with each other when their cuts do.
-/
import PureCard.Histories
import PureCard.Schema.Reading
import PureCard.Tokenization

namespace PureCard

open ScopeTracker

/-- One step of a mixed run. -/
inductive Feed where
  | byte (b : UInt8)
  | token (id : Nat)

/-- The tokens a mixed run stands for: a byte is a token of its own, EOS is
none. -/
def Feed.cut (vocab : Vocab) : Feed → List Bytes
  | .byte b => [[b]]
  | .token id => if id = vocab.eosBit then [] else [vocab.bytesOrEmpty id]

namespace Session

def feed (s : Session) : Feed → Session × Except DecodeError Unit
  | .byte b => s.callAcceptByte b
  | .token id => s.callAcceptToken id

/-- A mixed run, every step of which must be accepted. -/
def feeds (s : Session) : List Feed → Option Session
  | [] => some s
  | f :: rest =>
    match s.feed f with
    | (s, .ok ()) => s.feeds rest
    | (_, .error _) => none

/-- The tracker would not notice the byte. -/
def Silent (s : Session) (b : UInt8) : Prop :=
  ∀ schema, s.schema = some schema → s.tracker.observe [b] s.pda schema = s.tracker

/-- Every byte of a mixed run is silent where it is fed. -/
def SilentBytes (s : Session) : List Feed → Prop
  | [] => True
  | .byte b :: rest => s.Silent b ∧ (s.feed (.byte b)).1.SilentBytes rest
  | .token id :: rest => (s.feed (.token id)).1.SilentBytes rest

/-- The session is at the end of the tokens `toks` of its stream. -/
structure AfterTokens (s : Session) (schema : Schema) (toks : List Bytes) : Prop where
  schema_eq : s.schema = some schema
  driven : drive schema freshStart toks = some (s.pda, s.tracker)
  offset : s.offset = toks.flatten.length

theorem afterTokens_build (g : CompiledGrammar) (schema : Schema) :
    (build g (some schema)).AfterTokens schema [] := ⟨rfl, rfl, rfl⟩

/-- The pieces of a gap of one byte. -/
theorem gapPieces_byte (b : UInt8) (anchor : State) :
    gapPieces [b] anchor = if isAsciiWhitespace b then [] else [⟨[b], anchor⟩] := by
  rw [gapPieces]
  cases hws : isAsciiWhitespace b with
  | true =>
    rw [gapTokens_ws hws]
    rfl
  | false =>
    cases hid : isIdentStart b with
    | true =>
      rw [gapTokens_ident hid]
      rfl
    | false =>
      rw [gapTokens_single hws rfl hid]
      rfl

theorem Lexer.state_cut_read (l : Lexer) (b : UInt8) (c : State × List Frame) :
    (l.read b c).cut.state = c.1 := by
  unfold Lexer.read Lexer.cut
  split <;> dsimp only <;> split <;> rfl

/-- The buffer holds the kind and the bytes of the open lexeme. -/
theorem pending_hold (t : ScopeTracker) (l : Lexer) :
    (t.hold l).pending.map (fun p => (p.kind, p.buf)) =
      l.state.lexemeKind.map fun k => (k, l.seg) := by
  unfold hold
  cases l.state.lexemeKind <;> rfl

/-- A byte that leaves the buffer alone stands between two lexemes. -/
theorem gaps_of_pending {t u : ScopeTracker} {l : Lexer} {b : UInt8} {c : State × List Frame}
    (h : (u.hold (l.read b c).cut).pending = (t.hold l).pending) :
    l.state.lexemeKind = none ∧ c.1.lexemeKind = none := by
  have hbuffer := congrArg (Option.map fun p => (p.kind, p.buf)) h
  rw [pending_hold, pending_hold, Lexer.state_cut_read] at hbuffer
  cases hk : l.state.lexemeKind with
  | none =>
    rw [hk, Option.map_none] at hbuffer
    exact ⟨rfl, Option.map_eq_none_iff.mp hbuffer⟩
  | some k =>
    -- an open lexeme grows or ends
    rw [hk, Option.map_some] at hbuffer
    obtain ⟨k', hc, hsame⟩ := Option.map_eq_some_iff.mp hbuffer
    simp only [Prod.mk.injEq] at hsame
    obtain ⟨rfl, hseg⟩ := hsame
    simp [Lexer.read, Lexer.cut, hk, hc] at hseg

/-- **The silent bytes** stand between two lexemes, and are whitespace or
marks whose handler finds nothing to change. -/
theorem AfterTokens.silent_iff {s : Session} {schema : Schema} {toks : List Bytes}
    (h : s.AfterTokens schema toks) {b : UInt8} {c : State × List Frame}
    (hstep : Pushdown.advance step s.pda.config b = some c) :
    s.Silent b ↔ s.pda.state.lexemeKind = none ∧ c.1.lexemeKind = none ∧
      (isAsciiWhitespace b = true ∨
        s.tracker.dispatchToken [b] s.pda.state schema = s.tracker) := by
  obtain ⟨l, ps, -, hsettled, hpda, htracker⟩ := pieces_of_drive h.driven
  have hone : s.Silent b ↔ s.tracker.observe [b] s.pda schema = s.tracker := by
    refine ⟨fun hall => hall schema h.schema_eq, fun hsame schema' hschema => ?_⟩
    rw [h.schema_eq] at hschema
    cases hschema
    exact hsame
  rw [hpda] at hstep
  have hadv : Pushdown.advance step (l.state, l.stack) b = some c := hstep
  have htoken : l.token [b] =
      some ((l.read b c).cut, l.completed c ++ (l.read b c).cutPieces) := by
    rw [Lexer.token, Lexer.feed]
    simp only [hadv, Lexer.feed, List.append_nil]
  have hpending := pending_new ps schema
  have hclosed : ∀ (t : ScopeTracker) (l' : Lexer), t.pending = none →
      l'.state.lexemeKind = none → t.hold l' = t := by
    intro t l' ht hl'
    unfold hold
    rw [hl', Option.map_none]
    exact core_of_pending ht
  rw [hone, hpda, htracker, observe_eq hpending hsettled htoken]
  have hstate : l.pda.state = l.state := rfl
  rw [hstate]
  by_cases hgaps : l.state.lexemeKind = none ∧ c.1.lexemeKind = none
  · obtain ⟨hk, hc⟩ := hgaps
    obtain ⟨hseg, hanchor⟩ := hsettled hk
    have hpieces : l.completed c ++ (l.read b c).cutPieces = gapPieces [b] l.state := by
      simp [Lexer.completed, Lexer.read, Lexer.cutPieces, hk, hc, hseg, hanchor, Lexer.pieces]
    have hcut : (l.read b c).cut.state.lexemeKind = none := by rw [Lexer.state_cut_read, hc]
    rw [hclosed _ l hpending hk, hclosed _ _ (by simpa using hpending) hcut, hpieces,
      gapPieces_byte]
    cases hws : isAsciiWhitespace b <;> simp [hk, hc]
  · refine iff_of_false (fun hsame => hgaps ?_) (fun hright => hgaps ⟨hright.1, hright.2.1⟩)
    exact gaps_of_pending (congrArg ScopeTracker.pending hsame)

/-- Whitespace between tokens is silent. -/
theorem AfterTokens.silent_ws {s : Session} {schema : Schema} {toks : List Bytes}
    (h : s.AfterTokens schema toks) {b : UInt8} {c : State × List Frame}
    (hstep : Pushdown.advance step s.pda.config b = some c) (hb : isAsciiWhitespace b = true)
    (hgap : s.pda.state.lexemeKind = none) (hstay : c.1.lexemeKind = none) : s.Silent b :=
  (h.silent_iff hstep).mpr ⟨hgap, hstay, .inl hb⟩

/-- Whitespace in front of the query is a gap without a piece. -/
theorem feed_blank {tok seg : Bytes} {l : Lexer} {ps : List Piece}
    (h : (⟨.start, [], seg, .start⟩ : Lexer).feed tok = some (l, ps))
    (hws : ∀ b ∈ tok, isAsciiWhitespace b = true) :
    l = ⟨.start, [], seg ++ tok, .start⟩ ∧ ps = [] := by
  induction tok generalizing seg ps with
  | nil =>
    cases h
    exact ⟨by rw [List.append_nil], rfl⟩
  | cons b tok ih =>
    rw [Lexer.feed] at h
    split at h
    · cases h
    · rename_i c hadv
      have hmem := mem_of_blank (hws b List.mem_cons_self)
      have hc : c = (.start, []) := by
        unfold Pushdown.advance at hadv
        simp only [List.mem_cons, List.not_mem_nil, or_false] at hmem
        rcases hmem with rfl | rfl | rfl | rfl | rfl <;> cases hadv <;> rfl
      subst hc
      simp only [Lexer.read, Lexer.completed, if_true, List.nil_append] at h
      split at h
      · cases h
      · rename_i l₁ qs hrest
        cases h
        obtain ⟨hl, hqs⟩ := ih hrest fun x hx => hws x (List.mem_cons_of_mem b hx)
        exact ⟨by rw [hl, List.append_assoc]; rfl, hqs⟩

/-- It leaves the lexer where it starts. -/
theorem start_of_blank {toks : List Bytes} {l : Lexer} {ps : List Piece}
    (h : Lexer.start.tokens toks = some (l, ps))
    (hws : ∀ b ∈ toks.flatten, isAsciiWhitespace b = true) : l = Lexer.start ∧ ps = [] := by
  induction toks generalizing ps with
  | nil =>
    cases h
    exact ⟨rfl, rfl⟩
  | cons tok toks ih =>
    rw [List.flatten_cons] at hws
    have htok : ∀ b ∈ tok, isAsciiWhitespace b = true := fun b hb =>
      hws b (List.mem_append_left _ hb)
    have htoken : ∀ r, Lexer.start.token tok = some r → r = (Lexer.start, []) := by
      intro r hr
      rw [Lexer.token] at hr
      split at hr
      · cases hr
      · rename_i l₁ qs hfeed
        cases hr
        obtain ⟨rfl, rfl⟩ := feed_blank hfeed htok
        have hpieces : gapPieces ([] ++ tok) .start = [] := by
          rw [List.nil_append, gapPieces, gapTokens_blank htok]
          rfl
        exact congrArg (Prod.mk Lexer.start) hpieces
    rw [Lexer.tokens] at h
    split at h
    · cases h
    · rename_i l₁ qs hone
      cases htoken _ hone
      split at h
      · cases h
      · rename_i l₂ qs₂ hrest
        cases h
        obtain ⟨hl, hqs⟩ := ih hrest fun b hb => hws b (List.mem_append_right _ hb)
        exact ⟨hl, by rw [hqs]; rfl⟩

/-- The opening `|` is silent. -/
theorem AfterTokens.silent_opening {s : Session} {schema : Schema} {toks : List Bytes}
    (h : s.AfterTokens schema toks) (hblank : ∀ b ∈ toks.flatten, isAsciiWhitespace b = true) :
    s.Silent Byte.pipe := by
  obtain ⟨l, ps, htoks, -, hpda, htracker⟩ := pieces_of_drive h.driven
  obtain ⟨rfl, rfl⟩ := start_of_blank htoks hblank
  have hstep : Pushdown.advance step s.pda.config Byte.pipe = some (.expectSource, []) := by
    rw [hpda]
    rfl
  refine (h.silent_iff hstep).mpr ⟨by rw [hpda]; rfl, rfl, .inr ?_⟩
  rw [hpda, htracker]
  rfl

/-- Behind a piece of these kinds the tracker remembers neither a name nor
an operand that the next mark could end. -/
def forgetful : Lexeme → Bool
  | .open | .arrow | .comma | .dollar | .str _ | .number | .date | .other => true
  | _ => false

theorem dispatch_forgetful {p : Piece} (h : forgetful p.lexeme = true) (t : ScopeTracker)
    (schema : Schema) : (t.dispatchToken p.text p.anchor schema).lastIdent = none ∧
      (t.dispatchToken p.text p.anchor schema).lastResolved = none ∧
      (t.dispatchToken p.text p.anchor schema).cmpPending = none := by
  have hopen : ∀ (u : ScopeTracker) (name : Bytes),
      (u.openMethod name).lastIdent = u.lastIdent := by
    intro u name
    unfold openMethod
    dsimp only
    repeat' split
    all_goals rfl
  rw [Piece.lexeme] at h
  unfold dispatchToken
  cases hlex : classify p.text with
  | «open» =>
    refine ⟨?_, rfl, rfl⟩
    simp only [dispatchLexeme, onOpen, reduceCtorEq, if_false]
    cases t.lastIdent with
    | none => rfl
    | some name => exact hopen ..
  | ident _ | dot | cmp | pipe | close | ws =>
    rw [hlex] at h
    cases h
  | _ => exact ⟨rfl, rfl, rfl⟩

/-- A mark of no meaning to the tracker, such as `+` or `;`, is silent right
behind a literal, an opener, a comma or another such mark. -/
theorem AfterTokens.silent_other {s : Session} {schema : Schema} {toks : List Bytes}
    (h : s.AfterTokens schema toks) {l : Lexer} {ps : List Piece} {p : Piece}
    (hpieces : Lexer.start.tokens toks = some (l, ps ++ [p])) (hp : forgetful p.lexeme = true)
    {b : UInt8} {c : State × List Frame}
    (hstep : Pushdown.advance step s.pda.config b = some c) (hb : classify [b] = .other)
    (hgap : s.pda.state.lexemeKind = none) (hstay : c.1.lexemeKind = none) : s.Silent b := by
  refine (h.silent_iff hstep).mpr ⟨hgap, hstay, .inr ?_⟩
  obtain ⟨l', qs, htoks, -, hpda, htracker⟩ := pieces_of_drive h.driven
  rw [hpieces] at htoks
  cases htoks
  have hclosed : s.tracker = new.dispatchAll (ps ++ [p]) schema := by
    have hnone : l.state.lexemeKind = none := by rwa [hpda] at hgap
    rw [htracker, hold, hnone, Option.map_none]
    exact core_of_pending (pending_new _ schema)
  rw [dispatchAll_append, dispatchAll_cons, dispatchAll_nil] at hclosed
  obtain ⟨hident, hresolved, hcmp⟩ := dispatch_forgetful hp (new.dispatchAll ps schema) schema
  rw [← hclosed] at hident hresolved hcmp
  rw [dispatchToken, hb]
  simp only [dispatchLexeme, reduceCtorEq, if_false]
  generalize s.tracker = t at hident hresolved hcmp ⊢
  cases t
  cases hident
  cases hresolved
  cases hcmp
  rfl

/-- Committing a token is the next token of the stream. -/
theorem AfterTokens.commit {s : Session} {schema : Schema} {toks : List Bytes}
    (h : s.AfterTokens schema toks) {bytes : Bytes} {p : Pda}
    (hp : s.pda.advanceAll bytes = .ok p) : (s.commit bytes p).AfterTokens schema (toks ++ [bytes]) := by
  refine ⟨h.schema_eq, ?_, ?_⟩
  · have hdrive : drive schema (s.pda, s.tracker) [bytes] =
        some (p, s.tracker.observe bytes s.pda schema) := by
      simp only [drive, feedToken, hp]
    have htracker : (s.commit bytes p).tracker = s.tracker.observe bytes s.pda schema := by
      simp only [Session.commit, h.schema_eq]
    rw [drive_append, h.driven, Option.bind_some, hdrive, htracker]
    rfl
  · have hoffset : (s.commit bytes p).offset = s.offset + bytes.length := rfl
    rw [hoffset, h.offset]
    simp

/-- One step of a mixed run, its byte silent. -/
theorem AfterTokens.feed {s s' : Session} {schema : Schema} {toks : List Bytes}
    (h : s.AfterTokens schema toks) {f : Feed} (hf : s.feed f = (s', .ok ()))
    (hsilent : ∀ b, f = .byte b → s.Silent b) :
    s'.AfterTokens schema (toks ++ f.cut s.grammar.vocab) ∧ s'.grammar = s.grammar := by
  cases f with
  | byte b =>
    rw [Session.feed, callAcceptByte_eq, acceptByte] at hf
    cases hadv : s.pda.advance b with
    | error dead =>
      rw [hadv] at hf
      cases hf
    | ok p =>
      rw [hadv] at hf
      cases hf
      have hall : s.pda.advanceAll [b] = .ok p := by
        rw [Pda.advanceAll, hadv]
        rfl
      have hcommit := h.commit hall
      have hsame : s.commit [b] p = { s with pda := p, offset := s.offset + 1 } := by
        have htracker : (s.commit [b] p).tracker = s.tracker := by
          simp only [Session.commit, h.schema_eq]
          exact hsilent b rfl schema h.schema_eq
        unfold Session.commit at htracker ⊢
        dsimp only at htracker
        rw [htracker]
        rfl
      exact ⟨hsame ▸ hcommit, rfl⟩
  | token id =>
    rw [Session.feed, callAcceptToken_eq] at hf
    cases hacc : s.acceptToken id with
    | error e =>
      rw [hacc] at hf
      cases hf
    | ok s₁ =>
      rw [hacc] at hf
      cases hf
      unfold acceptToken at hacc
      rw [Feed.cut]
      by_cases heos : id = s.grammar.eosBit
      · have heos' : id = s.grammar.vocab.eosBit := heos
        rw [if_pos heos] at hacc
        rw [if_pos heos', List.append_nil]
        split at hacc
        · cases hacc
          exact ⟨h, rfl⟩
        · cases hacc
      · have heos' : id ≠ s.grammar.vocab.eosBit := heos
        rw [if_neg heos] at hacc
        rw [if_neg heos']
        cases hbytes : s.grammar.vocab.bytes id with
        | none =>
          rw [hbytes] at hacc
          cases hacc
        | some bytes =>
          rw [hbytes] at hacc
          dsimp only at hacc
          have hempty : s.grammar.vocab.bytesOrEmpty id = bytes := by
            rw [Vocab.bytesOrEmpty, hbytes]
            rfl
          rw [hempty]
          cases hadv : s.pda.advanceAll bytes with
          | error dead =>
            rw [hadv] at hacc
            cases hacc
          | ok p =>
            rw [hadv] at hacc
            cases hacc
            exact ⟨h.commit hadv, rfl⟩

theorem AfterTokens.feeds {s s' : Session} {schema : Schema} {toks : List Bytes}
    (h : s.AfterTokens schema toks) {fs : List Feed} (hfs : s.feeds fs = some s')
    (hsilent : s.SilentBytes fs) :
    s'.AfterTokens schema (toks ++ fs.flatMap (Feed.cut s.grammar.vocab)) ∧
      s'.grammar = s.grammar := by
  induction fs generalizing s toks with
  | nil =>
    cases hfs
    exact ⟨by rwa [List.flatMap_nil, List.append_nil], rfl⟩
  | cons f rest ih =>
    rw [Session.feeds] at hfs
    cases hf : s.feed f with
    | mk s₁ out =>
      rw [hf] at hfs
      cases out with
      | error e => cases hfs
      | ok =>
        have hbyte : ∀ b, f = .byte b → s.Silent b := by
          rintro b rfl
          exact hsilent.1
        have hrest : s₁.SilentBytes rest := by
          cases f with
          | byte b =>
            have := hsilent.2
            rwa [hf] at this
          | token id =>
            have hall : (s.feed (.token id)).1.SilentBytes rest := hsilent
            rwa [hf] at hall
        obtain ⟨hafter, hgrammar⟩ := h.feed hf hbyte
        obtain ⟨hend, hgrammar'⟩ := ih hafter hfs hrest
        rw [hgrammar] at hend
        rw [List.flatMap_cons, ← List.append_assoc]
        exact ⟨hend, hgrammar'.trans hgrammar⟩

theorem memoValid_feeds {s s' : Session} (h : s.MemoValid) {fs : List Feed}
    (hfs : s.feeds fs = some s') : s'.MemoValid := by
  induction fs generalizing s with
  | nil =>
    cases hfs
    exact h
  | cons f rest ih =>
    rw [feeds] at hfs
    have hnext : (s.feed f).1.MemoValid := by
      cases f with
      | byte b =>
        rw [feed, callAcceptByte_eq, acceptByte]
        cases s.pda.advance b with
        | ok p => exact h
        | error dead => exact h
      | token id => exact h.callAcceptToken id
    cases hf : s.feed f with
    | mk s₁ out =>
      rw [hf] at hfs hnext
      cases out with
      | ok => exact ih hnext hfs
      | error e => cases hfs

/-- **Bytes and tokens stay in lockstep while the bytes are silent.** Two
runs over one grammar and schema that mix tokens and silent bytes, and cut
their stream alike up to harmless boundaries, end at the same automaton
and offset, with the same mask. -/
theorem mixed_lockstep {g : CompiledGrammar} {schema : Schema} {fs fs' : List Feed}
    {s s' : Session} (hfs : (build g (some schema)).feeds fs = some s)
    (hfs' : (build g (some schema)).feeds fs' = some s')
    (hsilent : (build g (some schema)).SilentBytes fs)
    (hsilent' : (build g (some schema)).SilentBytes fs')
    (hcut : Recut (fs.flatMap (Feed.cut g.vocab)) (fs'.flatMap (Feed.cut g.vocab))) :
    s.pda = s'.pda ∧ s.offset = s'.offset ∧ ∀ id, s.allows id = s'.allows id := by
  obtain ⟨h, hg⟩ := (afterTokens_build g schema).feeds hfs hsilent
  obtain ⟨h', hg'⟩ := (afterTokens_build g schema).feeds hfs' hsilent'
  rw [List.nil_append] at h h'
  have hsame : drive schema freshStart (fs.flatMap (Feed.cut g.vocab)) =
      drive schema freshStart (fs'.flatMap (Feed.cut g.vocab)) := by
    have := drive_recut hcut schema []
    rwa [List.append_nil, List.append_nil] at this
  have hgrammar : (build g (some schema)).grammar = g := rfl
  rw [hgrammar] at h h'
  have hend := h.driven.symm.trans (hsame.trans h'.driven)
  simp only [Option.some.injEq, Prod.mk.injEq] at hend
  have hflat := recut_flatten hcut
  have hoffset : s.offset = s'.offset := by rw [h.offset, h'.offset, hflat]
  have hagree : s.Agree s' :=
    ⟨hend.1, hoffset, by rw [hg, hg'], h.schema_eq.trans h'.schema_eq.symm, hend.2⟩
  exact ⟨hend.1, hoffset, fun id => hagree.allows (memoValid_feeds (memoValid_build g _) hfs)
    (memoValid_feeds (memoValid_build g _) hfs') id⟩

/-! ### Two streams -/

/-- A stream in one token, a name no class has, and the stream's front in
two tokens. -/
def byteVocab : Vocab :=
  ⟨[ascii "|A.all()->filter(x|$x.", ascii "zzz", ascii "|A.all()", ascii "|A.all() "], 4⟩

/-- The blank after `|A.all()`, fed as a byte or inside the token. -/
theorem mixed_lockstep_blank : ∃ s s',
    (build (.compile byteVocab) (some .sample)).feeds [.token 2, .byte Byte.space] = some s ∧
    (build (.compile byteVocab) (some .sample)).feeds [.token 3] = some s' ∧
    s.pda = s'.pda ∧ s.offset = s'.offset ∧ ∀ id, s.allows id = s'.allows id := by
  obtain ⟨s, hs⟩ := Option.isSome_iff_exists.mp (show ((build (.compile byteVocab)
    (some .sample)).feeds [.token 2, .byte Byte.space]).isSome = true by decide +kernel)
  obtain ⟨s', hs'⟩ := Option.isSome_iff_exists.mp (show ((build (.compile byteVocab)
    (some .sample)).feeds [.token 3]).isSome = true by decide +kernel)
  have hsilent : (build (.compile byteVocab) (some .sample)).SilentBytes
      [.token 2, .byte Byte.space] := by
    have hfeed : (build (.compile byteVocab) (some .sample)).feed (.token 2) =
        (((build (.compile byteVocab) (some .sample)).feed (.token 2)).1, .ok ()) :=
      Prod.ext rfl (by decide +kernel)
    obtain ⟨hafter, -⟩ := (afterTokens_build (.compile byteVocab) .sample).feed hfeed
      fun b hb => by cases hb
    exact ⟨hafter.silent_ws (c := (.afterValue, [])) (by decide +kernel) (by decide)
      (by decide +kernel) (by decide), trivial⟩
  have hfeed : ((Lexer.start.feed (ascii "|A.all()")).map fun r => (r.1.state, r.1.stack, r.1.seg)) =
      some (.afterValue, [], ascii "()") := by decide +kernel
  obtain ⟨⟨l, ps⟩, hu, hl⟩ := Option.map_eq_some_iff.mp hfeed
  simp only [Prod.mk.injEq] at hl
  have hcut : HarmlessCut l [Byte.space] := by
    unfold HarmlessCut
    rw [hl.1, hl.2.1, hl.2.2]
    have hgap : leadingGap (.afterValue, []) [Byte.space] = [Byte.space] := by decide
    have hempty : gapTokens [Byte.space] = [] := by decide
    rw [hgap, hempty]
    exact .inr ⟨.append (by decide), by simp⟩
  have hrecut : Recut ([Feed.token 2, .byte Byte.space].flatMap
      (Feed.cut (CompiledGrammar.compile byteVocab).vocab))
      ([Feed.token 3].flatMap (Feed.cut (CompiledGrammar.compile byteVocab).vocab)) :=
    .rel _ _ (@HarmlessMerge.mk [] _ _ [] Lexer.start l [] ps rfl hu hcut)
  exact ⟨s, s', hs, hs', mixed_lockstep hs hs' hsilent trivial hrecut⟩

/-- After `|A.all()->filter(x|$x.` the session driven by tokens masks the
name `zzz`, the one driven by bytes does not. -/
theorem byte_driven_tracker_stale : ∃ s s',
    (build (.compile byteVocab) (some .sample)).feeds
      ((ascii "|A.all()->filter(x|$x.").map .byte) = some s ∧
    (build (.compile byteVocab) (some .sample)).feeds [.token 0] = some s' ∧
    s.pda = s'.pda ∧ s.offset = s'.offset ∧ s.allows 1 = true ∧ s'.allows 1 = false := by
  have hbytes : ((build (.compile byteVocab) (some .sample)).feeds
      ((ascii "|A.all()->filter(x|$x.").map .byte)).map
        (fun s => (s.pda, s.offset, s.allows 1)) =
      some (⟨.afterDot, [.paren]⟩, 22, true) := by
    decide +kernel
  have htokens : ((build (.compile byteVocab) (some .sample)).feeds [.token 0]).map
        (fun s => (s.pda, s.offset, s.allows 1)) = some (⟨.afterDot, [.paren]⟩, 22, false) := by
    decide +kernel
  obtain ⟨s, hs, hs₁⟩ := Option.map_eq_some_iff.mp hbytes
  obtain ⟨s', hs', hs'₁⟩ := Option.map_eq_some_iff.mp htokens
  simp only [Prod.mk.injEq] at hs₁ hs'₁
  exact ⟨s, s', hs, hs', hs₁.1.trans hs'₁.1.symm, hs₁.2.1.trans hs'₁.2.1.symm, hs₁.2.2, hs'₁.2.2⟩

end Session

end PureCard
