/-
PureCard.Lockstep — the tracker keeps step with the automaton.

The tracker never reads the automaton's stack: it counts the delimiters of
the pieces it is shown, and keeps six stacks by that count. This module
says that the count and the stacks are right after every accepted token.

That the stacks are in order is a matter of one dispatch (`Stacked`). That
the depth is the number of open frames is `level_tokens`, about the pieces
alone, and so is that a closer is never dispatched at depth zero. The
buffered lexeme is the lexer's segment (`Traced`). `tracker_lockstep` puts
them together for every run of calls, below 2^32 open delimiters (the
source counts them in a `u32`).
-/
import PureCard.ByteDriven
import PureCard.Schema.Stacks

namespace PureCard

open Pushdown Scopes ScopeTracker

/-! ## The open lexeme -/

/-- After `x` no lexeme of kind `k` was open, and one has been since, all
along `seg`. -/
structure Opened (k : LexKind) (x seg : Bytes) : Prop where
  nonempty : seg ≠ []
  before : ∃ c, run step Pda.new.config x = some c ∧ c.1.lexemeKind ≠ some k
  inside : ∀ u v, seg = u ++ v → u ≠ [] →
    ∃ c, run step Pda.new.config (x ++ u) = some c ∧ c.1.lexemeKind = some k

theorem Opened.singleton {k : LexKind} {x : Bytes} {b : UInt8} {c d : State × List Frame}
    (hx : run step Pda.new.config x = some c) (hc : c.1.lexemeKind ≠ some k)
    (hb : run step Pda.new.config (x ++ [b]) = some d) (hd : d.1.lexemeKind = some k) :
    Opened k x [b] := by
  refine ⟨by simp, ⟨c, hx, hc⟩, ?_⟩
  intro u v huv hu
  obtain ⟨e, u', rfl⟩ := List.exists_cons_of_ne_nil hu
  obtain ⟨rfl, hnil⟩ := List.cons.inj huv
  obtain ⟨rfl, _⟩ := List.append_eq_nil_iff.mp hnil.symm
  exact ⟨d, hb, hd⟩

theorem Opened.concat {k : LexKind} {x seg : Bytes} (h : Opened k x seg) {b : UInt8}
    {d : State × List Frame} (hb : run step Pda.new.config (x ++ seg ++ [b]) = some d)
    (hd : d.1.lexemeKind = some k) : Opened k x (seg ++ [b]) := by
  refine ⟨by simp, h.before, ?_⟩
  intro u v huv hu
  rcases List.eq_nil_or_concat v with rfl | ⟨v', e, rfl⟩
  · rw [List.append_nil] at huv
    rw [← huv, ← List.append_assoc]
    exact ⟨d, hb, hd⟩
  · rw [List.concat_eq_append, ← List.append_assoc] at huv
    obtain ⟨hseg, _⟩ := List.append_inj' huv rfl
    exact h.inside u v' hseg hu

/-- The segment of a reader inside a lexeme is what was read of it. -/
structure Traced (w : Bytes) (r : Reader) : Prop where
  config : run step Pda.new.config w = some (r.lexer.state, r.lexer.stack)
  opened : ∀ k, r.lexer.state.lexemeKind = some k →
    ∃ x, w = x ++ r.lexer.seg ∧ Opened k x r.lexer.seg

theorem traced_start : Traced [] Reader.start := ⟨rfl, fun k hk => by cases hk⟩

theorem Traced.byte {w : Bytes} {r : Reader} (h : Traced w r) {b : UInt8} {c : State × List Frame}
    (hadv : Pushdown.advance step (r.lexer.state, r.lexer.stack) b = some c) :
    Traced (w ++ [b]) (r.byte b c) := by
  have hrun : run step Pda.new.config (w ++ [b]) = some c := by
    rw [run_concat, h.config, Option.bind_some]
    exact hadv
  by_cases hkind : r.lexer.state.lexemeKind = c.1.lexemeKind
  · rw [Reader.byte_same b hkind]
    refine ⟨hrun, ?_⟩
    intro k hk
    obtain ⟨x, rfl, hopened⟩ := h.opened k (hkind.trans hk)
    exact ⟨x, List.append_assoc .., hopened.concat hrun hk⟩
  · rw [Reader.byte_other b hkind]
    refine ⟨hrun, ?_⟩
    intro k hk
    have hk' : c.1.lexemeKind = some k := hk
    refine ⟨w, rfl, .singleton h.config ?_ hrun hk'⟩
    intro hopen
    exact hkind (hopen.trans hk'.symm)

theorem Traced.cut {w : Bytes} {r : Reader} (h : Traced w r) : Traced w r.cut := by
  cases hk : r.lexer.state.lexemeKind with
  | some k =>
    rw [Reader.cut_lexeme hk]
    exact h
  | none =>
    have hcut : r.cut.lexer = ⟨r.lexer.state, r.lexer.stack, [], r.lexer.state⟩ :=
      Lexer.cut_gap hk
    refine ⟨by rw [hcut]; exact h.config, ?_⟩
    rw [hcut]
    intro k hopen
    rw [hk] at hopen
    cases hopen

theorem traced_tokens {toks : List Bytes} {l : Lexer} {ps : List Piece}
    (h : Lexer.start.tokens toks = some (l, ps)) : Traced toks.flatten ⟨l, ps⟩ := by
  have hread := Reader.invariant (I := Traced) traced_start (fun _ _ _ _ hI hadv => hI.byte hadv)
    (fun _ _ hI => hI.cut) (Reader.read_of_tokens h)
  rwa [symBytes_symbols] at hread

/-! ## The invariant -/

/-- The tracker `t` of a stream of accepted tokens, in step with the
automaton `p`. -/
structure InStep (schema : Schema) (toks : List Bytes) (p : Pda) (t : ScopeTracker) : Prop where
  depth : t.depth = p.stack.length
  stacked : t.Stacked
  gap : p.state.lexemeKind = none → t.pending = none
  lexeme : ∀ k, p.state.lexemeKind = some k → ∃ pending x, t.pending = some pending ∧
    pending.kind = k ∧ toks.flatten = x ++ pending.buf ∧ Opened k x pending.buf
  /-- The next token the automaton accepts is walked to its end. -/
  walks : ∀ tok p', p.advanceAll tok = .ok p' → ∃ w,
    (t.beginWalk p schema).walk schema tok = .ok w ∧ (w.state, w.stack) = p'.config
  /-- Every closer was dispatched below an open delimiter. -/
  closers : ∃ l ps, Lexer.start.tokens toks = some (l, ps) ∧
    t = (ScopeTracker.new.dispatchAll ps schema).hold l ∧
    ∀ pre q post, ps = pre ++ q :: post → q.lexeme = .close →
      0 < (ScopeTracker.new.dispatchAll pre schema).depth

/-- What a run of tokens leaves is in step. -/
theorem inStep_of_drive {schema : Schema} {toks : List Bytes} {p : Pda} {t : ScopeTracker}
    (h : drive schema freshStart toks = some (p, t)) : InStep schema toks p t := by
  obtain ⟨l, ps, htoks, hsettled, rfl, rfl⟩ := pieces_of_drive h
  have hpending := pending_new ps schema
  obtain ⟨hstacked, hdepth⟩ := stacked_new.dispatchAll (level_tokens htoks) schema
  have htraced := traced_tokens htoks
  refine ⟨hdepth, hstacked.congr rfl, ?_, ?_, ?_, l, ps, htoks, rfl, ?_⟩
  · intro hk
    have hk' : l.state.lexemeKind = none := hk
    simp only [hold, hk', Option.map_none]
  · intro k hk
    have hk' : l.state.lexemeKind = some k := hk
    obtain ⟨x, hx, hopened⟩ := htraced.opened k hk'
    refine ⟨⟨k, l.seg, l.anchor, (ScopeTracker.new.dispatchAll ps schema).carriedPosition l.anchor⟩,
      x, ?_, rfl, hx, hopened⟩
    simp only [hold, hk', Option.map_some]
  · intro tok p' hadv
    obtain ⟨l', qs, hfeed⟩ := Lexer.feed_of_run (Pda.advanceAll_eq_ok.mp hadv)
    obtain ⟨w, hw, hfollows⟩ := (beginWalk_follows hpending hsettled schema).walk hpending schema hfeed
    have hend : l'.pda.config = p'.config := by
      have hrun := Lexer.feed_pda hfeed
      rw [Pda.advanceAll_eq_ok.mp hadv] at hrun
      exact (Option.some.inj hrun).symm
    refine ⟨w, hw, ?_⟩
    rw [← hend]
    cases hfollows <;> rfl
  · intro pre q post hps hclose
    have hlevel := level_tokens htoks
    rw [hps, level_append] at hlevel
    obtain ⟨m, hm, hrest⟩ := Option.bind_eq_some_iff.mp hlevel
    rw [(stacked_new.dispatchAll hm schema).2]
    cases m with
    | zero =>
      rw [level_closes_zero (by rw [Piece.nesting, hclose]; rfl)] at hrest
      cases hrest
    | succ m => exact Nat.succ_pos m

/-! ## Runs of calls -/

namespace Session

/-- The tokens accepted since the last reset, after one more call. -/
def streamStep (s : Session) (toks : List Bytes) : Call → List Bytes
  | .accept id =>
    match (s.callAcceptToken id).2 with
    | .ok () => toks ++ (Feed.token id).cut s.grammar.vocab
    | .error _ => toks
  | .reset => []
  | .mask | .shared _ => toks

/-- The tokens accepted since the last reset, after a run of calls. -/
def stream (s : Session) (toks : List Bytes) : List Call → List Bytes
  | [] => toks
  | c :: rest => (s.call c).1.stream (s.streamStep toks c) rest

theorem AfterTokens.call {s : Session} {schema : Schema} {toks : List Bytes}
    (h : s.AfterTokens schema toks) (c : Call) :
    (s.call c).1.AfterTokens schema (s.streamStep toks c) := by
  cases c with
  | accept id =>
    have hacc : s.feed (.token id) = s.callAcceptToken id := rfl
    have hrefused : ∀ e, (s.callAcceptToken id).2 = .error e → (s.callAcceptToken id).1 = s := by
      intro e
      rw [callAcceptToken_eq]
      cases s.acceptToken id with
      | ok s' => exact fun h => by cases h
      | error e' => exact fun _ => rfl
    rw [Session.call, streamStep]
    cases hres : s.callAcceptToken id with
    | mk s' out =>
      rw [hres] at hacc hrefused
      cases out with
      | ok => exact (h.feed hacc fun b hb => by cases hb).1
      | error e =>
        have hs : s' = s := hrefused e rfl
        rw [hs]
        exact h
  | mask => exact ⟨h.schema_eq, h.driven, h.offset⟩
  | reset => exact ⟨h.schema_eq, rfl, rfl⟩
  | shared state => exact ⟨h.schema_eq, h.driven, h.offset⟩

theorem AfterTokens.runCalls {s : Session} {schema : Schema} {toks : List Bytes}
    (h : s.AfterTokens schema toks) (calls : List Call) :
    (s.runCalls calls).1.AfterTokens schema (s.stream toks calls) := by
  induction calls generalizing s toks with
  | nil => exact h
  | cons c rest ih => exact ih (h.call c)

/-- **Tracker and automaton in lockstep.** After any run of calls on a
session with a schema, whatever the tokens and wherever they are cut, the
tracker is in step with the automaton: its depth is the height of the
stack, its stacks are in order, and its buffer is the lexeme the automaton
is in, with exactly the bytes accepted since that lexeme opened. The walk
of the next accepted token meets no dead byte, and no closer was met at
depth zero. -/
theorem tracker_lockstep (g : CompiledGrammar) (schema : Schema) (calls : List Call) :
    InStep schema ((build g (some schema)).stream [] calls)
      ((build g (some schema)).runCalls calls).1.pda
      ((build g (some schema)).runCalls calls).1.tracker :=
  inStep_of_drive ((afterTokens_build g schema).runCalls calls).driven

end Session

end PureCard
