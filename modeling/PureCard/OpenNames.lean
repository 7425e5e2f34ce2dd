/-
PureCard.OpenNames — a name in flight.

While a lexeme is open the automaton leaves its stack alone and the lexer
only makes its segment longer: the pieces, and with them the tracker, stay
as they were (`token_inside`). So a name that is cut into tokens is seen
whole, and the mask before each of its tokens comes from one rule, the one
its first byte found (`position_flying`), and from the bytes so far.

The readings at the end say that every name of a position is one lexeme
there.
-/
import PureCard.OpeningTokens
import PureCard.ColumnUniverse
import PureCard.SourceBinding

namespace PureCard

open Pushdown Completion ScopeTracker

/-! ## The lexeme in flight -/

namespace Lexer

/-- The segment of a lexeme was read from the anchor on. -/
structure Flying (l : Lexer) (k : LexKind) : Prop where
  nonempty : l.seg ≠ []
  read : InLexeme k (l.anchor, l.stack) l.seg (l.state, l.stack)

theorem flying_of_tokens {toks : List Bytes} {l : Lexer} {ps : List Piece}
    (h : Lexer.start.tokens toks = some (l, ps)) {k : LexKind} (hk : l.state.lexemeKind = some k) :
    l.Flying k := by
  refine Reader.lexeme_invariant (I := fun l => l.Flying k) ?_ ?_ h hk
  · intro l b c hadv _ hc
    have hst := (next_of_lexeme hadv hc).2
    obtain ⟨s, st⟩ := c
    cases hst
    exact ⟨by simp, .cons hadv hc (.nil _)⟩
  · intro l b c hadv _ hc hflying
    have hst := (next_of_lexeme hadv hc).2
    obtain ⟨s, st⟩ := c
    cases hst
    exact ⟨by simp, hflying.read.concat hadv hc⟩

/-- A token that stays inside the lexeme in flight makes it longer. -/
theorem feed_inside {l : Lexer} {k : LexKind} (hk : l.state.lexemeKind = some k) {w : Bytes}
    {d : State × List Frame} (h : InLexeme k (l.state, l.stack) w d) :
    l.feed w = some (⟨d.1, d.2, l.seg ++ w, l.anchor⟩, []) := by
  generalize hc : (l.state, l.stack) = c at h
  induction h generalizing l with
  | nil c =>
    subst hc
    simp [feed]
  | @cons c d e b w hstep hd hrest ih =>
    subst hc
    have hkinds : l.state.lexemeKind = d.1.lexemeKind := hk.trans hd.symm
    have hfeed := ih (l := ⟨d.1, d.2, l.seg ++ [b], l.anchor⟩) hd rfl
    rw [feed, hstep]
    dsimp only
    rw [read_same b hkinds, hfeed, completed_same hkinds]
    simp

theorem token_inside {l : Lexer} {k : LexKind} (hk : l.state.lexemeKind = some k) {w : Bytes}
    {d : State × List Frame} (h : InLexeme k (l.state, l.stack) w d) (hd : d.1.lexemeKind = some k) :
    l.token w = some (⟨d.1, d.2, l.seg ++ w, l.anchor⟩, []) := by
  rw [token, feed_inside hk h]
  simp [cut, cutPieces, hd]

/-- A token that is the front of a lexeme opens it. -/
theorem token_opens {l : Lexer} (hsettled : l.Settled) (hgap : l.state.lexemeKind = none)
    {k : LexKind} {w : Bytes} (hw : w ≠ []) {d : State × List Frame}
    (h : InLexeme k (l.state, l.stack) w d) :
    l.token w = some (⟨d.1, d.2, w, l.state⟩, []) := by
  have hlast := h.last hw
  obtain ⟨b, w, rfl⟩ := List.exists_cons_of_ne_nil hw
  cases h with
  | @cons _ c _ _ _ hstep hc hrest =>
    have hne : l.state.lexemeKind ≠ c.1.lexemeKind := by simp [hgap, hc]
    have hdone : l.completed c = [] := by
      rw [completed_other hne, pieces, hgap, (hsettled hgap).1]
      rfl
    have hfeed := feed_inside (l := ⟨c.1, c.2, [b], l.state⟩) hc hrest
    rw [token, feed, hstep]
    dsimp only
    rw [read_other b hne, hfeed, hdone]
    simp [cut, cutPieces, hlast]

/-- One token more. -/
theorem tokens_concat {l l' l'' : Lexer} {toks : List Bytes} {ps qs : List Piece}
    (h : l.tokens toks = some (l', ps)) {tok : Bytes} (htok : l'.token tok = some (l'', qs)) :
    l.tokens (toks ++ [tok]) = some (l'', ps ++ qs) := by
  induction toks generalizing l ps with
  | nil =>
    simp only [tokens, Option.some.injEq, Prod.mk.injEq] at h
    obtain ⟨rfl, rfl⟩ := h
    simp [tokens, htok]
  | cons t toks ih =>
    rw [tokens] at h
    split at h
    · cases h
    · rename_i l₁ ps₁ h₁
      split at h
      · cases h
      · rename_i l₂ ps₂ h₂
        cases h
        rw [List.cons_append, tokens, h₁]
        simp [ih h₂]

end Lexer

/-! ## Members and sources in flight -/

/-- The states inside a member behind its dot. -/
def memberStates : List State := [.inIdent, .inStrLit false, .inStrLit true]

/-- A member and a source path keep to their states. -/
def flightRow (s : State) (_ : ByteClass) (s' : State) : Bool :=
  (s != .afterDot || s'.lexemeKind.isNone || decide (s' ∈ memberStates)) &&
    (!decide (s ∈ sourceStates) || s'.lexemeKind.isNone || s' == .inSourceIdent) &&
    (!decide (s ∈ memberStates) || s'.lexemeKind != s.lexemeKind || decide (s' ∈ memberStates)) &&
    (!decide (s ∈ sourcePathStates) || s'.lexemeKind != s.lexemeKind ||
      decide (s' ∈ sourcePathStates))

theorem checkEdges_flightRow : checkEdges flightRow = true := by decide +kernel

structure FlightStep (s s' : State) : Prop where
  member : s = .afterDot → s'.lexemeKind ≠ none → s' ∈ memberStates
  source : s ∈ sourceStates → s'.lexemeKind ≠ none → s' = .inSourceIdent
  inMember : s ∈ memberStates → s'.lexemeKind = s.lexemeKind → s' ∈ memberStates
  inSource : s ∈ sourcePathStates → s'.lexemeKind = s.lexemeKind → s' ∈ sourcePathStates

theorem flightStep {s : State} {st : List Frame} {b : UInt8} {c : State × List Frame}
    (h : Pushdown.advance step (s, st) b = some c) : FlightStep s c.1 := by
  obtain ⟨_, _, hrow⟩ := advance_check checkEdges_flightRow h
  simp only [flightRow, Bool.and_eq_true, Bool.or_eq_true, bne_iff_ne, beq_iff_eq,
    Bool.not_eq_true', decide_eq_false_iff_not, decide_eq_true_eq, ne_eq,
    Option.isNone_iff_eq_none] at hrow
  obtain ⟨⟨⟨h1, h2⟩, h3⟩, h4⟩ := hrow
  exact ⟨by tauto, by tauto, by tauto, by tauto⟩

/-- Behind a dot a member is in flight. -/
theorem Lexer.Flying.member {l : Lexer} {k : LexKind} (h : l.Flying k) (ha : l.anchor = .afterDot) :
    l.state ∈ memberStates := by
  have hclosed : ∀ c w d, InLexeme k c w d → c.1 ∈ memberStates → c.1.lexemeKind = some k →
      d.1 ∈ memberStates := by
    intro c w d hread
    induction hread with
    | nil c => exact fun hc _ => hc
    | cons hstep hd _ ih => exact fun hc hk => ih ((flightStep hstep).inMember hc (hd.trans hk.symm)) hd
  obtain ⟨b, u, hseg⟩ := List.exists_cons_of_ne_nil h.nonempty
  have hread := h.read
  rw [hseg] at hread
  cases hread with
  | cons hstep hd hrest =>
    exact hclosed _ _ _ hrest ((flightStep hstep).member ha (by simp [hd])) hd

/-- Where a source stands its path is in flight. -/
theorem Lexer.Flying.source {l : Lexer} {k : LexKind} (h : l.Flying k)
    (ha : l.anchor ∈ sourceStates) : l.state ∈ sourcePathStates ∧
      ∃ b u, l.seg = b :: u ∧ InLexeme .ident (.inSourceIdent, l.stack) u (l.state, l.stack) := by
  have hclosed : ∀ c w d, InLexeme k c w d → c.1 ∈ sourcePathStates → c.1.lexemeKind = some k →
      d.1 ∈ sourcePathStates := by
    intro c w d hread
    induction hread with
    | nil c => exact fun hc _ => hc
    | cons hstep hd _ ih => exact fun hc hk => ih ((flightStep hstep).inSource hc (hd.trans hk.symm)) hd
  obtain ⟨b, u, hseg⟩ := List.exists_cons_of_ne_nil h.nonempty
  have hread := h.read
  rw [hseg] at hread
  cases hread with
  | @cons _ c _ _ _ hstep hd hrest =>
    have hc := (flightStep hstep).source ha (by simp [hd])
    have hk : k = .ident := by
      rw [hc] at hd
      exact (Option.some.inj hd).symm
    have hst := (next_of_lexeme hstep hd).2
    obtain ⟨s, st⟩ := c
    cases hc
    cases hst
    subst hk
    exact ⟨hclosed _ _ _ hrest (by simp [sourcePathStates]) rfl, b, u, hseg, hrest⟩

/-! ## Where a rule applies -/

/-- The rules there are, each with the states it opens at. -/
inductive Ruled : State → L2Position → Prop where
  | source {s : State} (hs : s ∈ sourceStates) : Ruled s .sourceIdent
  | member (cls : Bytes) : Ruled .afterDot (.member cls)
  | row : Ruled .afterDot .relationColumn
  | operand {s : State} (hs : s ∈ valueStates) (tc : TypeClass) : Ruled s (.reValue tc)
  | column {s : State} (hs : s ∈ valueStates) : Ruled s .column
  | free (s : State) : Ruled s .none

theorem ruled_openingPosition (t : ScopeTracker) (s : State) : Ruled s (t.openingPosition s) := by
  have hvalue : ∀ s' ∈ valueStates, Ruled s' (t.openingPosition .expectValue) := by
    intro s' hs'
    unfold openingPosition
    cases t.cmpPending with
    | some tc => exact .operand hs' tc
    | none =>
      cases t.inColumnArg with
      | true => exact .column hs'
      | false => exact .free s'
  unfold openingPosition
  split
  · exact .source (by simp [sourceStates])
  · exact .source (by simp [sourceStates])
  · exact .source (by simp [sourceStates])
  · split
    · exact .row
    · split
      · exact .member _
      · exact .free _
  · exact hvalue _ (by simp [valueStates])
  · exact hvalue _ (by simp [valueStates])
  · exact .free _

/-- A lexeme in flight carries no operand rule. -/
theorem ruled_carriedPosition (t : ScopeTracker) (a : State) :
    Ruled a (t.carriedPosition a) ∧ ∀ tc, t.carriedPosition a ≠ .reValue tc := by
  have hopen := ruled_openingPosition t a
  rw [carriedPosition]
  split
  · exact ⟨.free a, by simp⟩
  · exact ⟨hopen, fun tc h => by simp_all⟩

/-! ## The rule of a name -/

/-- Inside a lexeme the rule is the one stamped on it, and the walk starts
with its segment. -/
theorem position_flying (t : ScopeTracker) {l : Lexer} {k : LexKind}
    (hk : l.state.lexemeKind = some k) :
    (t.hold l).position l.state = t.carriedPosition l.anchor ∧ (t.hold l).narrowPrefix = l.seg := by
  simp [position, narrowPrefix, hold, hk]

theorem position_gap (t : ScopeTracker) {l : Lexer} (hk : l.state.lexemeKind = none) :
    (t.hold l).position l.state = t.openingPosition l.state ∧ (t.hold l).narrowPrefix = [] := by
  simp only [position, narrowPrefix, hold, hk]
  exact ⟨rfl, rfl⟩

/-! ## The rules, token by token -/

/-- A rule about identifiers keeps a token that begins with no identifier
byte. -/
theorem keeps_of_not_tail {schema : Schema} {columns names : List Bytes} {pos : L2Position}
    (hrule : pos.rule schema columns = some (.ident, names)) (pfx : Bytes) {b : UInt8}
    (hb : isIdentTail b = false) (rest : Bytes) :
    legalAt schema pos pfx columns (b :: rest) = true := by
  rw [legalAt_rule hrule, keepsFrom_iff]
  intro _ hcand
  rw [isCandidate, hb] at hcand
  cases hcand

theorem keeps_of_not_live {schema : Schema} {columns names : List Bytes} {pos : L2Position}
    {kind : TrieKind} (hrule : pos.rule schema columns = some (kind, names)) {pfx : Bytes}
    (hne : pfx ≠ []) (hpfx : ¬ Live {n | n ∈ names} pfx) (bytes : Bytes) :
    legalAt schema pos pfx columns bytes = true := by
  rw [legalAt_rule hrule, keepsFrom_iff]
  intro h
  exact absurd h (by simp [hne, hpfx])

theorem keeps_of_live {schema : Schema} {columns names : List Bytes} {pos : L2Position}
    {kind : TrieKind} (hrule : pos.rule schema columns = some (kind, names)) {pfx bytes : Bytes}
    (h : Live {n | n ∈ names} (pfx ++ bytes)) : legalAt schema pos pfx columns bytes = true := by
  rw [legalAt_rule hrule]
  exact keepsFrom_of_live h

/-- A token that does not begin with a dot is no fused navigation. -/
theorem legalFused_of_ne_dot {schema : Schema} {columns : List Bytes} (pos : L2Position)
    {bytes : Bytes} (h : ∀ b rest, bytes = Byte.dot :: b :: rest → isIdentStart b = false) :
    legalFused schema pos columns bytes = true := by
  have hpost : fusedPostDot bytes = none := by
    unfold fusedPostDot
    split
    · rename_i dot first rest
      rw [if_neg]
      rintro ⟨rfl, hstart⟩
      rw [h first rest rfl] at hstart
      cases hstart
    · rfl
  cases pos <;> simp [legalFused, keepsFused, hpost]

/-! ## Names as runs -/

theorem isWs_of_start {b : UInt8} (h : isIdentStart b = true) : isWs b = false := by
  grind [isWs, isIdentStart, isAsciiAlphabetic, isAsciiLowercase]

/-- Identifier bytes leave the automaton in the identifier it is in. -/
theorem inLexeme_tail {s : State} (hs : s = .inIdent ∨ s = .inSourceIdent) (st : List Frame)
    {u : Bytes} (hu : ∀ c ∈ u, isIdentTail c = true) : InLexeme .ident (s, st) u (s, st) := by
  induction u with
  | nil => exact .nil _
  | cons b u ih =>
    have hb := hu b (by simp)
    refine .cons (d := (s, st)) ?_ ?_ (ih fun c hc => hu c (by simp [hc]))
    · rcases hs with rfl | rfl
      · simp [Pushdown.advance, step, hb, Move.apply]
      · simp [Pushdown.advance, step, inSourceIdent, hb, Move.apply]
    · rcases hs with rfl | rfl <;> rfl

/-- A member name behind its dot. -/
theorem IsIdent.read {name : Bytes} (h : IsIdent name) (st : List Frame) :
    InLexeme .ident (.afterDot, st) name (.inIdent, st) := by
  obtain ⟨b, u, rfl, hb, hu⟩ := h
  refine .cons (d := (.inIdent, st)) ?_ rfl (inLexeme_tail (.inl rfl) st hu)
  simp [Pushdown.advance, step, hb, isWs_of_start hb, Move.apply]

/-- A path of identifiers joined by `::`. -/
inductive IsClasspath : Bytes → Prop where
  | name {n : Bytes} (h : IsIdent n) : IsClasspath n
  | join {p n : Bytes} (hp : IsClasspath p) (hn : IsIdent n) :
      IsClasspath (p ++ Byte.colon :: Byte.colon :: n)

/-- A classpath after its first byte. -/
theorem IsClasspath.read {p : Bytes} (h : IsClasspath p) : ∃ b u, p = b :: u ∧
    isIdentStart b = true ∧ ∀ st, InLexeme .ident (.inSourceIdent, st) u (.inSourceIdent, st) := by
  induction h with
  | name h =>
    obtain ⟨b, u, rfl, hb, hu⟩ := h
    exact ⟨b, u, rfl, hb, fun st => inLexeme_tail (.inr rfl) st hu⟩
  | join hp hn ih =>
    obtain ⟨b, u, rfl, hb, hread⟩ := ih
    obtain ⟨c, v, rfl, hc, hv⟩ := hn
    refine ⟨b, u ++ Byte.colon :: Byte.colon :: c :: v, rfl, hb, fun st => (hread st).append ?_⟩
    refine .cons (d := (.sourceColon, st)) ?_ rfl (.cons (d := (.sourceColon2, st)) ?_ rfl ?_)
    · rfl
    · rfl
    · refine .cons (d := (.inSourceIdent, st)) ?_ rfl (inLexeme_tail (.inr rfl) st hv)
      simp [Pushdown.advance, step, demand, hc, Move.apply]

theorem isIdent_letKeyword : IsIdent letKeyword :=
  ⟨Byte.l, ascii "et", rfl, by decide, by decide +kernel⟩

/-- A quoted column where a string opens. -/
theorem quote_read_of_opens (name : Bytes) {s : State} {st : List Frame}
    (hopen : Pushdown.advance step (s, st) Byte.quote = some (.inStrLit false, st)) :
    InLexeme .str (s, st) (quote name) (.inStrLit true, st) := by
  have hbody : InLexeme .str (.inStrLit false, st)
      (name.flatMap fun b => if b = Byte.quote then [Byte.quote, b] else [b])
      (.inStrLit false, st) := by
    induction name with
    | nil => exact .nil _
    | cons b name ih =>
      rw [List.flatMap_cons]
      refine RunsIn.append ?_ ih
      by_cases hb : b = Byte.quote
      · rw [if_pos hb, hb]
        exact .cons (d := (.inStrLit true, st)) rfl rfl (.cons rfl rfl (.nil _))
      · rw [if_neg hb]
        refine .cons (d := (.inStrLit false, st)) ?_ rfl (.nil _)
        simp [Pushdown.advance, step, hb, Move.apply]
  exact .cons hopen rfl (hbody.concat rfl rfl)

/-- A quoted column where a value stands. -/
theorem quote_read (name : Bytes) {s : State} (hs : s ∈ valueStates) (st : List Frame) :
    InLexeme .str (s, st) (quote name) (.inStrLit true, st) := by
  refine quote_read_of_opens name ?_
  simp only [valueStates, List.mem_cons, List.not_mem_nil, or_false] at hs
  rcases hs with rfl | rfl <;> rfl

end PureCard
