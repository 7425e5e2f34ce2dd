/-
PureCard.DeadEnds — no stream is painted into a corner.

From every state the automaton can be in there is a way to a complete
query: a few bytes finish the value it is in (`wayOut`), and then the open
delimiters are closed one by one. The measure of a stream is the height of
its stack, then the distance of its state from a finished value.

The rules of a schema must keep those bytes. The rules about identifiers
keep every byte that is no part of one, so a half-typed member is closed
by the delimiter. There are two places where such a byte is not enough: a
source path that ends in `::` needs the byte its path goes on with, which
is why the paths have to be well formed, and a quoted column in flight has
to be followed to its closing quote (`Finishes.along`).
-/
import PureCard.Grammar.Delimiters
import PureCard.ComparisonOperands
import PureCard.OpenNames

namespace PureCard

open Pushdown Completion ScopeTracker

/-! ## Ways out -/

/-- The states that have just finished a value. -/
def valuedStates : List State :=
  [.afterValue, .inIdent, .inNumberInt, .inNumberFrac, .inExp, .inStrLit true, .inDateLit,
   .inMilestoneLit]

theorem step_closer {s : State} (hs : s ∈ valuedStates) (f : Frame) :
    step s (some f) (closer f) = .pop .afterValue := by
  have hall : valuedStates.all (fun s => [Frame.paren, .bracket, .brace, .braceLambda].all fun f =>
      decide (step s (some f) (closer f) = .pop .afterValue)) = true := by decide +kernel
  have hrow := List.all_eq_true.mp (List.all_eq_true.mp hall s hs) f (by cases f <;> simp)
  simpa using hrow

theorem isAccepting_of_valued {s : State} (hs : s ∈ valuedStates) :
    (⟨s, []⟩ : Pda).isAccepting = true := by
  have hall : valuedStates.all (fun s => (⟨s, []⟩ : Pda).isAccepting) = true := by decide +kernel
  exact List.all_eq_true.mp hall s hs

/-- A byte that leads on towards a finished value. -/
def wayOut : State → UInt8
  | .start | .afterBraceOpen => Byte.pipe
  | .expectSource => Byte.l
  | .blockStmt | .blockStmtClose => Byte.dollar
  | .inSourceIdent | .letL | .letLe | .letLet => Byte.dot
  | .sourceColon => Byte.colon
  | .sourceDash => Byte.gt
  | .inBinder | .afterBinder | .sawEq | .sawBang => Byte.eq
  | .sawAmp => Byte.amp
  | .sawNumSign | .needFracDigit | .sawExp | .needExpDigit => 48
  | .sawPercent => Byte.dash
  | .afterDot | .sawTilde | .inStrLit _ => Byte.quote
  | _ => Byte.l

/-- How many bytes away a finished value is at most. -/
def distance : State → Nat
  | .afterValue | .inIdent | .inNumberInt | .inNumberFrac | .inExp | .inStrLit true | .inDateLit
  | .inMilestoneLit | .inMultiplicity => 0
  | .afterDot | .sawTilde | .sourceDash | .blockStmt | .blockStmtClose | .sawEq | .sawBang
  | .sawAmp => 2
  | .inSourceIdent | .letL | .letLe | .letLet | .afterBraceOpen => 3
  | .expectSource | .sourceColon2 => 4
  | .sourceColon | .inBinder | .afterBinder | .start => 5
  | .expectBinder => 6
  | _ => 1

/-- The states the way out of which is not one fixed byte. -/
def branchStates : List State := [.inMultiplicity, .sourceColon2]

theorem step_wayOut {s : State} (hs : s ∉ valuedStates) (hb : s ∉ branchStates)
    (top : Option Frame) :
    ∃ s', step s top (wayOut s) = .next s' ∧ distance s' < distance s := by
  have hall : allStates.all (fun s => decide (s ∈ valuedStates) || decide (s ∈ branchStates) ||
      [none, some Frame.paren, some .bracket, some .brace, some .braceLambda].all fun top =>
        match step s top (wayOut s) with
        | .next s' => decide (distance s' < distance s)
        | _ => false) = true := by decide +kernel
  have hrow := List.all_eq_true.mp hall s (mem_allStates s)
  simp only [hs, hb, decide_false, Bool.false_or] at hrow
  have htop := List.all_eq_true.mp hrow top (by cases top with | none => simp | some f => cases f <;> simp)
  split at htop
  · rename_i s' hstep
    exact ⟨s', hstep, by simpa using htop⟩
  · cases htop

/-- A letter is neither a literal of another class nor a quoted column. -/
theorem keeps_value {schema : Schema} {columns : List Bytes} (t : ScopeTracker) {s : State}
    (hs : s = .expectValue ∨ s = .expectValueReq) :
    legalAt schema (t.openingPosition s) [] columns [Byte.l] = true := by
  have hoperand : ∀ tc, legalAt schema (.reValue tc) [] columns [Byte.l] = true := by
    intro tc
    cases tc <;> rfl
  have hcolumn : legalAt schema .column [] columns [Byte.l] = true := by
    rw [legalAt_rule rule_column, keepsFrom_iff]
    intro _ hcand
    exact absurd hcand (by decide)
  rcases hs with rfl | rfl
  all_goals
    simp only [openingPosition]
    split
    · exact hoperand _
    · split
      · exact hcolumn
      · rfl

/-- The byte is out of the rule's reach where no lexeme is open. -/
theorem keeps_wayOut {schema : Schema} {columns : List Bytes} (t : ScopeTracker) {s : State}
    (hk : s.lexemeKind = none) : legalAt schema (t.openingPosition s) [] columns [wayOut s] = true := by
  have hsource : legalAt schema .sourceIdent [] columns [Byte.dollar] = true :=
    keeps_of_not_tail rfl [] (by decide) []
  cases s with
  | expectSource =>
    refine keeps_of_live rule_sourceIdent ⟨letKeyword, ?_, ascii "et", rfl⟩
    simp
  | blockStmt => exact hsource
  | blockStmtClose => exact hsource
  | afterDot =>
    have hquote : isIdentTail Byte.quote = false := by decide
    simp only [openingPosition, wayOut]
    split
    · exact keeps_of_not_tail rule_relationColumn [] hquote []
    · split
      · exact keeps_of_not_tail rule_member [] hquote []
      · rfl
  | expectValue => exact keeps_value t (.inl rfl)
  | expectValueReq => exact keeps_value t (.inr rfl)
  | _ => rfl


/-! ## Streams that can be finished -/

/-- The rule at the position of a tracker keeps `b` as the next token. -/
def Offers (schema : Schema) (t : ScopeTracker) (s : State) (b : UInt8) : Prop :=
  legalAt schema (t.position s) t.narrowPrefix t.emittedColumns [b] = true

/-- The rules keep `b` as the next token of the stream. -/
def Keeps (schema : Schema) (l : Lexer) (ps : List Piece) (b : UInt8) : Prop :=
  Offers schema ((new.dispatchAll ps schema).hold l) l.state b

/-- The stream is complete, or goes on to a complete one with single bytes
that the rules keep. -/
inductive Finishes (schema : Schema) : List Bytes → Prop where
  | done {toks : List Bytes} {l : Lexer} {ps : List Piece}
      (h : Lexer.start.tokens toks = some (l, ps)) (hdone : l.pda.isAccepting = true) :
      Finishes schema toks
  | byte {toks : List Bytes} {l : Lexer} {ps : List Piece} {b : UInt8}
      (h : Lexer.start.tokens toks = some (l, ps)) (hkeeps : Keeps schema l ps b)
      (hrest : Finishes schema (toks ++ [[b]])) : Finishes schema toks

variable {schema : Schema} {toks : List Bytes} {l : Lexer} {ps : List Piece}

theorem Finishes.advance (h : Lexer.start.tokens toks = some (l, ps)) {b : UInt8}
    {c : State × List Frame} (hadv : Pushdown.advance step (l.state, l.stack) b = some c)
    (hkeeps : Keeps schema l ps b)
    (hrest : ∀ l' ps', Lexer.start.tokens (toks ++ [[b]]) = some (l', ps') →
      (l'.state, l'.stack) = c → Finishes schema (toks ++ [[b]])) : Finishes schema toks := by
  have hrun : l.pda.advanceAll [b] = .ok (.ofConfig c) := by
    refine Pda.advanceAll_eq_ok.mpr ?_
    show run step (l.state, l.stack) [b] = some c
    rw [run_cons, hadv]
    rfl
  obtain ⟨l', qs, htok, hend⟩ := Lexer.token_of_advanceAll hrun
  have hpair : (l'.state, l'.stack) = c := congrArg Pda.config hend
  exact .byte h hkeeps (hrest l' (ps ++ qs) (Lexer.tokens_concat h htok) hpair)

/-- One more byte of the lexeme in flight. -/
theorem Finishes.inside (h : Lexer.start.tokens toks = some (l, ps)) {k : LexKind}
    (hk : l.state.lexemeKind = some k) {b : UInt8} {c : State × List Frame}
    (hadv : Pushdown.advance step (l.state, l.stack) b = some c) (hc : c.1.lexemeKind = some k)
    (hkeeps : Keeps schema l ps b)
    (hrest : Lexer.start.tokens (toks ++ [[b]]) =
      some (⟨c.1, c.2, l.seg ++ [b], l.anchor⟩, ps) → Finishes schema (toks ++ [[b]])) :
    Finishes schema toks := by
  have htok := Lexer.token_inside hk (.cons hadv hc (.nil c)) hc
  have hall := Lexer.tokens_concat h htok
  rw [List.append_nil] at hall
  exact .byte h hkeeps (hrest hall)


/-- A column in flight is followed to its closing quote. -/
theorem Finishes.along {name rest : Bytes} (h : Lexer.start.tokens toks = some (l, ps))
    (hk : l.state.lexemeKind = some .str)
    (hpos : (new.dispatchAll ps schema).carriedPosition l.anchor = .column)
    (hname : name ∈ (new.dispatchAll ps schema).emittedColumns) (hseg : l.seg ++ rest = quote name)
    (hread : InLexeme .str (l.state, l.stack) rest (.inStrLit true, l.stack))
    (hend : ∀ toks', Lexer.start.tokens toks' =
      some (⟨.inStrLit true, l.stack, quote name, l.anchor⟩, ps) → Finishes schema toks') :
    Finishes schema toks := by
  induction rest generalizing toks l with
  | nil =>
    have hstate : l.state = .inStrLit true := congrArg Prod.fst (Option.some.inj hread.run_eq)
    rw [List.append_nil] at hseg
    refine hend toks ?_
    rw [h, ← hstate, ← hseg]
  | cons b rest ih =>
    cases hread with
    | @cons _ c _ _ _ hadv hc hrest =>
      have hst := (next_of_lexeme hadv hc).2
      have hlive : Live {n | n ∈ (new.dispatchAll ps schema).emittedColumns.map quote}
          (l.seg ++ [b]) := ⟨quote name, List.mem_map_of_mem hname, rest, by rw [← hseg]; simp⟩
      have hkeeps : Keeps schema l ps b := by
        obtain ⟨hposition, hprefix⟩ := position_flying (new.dispatchAll ps schema) hk
        rw [Keeps, Offers, hposition, hprefix, hpos]
        exact keeps_of_live rfl hlive
      refine .inside h hk hadv hc hkeeps fun hnext => ?_
      refine ih (l := ⟨c.1, c.2, l.seg ++ [b], l.anchor⟩) hnext hc hpos (by rw [← hseg]; simp) ?_ ?_
      · show InLexeme .str c rest (.inStrLit true, c.2)
        rw [hst]
        exact hrest
      · intro toks' htoks'
        refine hend toks' ?_
        rw [← hst]
        exact htoks'


/-- In the lexeme in flight the rule keeps every byte, or every byte that
is no part of an identifier, or there is a column to follow. -/
inductive InFlight (schema : Schema) (l : Lexer) (ps : List Piece) : Prop where
  | free (h : ∀ b, Keeps schema l ps b)
  | member (hstate : l.state ∈ memberStates) (h : ∀ b, isIdentTail b = false → Keeps schema l ps b)
  | source (hstate : l.state ∈ sourcePathStates)
      (h : ∀ b, isIdentTail b = false → Keeps schema l ps b)
      (hpath : l.state = .sourceColon2 → ∃ b, isIdentStart b = true ∧ Keeps schema l ps b)
  | column {name rest : Bytes} (hk : l.state.lexemeKind = some .str)
      (hpos : (new.dispatchAll ps schema).carriedPosition l.anchor = .column)
      (hname : name ∈ (new.dispatchAll ps schema).emittedColumns) (hseg : l.seg ++ rest = quote name)
      (hread : InLexeme .str (l.state, l.stack) rest (.inStrLit true, l.stack))


theorem inFlight_of_tokens (hpaths : ∀ p ∈ schema.sourcePaths, IsClasspath p)
    (h : Lexer.start.tokens toks = some (l, ps)) {k : LexKind} (hk : l.state.lexemeKind = some k) :
    InFlight schema l ps := by
  have hflying := Lexer.flying_of_tokens h hk
  obtain ⟨hposition, hprefix⟩ := position_flying (new.dispatchAll ps schema) hk
  have hkeeps : ∀ b, Keeps schema l ps b ↔ legalAt schema
      ((new.dispatchAll ps schema).carriedPosition l.anchor) l.seg
      ((new.dispatchAll ps schema).hold l).emittedColumns [b] = true := by
    intro b
    rw [Keeps, Offers, hposition, hprefix]
  obtain ⟨hruled, hoperand⟩ := ruled_carriedPosition (new.dispatchAll ps schema) l.anchor
  generalize hpos : (new.dispatchAll ps schema).carriedPosition l.anchor = pos at hkeeps hruled
  generalize ha : l.anchor = a at hruled
  cases hruled with
  | free _ => exact .free fun b => (hkeeps b).mpr rfl
  | operand hs tc => exact absurd hpos (hoperand tc)
  | member cls =>
    refine .member (hflying.member ha) fun b hb => (hkeeps b).mpr ?_
    exact keeps_of_not_tail rule_member _ hb []
  | row =>
    refine .member (hflying.member ha) fun b hb => (hkeeps b).mpr ?_
    exact keeps_of_not_tail rule_relationColumn _ hb []
  | source hs =>
    obtain ⟨hstate, b₀, u, hseg, hread⟩ := hflying.source (ha ▸ hs)
    refine .source hstate (fun b hb => (hkeeps b).mpr ?_) fun hcolon => ?_
    · exact keeps_of_not_tail rule_sourceIdent _ hb []
    · by_cases hlive : Live {n | n ∈ schema.sourcePaths ++ [letKeyword]} l.seg
      · obtain ⟨n, hn, v, rfl⟩ := hlive
        have hpath : IsClasspath (l.seg ++ v) := by
          rcases List.mem_append.mp hn with hn | hn
          · exact hpaths _ hn
          · rw [List.mem_singleton] at hn
            rw [hn]
            exact .name isIdent_letKeyword
        obtain ⟨c₀, w, hw, -, hwhole⟩ := hpath.read
        rw [hseg, List.cons_append, List.cons.injEq] at hw
        obtain ⟨-, rfl⟩ := hw
        obtain ⟨e, hu, hv⟩ := (hwhole l.stack).split
        have he : e = (.sourceColon2, l.stack) := by
          have hsame := hu.run_eq.symm.trans hread.run_eq
          rw [hcolon] at hsame
          exact Option.some.inj hsame
        subst he
        cases hv with
        | @cons _ c _ b v hadv _ _ =>
          have hb : isIdentStart b = true := by
            by_contra hb
            have hdead : Pushdown.advance step (.sourceColon2, l.stack) b = none := by
              simp [Pushdown.advance, step, demand, hb, Move.apply]
            rw [hdead] at hadv
            cases hadv
          refine ⟨b, hb, (hkeeps b).mpr ?_⟩
          exact keeps_of_live rule_sourceIdent ⟨_, hn, v, by simp⟩
      · refine ⟨Byte.l, by decide, (hkeeps _).mpr ?_⟩
        exact keeps_of_not_live rule_sourceIdent hflying.nonempty hlive _
  | column hs =>
    by_cases hlive : Live {n | n ∈ ((new.dispatchAll ps schema).hold l).emittedColumns.map quote} l.seg
    · obtain ⟨n, hn, rest, hrest⟩ := hlive
      obtain ⟨name, hname, rfl⟩ := List.mem_map.mp hn
      have hwhole := quote_read name (ha ▸ hs) l.stack
      rw [← hrest] at hwhole
      obtain ⟨e, hu, hv⟩ := hwhole.split
      have he : e = (l.state, l.stack) :=
        Option.some.inj (hu.run_eq.symm.trans hflying.read.run_eq)
      subst he
      have hstr : l.state.lexemeKind = some .str := hu.last hflying.nonempty
      exact .column hstr hpos hname hrest hv
    · exact .free fun b => (hkeeps b).mpr
        (keeps_of_not_live rule_column hflying.nonempty hlive _)


/-- How far a stream is from a complete one. -/
def Lexer.measure (l : Lexer) : Nat := 8 * l.stack.length + distance l.state

theorem isIdentTail_closer (f : Frame) : isIdentTail (closer f) = false := by
  cases f <;> decide

/-- A finished value closes its delimiter, if the rule keeps the closer. -/
theorem Finishes.close (h : Lexer.start.tokens toks = some (l, ps)) (hs : l.state ∈ valuedStates)
    (hkeeps : ∀ f, Keeps schema l ps (closer f))
    (ih : ∀ toks' l' ps', Lexer.start.tokens toks' = some (l', ps') → l'.measure < l.measure →
      Finishes schema toks') : Finishes schema toks := by
  cases hst : l.stack with
  | nil =>
    refine .done h ?_
    have haccept := isAccepting_of_valued hs
    rw [Lexer.pda, hst]
    exact haccept
  | cons f st =>
    have hadv : Pushdown.advance step (l.state, l.stack) (closer f) = some (.afterValue, st) := by
      rw [hst, Pushdown.advance]
      exact congrArg (Move.apply · (f :: st)) (step_closer hs f)
    refine .advance h hadv (hkeeps f) fun l' ps' h' hc => ih _ l' ps' h' ?_
    rw [Prod.mk.injEq] at hc
    rw [Lexer.measure, Lexer.measure, hc.1, hc.2, hst]
    simp only [List.length_cons, distance]
    omega

/-- A way out is a step towards a finished value, if the rule keeps its
byte. -/
theorem Finishes.leave (h : Lexer.start.tokens toks = some (l, ps)) {b : UInt8} {s : State}
    (hstep : step l.state l.stack.head? b = .next s) (hs : distance s < distance l.state)
    (hkeeps : Keeps schema l ps b)
    (ih : ∀ toks' l' ps', Lexer.start.tokens toks' = some (l', ps') → l'.measure < l.measure →
      Finishes schema toks') : Finishes schema toks := by
  have hadv : Pushdown.advance step (l.state, l.stack) b = some (s, l.stack) :=
    congrArg (Move.apply · l.stack) hstep
  refine .advance h hadv hkeeps fun l' ps' h' hc => ih _ l' ps' h' ?_
  rw [Prod.mk.injEq] at hc
  rw [Lexer.measure, Lexer.measure, hc.1, hc.2]
  omega


/-- Behind a quoted column every byte that is no part of an identifier is
kept. -/
theorem keeps_behind_column {columns : List Bytes} {name : Bytes} (h : name ∈ columns) {b : UInt8}
    (hb : isIdentTail b = false) : legalAt schema .column (quote name) columns [b] = true := by
  have hmem : quote name ∈ {n | n ∈ columns.map quote} := List.mem_map_of_mem h
  rw [legalAt_rule rule_column, keepsFrom_iff]
  intro _ _
  refine (verdict_ne_off_iff (Live.of_mem hmem)).mpr ?_
  by_cases hlive : Live {n | n ∈ columns.map quote} (quote name ++ [b])
  · exact .inl hlive
  · exact .inr ⟨[], b, [], rfl, by rw [List.append_nil]; exact hmem,
      by rw [List.append_nil]; exact hlive, hb⟩

/-- **Every stream can be finished** with single bytes that the rules
keep. -/
theorem finishes (hpaths : ∀ p ∈ schema.sourcePaths, IsClasspath p)
    (h : Lexer.start.tokens toks = some (l, ps)) : Finishes schema toks := by
  induction hn : l.measure using Nat.strong_induction_on generalizing toks l ps with
  | _ n ih =>
  subst hn
  have hless : ∀ toks' l' ps', Lexer.start.tokens toks' = some (l', ps') → l'.measure < l.measure →
      Finishes schema toks' := fun toks' l' ps' h' hlt => ih _ hlt h' rfl
  have hvalued : (∀ f, Keeps schema l ps (closer f)) → l.state ∈ valuedStates →
      Finishes schema toks := fun hkeeps hs => .close h hs hkeeps hless
  have hway : Keeps schema l ps (wayOut l.state) → l.state ∉ valuedStates →
      l.state ∉ branchStates → Finishes schema toks := by
    intro hkeeps hs hb
    obtain ⟨s, hstep, hlt⟩ := step_wayOut hs hb l.stack.head?
    exact .leave h hstep hlt hkeeps hless
  have hcolon : ∀ b, isIdentStart b = true → Keeps schema l ps b → l.state = .sourceColon2 →
      Finishes schema toks := by
    intro b hb hkeeps hs
    refine .leave h (b := b) (s := .inSourceIdent) ?_ ?_ hkeeps hless
    · simp [hs, step, demand, hb]
    · rw [hs]
      decide
  cases hk : l.state.lexemeKind with
  | none =>
    obtain ⟨hposition, hprefix⟩ := position_gap (new.dispatchAll ps schema) hk
    have hkeeps : Keeps schema l ps (wayOut l.state) := by
      rw [Keeps, Offers, hposition, hprefix]
      exact keeps_wayOut _ hk
    have hfree : (new.dispatchAll ps schema).openingPosition l.state = .none → ∀ b,
        Keeps schema l ps b := by
      intro hpos b
      rw [Keeps, Offers, hposition, hpos]
      rfl
    by_cases hs : l.state ∈ valuedStates
    · have hafter : l.state = .afterValue := by
        simp only [valuedStates, List.mem_cons, List.not_mem_nil, or_false] at hs
        rcases hs with hs | hs | hs | hs | hs | hs | hs | hs
        · exact hs
        all_goals
          rw [hs] at hk
          cases hk
      exact hvalued (fun f => hfree (by rw [hafter]; rfl) _) hs
    · by_cases hb : l.state ∈ branchStates
      · have hmult : l.state = .inMultiplicity := by
          simp only [branchStates, List.mem_cons, List.not_mem_nil, or_false] at hb
          rcases hb with hb | hb
          · exact hb
          · rw [hb] at hk
            cases hk
        have hconfig := (traced_tokens h).config
        rw [hmult] at hconfig
        obtain ⟨st, hst⟩ := List.head?_eq_some_iff.mp (bracket_of_run hconfig)
        have hadv : Pushdown.advance step (l.state, l.stack) Byte.rbracket =
            some (.afterValue, st) := by
          rw [hmult, hst]
          rfl
        refine .advance h hadv (hfree (by rw [hmult]; rfl) _) fun l' ps' h' hc => hless _ l' ps' h' ?_
        rw [Prod.mk.injEq] at hc
        rw [Lexer.measure, Lexer.measure, hc.1, hc.2, hst]
        simp only [List.length_cons, distance]
        omega
      · exact hway hkeeps hs hb
  | some k =>
    have hnot : l.state ≠ .inMultiplicity := by
      intro hs
      rw [hs] at hk
      cases hk
    have hbranch : l.state ∈ branchStates → l.state = .sourceColon2 := by
      intro hb
      simpa [branchStates, hnot] using hb
    cases inFlight_of_tokens hpaths h hk with
    | free hfree =>
      by_cases hs : l.state ∈ valuedStates
      · exact hvalued (fun f => hfree _) hs
      · by_cases hb : l.state ∈ branchStates
        · exact hcolon Byte.l (by decide) (hfree _) (hbranch hb)
        · exact hway (hfree _) hs hb
    | member hstate hkeeps =>
      by_cases hs : l.state ∈ valuedStates
      · exact hvalued (fun f => hkeeps _ (isIdentTail_closer f)) hs
      · have hstr : l.state = .inStrLit false := by
          simp only [memberStates, List.mem_cons, List.not_mem_nil, or_false] at hstate
          rcases hstate with h' | h' | h'
          · exact absurd (by rw [h']; decide) hs
          · exact h'
          · exact absurd (by rw [h']; decide) hs
        refine hway (hkeeps _ ?_) hs ?_
        · rw [hstr]
          decide
        · rw [hstr]
          decide
    | source hstate hkeeps hpath =>
      by_cases hb : l.state = .sourceColon2
      · obtain ⟨b, hb', hkeeps'⟩ := hpath hb
        exact hcolon b hb' hkeeps' hb
      · simp only [sourcePathStates, List.mem_cons, List.not_mem_nil, or_false] at hstate
        have hall : ∀ s, s = .inSourceIdent ∨ s = .sourceColon → isIdentTail (wayOut s) = false ∧
            s ∉ valuedStates ∧ s ∉ branchStates := by
          intro s hs
          rcases hs with rfl | rfl <;> decide
        obtain ⟨htail, hs, hb'⟩ := hall l.state (by tauto)
        exact hway (hkeeps _ htail) hs hb'
    | @column name rest hstr hpos hname hseg hread =>
      refine .along h hstr hpos hname hseg hread fun toks' h' => ?_
      refine .close h' (by simp [valuedStates]) (fun f => ?_) fun toks'' l'' ps'' h'' hlt => ?_
      · have hkind : (⟨.inStrLit true, l.stack, quote name, l.anchor⟩ : Lexer).state.lexemeKind =
            some .str := rfl
        obtain ⟨hposition, hprefix⟩ := position_flying (new.dispatchAll ps schema) hkind
        rw [Keeps, Offers, hposition, hprefix]
        exact hpos ▸ keeps_behind_column hname (isIdentTail_closer f)
      · refine hless _ l'' ps'' h'' (lt_of_lt_of_le hlt ?_)
        simp [Lexer.measure, distance]


theorem Finishes.live (h : Finishes schema toks) :
    ∃ l ps, Lexer.start.tokens toks = some (l, ps) := by
  cases h with
  | done h _ => exact ⟨_, _, h⟩
  | byte h _ _ => exact ⟨_, _, h⟩

/-! ## Sessions -/

namespace Session

/-- Every token of the continuation is set in the mask at its turn. -/
def Offered (s : Session) : List Nat → Prop
  | [] => True
  | id :: rest => s.allows id = true ∧ (s.callAcceptToken id).1.Offered rest

/-- The session after a continuation. -/
def after (s : Session) : List Nat → Session
  | [] => s
  | id :: rest => (s.callAcceptToken id).1.after rest

/-- The tokens are offered one by one and leave the query complete. -/
structure Completes (s : Session) (ids : List Nat) : Prop where
  offered : s.Offered ids
  complete : (s.after ids).isComplete = true
  eos : (s.after ids).allows s.grammar.eosBit = true

theorem completes_nil {s : Session} (h : s.MemoValid) (hdone : s.isComplete = true) :
    s.Completes [] :=
  ⟨trivial, hdone, (allows_iff h _).mpr (.inr ⟨rfl, hdone⟩)⟩

theorem Completes.cons {s : Session} {id : Nat} {ids : List Nat} (hid : s.allows id = true)
    (h : (s.callAcceptToken id).1.Completes ids) : s.Completes (id :: ids) := by
  have hgrammar := (vocab_callAcceptToken s id).1
  refine ⟨⟨hid, h.offered⟩, h.complete, ?_⟩
  rw [← hgrammar]
  exact h.eos

theorem completes_of_finishes {s : Session} (hfin : Finishes schema toks)
    (hbytes : ∀ b : UInt8, ∃ id < s.grammar.eosBit, s.grammar.vocab.bytes id = some [b])
    (hs : s.AfterTokens schema toks) (hmemo : s.MemoValid) : ∃ ids, s.Completes ids := by
  induction hfin generalizing s with
  | @done toks l ps h hdone =>
    obtain ⟨l', ps', h', -, hpda, -⟩ := pieces_of_drive hs.driven
    rw [h] at h'
    cases h'
    refine ⟨[], completes_nil hmemo ?_⟩
    rw [isComplete, hpda]
    exact hdone
  | @byte toks l ps b h hkeeps hrest ih =>
    obtain ⟨l', ps', h', -, hpda, htracker⟩ := pieces_of_drive hs.driven
    rw [h] at h'
    cases h'
    obtain ⟨l₁, ps₁, h₁⟩ := hrest.live
    have hadv : ∃ p, s.pda.advanceAll [b] = .ok p := by
      have hnext := @drive_eq schema .new rfl .start l₁ Lexer.settled_start _ ps₁ h₁
      rw [← freshStart_eq, drive_append, hs.driven, Option.bind_some, drive, feedToken] at hnext
      cases hall : s.pda.advanceAll [b] with
      | ok p => exact ⟨p, rfl⟩
      | error e =>
        rw [hall] at hnext
        cases hnext
    obtain ⟨p, hp⟩ := hadv
    obtain ⟨id, hlt, hid⟩ := hbytes b
    have hbyte : s.grammar.vocab.bytesOrEmpty id = [b] := by rw [Vocab.bytesOrEmpty, hid]; rfl
    have hlegal : s.legal [b] = true := by
      have hkept : legalAt schema (s.tracker.position s.pda.state) s.tracker.narrowPrefix
          s.tracker.emittedColumns [b] = true := by
        rw [htracker, hpda]
        exact hkeeps
      simp only [legal, hs.schema_eq, hkept, Bool.true_and]
      split
      · exact legalFused_of_ne_dot _ (by simp)
      · rfl
    have hallows : s.allows id = true := by
      refine (allows_iff hmemo id).mpr (.inl ⟨hlt, ?_, ?_⟩)
      · rw [hbyte]
        exact Pda.admits_iff.mpr ⟨p, hp⟩
      · rw [hbyte]
        exact hlegal
    have hcall : (s.callAcceptToken id).1 = s.commit [b] p := by
      have hne : id ≠ s.grammar.eosBit := Nat.ne_of_lt hlt
      rw [callAcceptToken_eq, acceptToken, if_neg hne, hid]
      simp only [hp]
    obtain ⟨ids, hids⟩ := ih (s := s.commit [b] p) hbytes (hs.commit hp) (hmemo.commit _ _)
    rw [← hcall] at hids
    exact ⟨id :: ids, hids.cons hallows⟩

theorem Beside.completes {t s : Session} (h : t.Beside s) {ids : List Nat} (ht : t.Completes ids) :
    s.Completes ids := by
  induction ids generalizing t s with
  | nil =>
    refine completes_nil (memoValid_of_none h.syntactic) ?_
    rw [isComplete, ← h.pda]
    exact ht.complete
  | cons id ids ih =>
    have hnext := (h.call (.accept id)).2
    refine .cons (h.allows ht.offered.1) (ih hnext ⟨ht.offered.2, ht.complete, ?_⟩)
    have hgrammar := (vocab_callAcceptToken t id).1
    show ((t.callAcceptToken id).1.after ids).allows (t.callAcceptToken id).1.grammar.eosBit = true
    rw [hgrammar]
    exact ht.eos

/-- The class paths and the store path are paths of identifiers. -/
def PathsFormed (schema : Schema) : Prop := ∀ p ∈ schema.sourcePaths, IsClasspath p

/-- A schema with a store and nothing in it. -/
def emptySchema : Schema := .ofData ⟨letKeyword, ∅, []⟩

theorem pathsFormed_emptySchema : PathsFormed emptySchema := by
  intro p hp
  have hp' : p ∈ [letKeyword] := hp
  rw [List.mem_singleton.mp hp']
  exact .name isIdent_letKeyword

/-- **No dead ends.** Over a vocabulary with every single byte, from every
state a run of calls can reach, with any schema whose paths are well formed
or with none, a continuation of tokens that are all set in the mask at
their turn completes the query. -/
theorem no_dead_ends (g : CompiledGrammar)
    (hbytes : ∀ b : UInt8, ∃ id < g.eosBit, g.vocab.bytes id = some [b]) (schema : Option Schema)
    (hpaths : ∀ s, schema = some s → PathsFormed s) (calls : List Call) :
    ∃ ids, ((build g schema).runCalls calls).1.Completes ids := by
  have hwith : ∀ s, PathsFormed s → ∃ ids, ((build g (some s)).runCalls calls).1.Completes ids := by
    intro s hs
    have hafter := (afterTokens_build g s).runCalls calls
    obtain ⟨l, ps, htoks, -⟩ := pieces_of_drive hafter.driven
    refine completes_of_finishes (finishes hs htoks) ?_ hafter (memoValid_runCalls g s calls)
    have hvocab := vocab_runCalls (build g (some s)) calls
    rw [CompiledGrammar.eosBit, hvocab]
    exact hbytes
  cases schema with
  | some s => exact hwith s (hpaths s rfl)
  | none =>
    obtain ⟨ids, hids⟩ := hwith emptySchema pathsFormed_emptySchema
    exact ⟨ids, ((Beside.build g (some emptySchema)).runCalls calls).2.completes hids⟩

/-! ### Every byte a token -/

def everyByte : Vocab := ⟨(List.range 256).map fun n => [UInt8.ofNat n], 256⟩

theorem bytes_everyByte (b : UInt8) :
    ∃ id < (CompiledGrammar.compile everyByte).eosBit, everyByte.bytes id = some [b] := by
  refine ⟨b.toNat, ?_, ?_⟩
  · have heos : (CompiledGrammar.compile everyByte).eosBit = 256 := by decide +kernel
    rw [heos]
    exact b.toNat_lt
  · have hlt := b.toNat_lt
    simp only [Vocab.bytes, everyByte, List.getElem?_map]
    rw [List.getElem?_range (show b.toNat < 256 from hlt)]
    simp

theorem pathsFormed_sample : PathsFormed .sample := by
  intro p hp
  have hp' : p ∈ [ascii "A", ascii "B", ascii "spider::d::Db"] := hp
  have hname : ∀ n ∈ [ascii "A", ascii "B", ascii "spider", ascii "d", ascii "Db"], IsIdent n := by
    intro n hn
    simp only [List.mem_cons, List.not_mem_nil, or_false] at hn
    rcases hn with rfl | rfl | rfl | rfl | rfl
    all_goals exact ⟨_, _, rfl, by decide, by decide +kernel⟩
  simp only [List.mem_cons, List.not_mem_nil, or_false] at hp'
  rcases hp' with rfl | rfl | rfl
  · exact .name (hname _ (by simp))
  · exact .name (hname _ (by simp))
  · exact .join (.join (.name (hname (ascii "spider") (by simp))) (hname (ascii "d") (by simp)))
      (hname (ascii "Db") (by simp))

/-- After `|A` and a refused end of stream the query can be completed. -/
theorem no_dead_ends_sample : ∃ ids, ((build (.compile everyByte) (some .sample)).runCalls
    [.accept 124, .mask, .accept 65, .accept 256]).1.Completes ids := by
  refine no_dead_ends (.compile everyByte) bytes_everyByte (some .sample) ?_ _
  intro s hs
  cases hs
  exact pathsFormed_sample

end Session

end PureCard
