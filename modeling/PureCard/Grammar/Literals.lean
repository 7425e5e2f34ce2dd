/-
PureCard.Grammar.Literals — the literals the automaton completes are the
literals of the grammar.

A number, a date or a string is read in states of its own, and each of
these states has read a fixed part of a production. `soFar` says which
part, as an expression of the grammar: `needFracDigit` has read an optional
sign, optional digits and a point. Every step inside a literal takes a
sentence of one such part to a sentence of the next (`LiteralStep.soFar`),
so what has been read when a byte outside the literal is accepted is a
sentence of the whole production. Only six of the states accept such a
byte; the others are the literals that are cut short.

The way back is `Derives.read` at the contracts of the productions, with
the space behind the literal as one more terminal.
-/
import PureCard.Grammar.Containment
import PureCard.Grammar.Edges

namespace PureCard

open Pushdown

/-- The productions a lexeme of each kind spells. -/
def literalOf : LexKind → Option Phrase
  | .number => some (Phrase.ref .number)
  | .date => some (Phrase.ref .dateLit ||| Phrase.ref .milestoneLit)
  | .str => some (Phrase.ref .strlit)
  | .ident => none

/-- In some stream the automaton accepts, `w` is a longest run of bytes
inside a lexeme of kind `k`, and a further byte is accepted behind it. -/
def Completed (k : LexKind) (w : Bytes) : Prop :=
  ∃ (u : Bytes) (c d e : State × List Frame) (b : UInt8),
    Pushdown.run step Pda.new.config u = some c ∧ c.1.lexemeKind ≠ some k ∧ w ≠ [] ∧
      InLexeme k c w d ∧ Pushdown.advance step d b = some e ∧ e.1.lexemeKind ≠ some k

/-! ## The part read so far -/

namespace Phrase

def digits : Phrase := digit ++ rep digit

/-- A sign and the digits before the point. -/
def whole : Phrase := opt (t "-") ++ opt digits

def fraction : Phrase := t "." ++ digit ++ rep digit

def expMark : Phrase := anyOf ["e", "E"]

def expSign : Phrase := anyOf ["+", "-"]

end Phrase

open Phrase in
/-- What has been read of a literal in each of its states. -/
def soFar : State → Phrase
  | .sawNumSign => t "-"
  | .inNumberInt => opt (t "-") ++ digits
  | .needFracDigit => whole ++ t "."
  | .inNumberFrac => whole ++ fraction
  | .sawExp => whole ++ (fraction ++ expMark)
  | .needExpDigit => whole ++ (fraction ++ (expMark ++ expSign))
  | .inExp => whole ++ (fraction ++ ref .exp)
  | .inStrLit false => t "'" ++ rep (schar ||| t "''")
  | .inStrLit true => ref .strlit
  | .sawPercent => t "%"
  | .inDateLit => ref .dateLit
  | .inMilestoneLit => ref .milestoneLit
  | _ => .terminal []

/-- The steps inside a literal. -/
inductive LiteralStep : State → UInt8 → State → Prop where
  | signDigit {b} (hb : isAsciiDigit b = true) : LiteralStep .sawNumSign b .inNumberInt
  | signPoint : LiteralStep .sawNumSign Byte.dot .needFracDigit
  | intDigit {b} (hb : isAsciiDigit b = true) : LiteralStep .inNumberInt b .inNumberInt
  | intPoint : LiteralStep .inNumberInt Byte.dot .needFracDigit
  | pointDigit {b} (hb : isAsciiDigit b = true) : LiteralStep .needFracDigit b .inNumberFrac
  | fracDigit {b} (hb : isAsciiDigit b = true) : LiteralStep .inNumberFrac b .inNumberFrac
  | fracMark {b} (hb : b = Byte.e ∨ b = Byte.bigE) : LiteralStep .inNumberFrac b .sawExp
  | markSign {b} (hb : b = Byte.plus ∨ b = Byte.dash) : LiteralStep .sawExp b .needExpDigit
  | markDigit {b} (hb : isAsciiDigit b = true) : LiteralStep .sawExp b .inExp
  | expSignDigit {b} (hb : isAsciiDigit b = true) : LiteralStep .needExpDigit b .inExp
  | expDigit {b} (hb : isAsciiDigit b = true) : LiteralStep .inExp b .inExp
  | char {b} (hb : (b != Byte.quote) = true) : LiteralStep (.inStrLit false) b (.inStrLit false)
  | quote : LiteralStep (.inStrLit false) Byte.quote (.inStrLit true)
  | doubled : LiteralStep (.inStrLit true) Byte.quote (.inStrLit false)
  | percentDate {b} (hb : isDateChar b = true) : LiteralStep .sawPercent b .inDateLit
  | percentLower {b} (hb : isAsciiLowercase b = true) : LiteralStep .sawPercent b .inMilestoneLit
  | dateChar {b} (hb : (isDateChar b || b == Byte.dot) = true) : LiteralStep .inDateLit b .inDateLit
  | lower {b} (hb : isAsciiLowercase b = true) : LiteralStep .inMilestoneLit b .inMilestoneLit

/-- The first byte of a literal and where it leads. -/
inductive LiteralFirst : UInt8 → State → Prop where
  | digit {b} (hb : isAsciiDigit b = true) : LiteralFirst b .inNumberInt
  | minus : LiteralFirst Byte.dash .sawNumSign
  | point : LiteralFirst Byte.dot .needFracDigit
  | quote : LiteralFirst Byte.quote (.inStrLit false)
  | percent : LiteralFirst Byte.percent .sawPercent

/-- Where a literal may have ended. -/
def completeStates : List State := numberEnd ++ [.inStrLit true, .inDateLit, .inMilestoneLit]

/-! ## The steps of the automaton -/

def insideRows : List (State × ByteClass × State) :=
  [(.sawNumSign, .digit, .inNumberInt), (.sawNumSign, .one Byte.dot, .needFracDigit),
   (.inNumberInt, .digit, .inNumberInt), (.inNumberInt, .one Byte.dot, .needFracDigit),
   (.needFracDigit, .digit, .inNumberFrac), (.inNumberFrac, .digit, .inNumberFrac),
   (.inNumberFrac, .one Byte.e, .sawExp), (.inNumberFrac, .one Byte.bigE, .sawExp),
   (.sawExp, .one Byte.plus, .needExpDigit), (.sawExp, .one Byte.dash, .needExpDigit),
   (.sawExp, .digit, .inExp), (.needExpDigit, .digit, .inExp), (.inExp, .digit, .inExp),
   (.inStrLit false, .notQuote, .inStrLit false), (.inStrLit false, .one Byte.quote, .inStrLit true),
   (.inStrLit true, .one Byte.quote, .inStrLit false), (.sawPercent, .dateChar, .inDateLit),
   (.sawPercent, .lower, .inMilestoneLit), (.inDateLit, .dateOrDot, .inDateLit),
   (.inMilestoneLit, .lower, .inMilestoneLit)]

def firstRows : List (ByteClass × State) :=
  [(.digit, .inNumberInt), (.one Byte.dash, .sawNumSign), (.one Byte.dot, .needFracDigit),
   (.one Byte.quote, .inStrLit false), (.one Byte.percent, .sawPercent)]

/-- Into a literal, inside one, and out of one. -/
def literalStepRow (s : State) (c : ByteClass) (s' : State) : Bool :=
  (((s'.lexemeKind.bind literalOf).isNone || s.lexemeKind != s'.lexemeKind ||
      insideRows.contains (s, c, s')) &&
    ((s'.lexemeKind.bind literalOf).isNone || s.lexemeKind == s'.lexemeKind ||
      firstRows.contains (c, s'))) &&
    ((s.lexemeKind.bind literalOf).isNone || s.lexemeKind == s'.lexemeKind ||
      decide (s ∈ completeStates))

theorem checkEdges_literalStepRow : checkEdges literalStepRow = true := by decide +kernel

theorem literalStep_of_row :
    ∀ r ∈ insideRows, ∀ b, r.2.1.has b = true → LiteralStep r.1 b r.2.2 := by
  simp only [insideRows, List.forall_mem_cons, ByteClass.has, beq_iff_eq, forall_eq]
  exact ⟨fun _ => .signDigit, .signPoint, fun _ => .intDigit, .intPoint, fun _ => .pointDigit,
    fun _ => .fracDigit, .fracMark (.inl rfl), .fracMark (.inr rfl), .markSign (.inl rfl),
    .markSign (.inr rfl), fun _ => .markDigit, fun _ => .expSignDigit, fun _ => .expDigit,
    fun _ => .char, .quote, .doubled, fun _ => .percentDate, fun _ => .percentLower,
    fun _ => .dateChar, fun _ => .lower, by simp⟩

theorem literalFirst_of_row :
    ∀ r ∈ firstRows, ∀ b, r.1.has b = true → LiteralFirst b r.2 := by
  simp only [firstRows, List.forall_mem_cons, ByteClass.has, beq_iff_eq, forall_eq]
  exact ⟨fun _ => .digit, .minus, .point, .quote, .percent, by simp⟩

section

variable {c d : State × List Frame} {b : UInt8}

theorem literalStep (h : Pushdown.advance step c b = some d) {k : LexKind} {e : Phrase}
    (he : literalOf k = some e) (hc : c.1.lexemeKind = some k) (hd : d.1.lexemeKind = some k) :
    LiteralStep c.1 b d.1 := by
  obtain ⟨cls, hb, hrow⟩ := advance_check checkEdges_literalStepRow h
  simp only [literalStepRow, hc, hd, Option.bind_some, he] at hrow
  exact literalStep_of_row _ (by simpa using hrow) b hb

theorem literalFirst (h : Pushdown.advance step c b = some d) {k : LexKind} {e : Phrase}
    (he : literalOf k = some e) (hc : c.1.lexemeKind ≠ some k) (hd : d.1.lexemeKind = some k) :
    LiteralFirst b d.1 := by
  obtain ⟨cls, hb, hrow⟩ := advance_check checkEdges_literalStepRow h
  simp only [literalStepRow, hd, Option.bind_some, he, Bool.and_eq_true] at hrow
  exact literalFirst_of_row (cls, d.1) (by simpa [hc] using hrow.1.2) b hb

/-- Only at the end of a literal is a byte outside it accepted. -/
theorem complete_of_leaves (h : Pushdown.advance step c b = some d) {k : LexKind} {e : Phrase}
    (he : literalOf k = some e) (hc : c.1.lexemeKind = some k) (hd : d.1.lexemeKind ≠ some k) :
    c.1 ∈ completeStates := by
  obtain ⟨cls, -, hrow⟩ := advance_check checkEdges_literalStepRow h
  simp only [literalStepRow, hc, Option.bind_some, he, Bool.and_eq_true] at hrow
  simpa [Ne.symm hd] using hrow.2

end

/-! ## Sentences byte by byte -/

section

variable {keys : Phrase → Phrase} {w : Bytes} {b : UInt8}

theorem derives_first {s : State} (h : LiteralFirst b s) :
    Derives (emitted keys) (soFar s) [b] := by
  have hwhole : Derives (emitted keys) Phrase.whole [] := .seq .optNone .optNone
  cases h with
  | digit hb => exact .seq .optNone (.one (derives_class hb))
  | minus => exact derives_text "-"
  | point => exact .seq hwhole (derives_text ".")
  | quote => exact .one (derives_text "'")
  | percent => exact derives_text "%"

theorem derives_step {s s' : State} (h : LiteralStep s b s')
    (hw : Derives (emitted keys) (soFar s) w) : Derives (emitted keys) (soFar s') (w ++ [b]) := by
  cases h with
  | signDigit hb => exact .seq (.optSome hw) (.one (derives_class hb))
  | signPoint =>
    have hwhole : Derives (emitted keys) Phrase.whole w := .without (.optSome hw)
    exact .seq hwhole (derives_text ".")
  | intDigit hb =>
    exact hw.seq_concat fun _ hds => hds.seq_concat fun _ h => h.rep_concat (derives_class hb)
  | intPoint =>
    obtain ⟨sign, ds, rfl, hsign, hds⟩ := hw.of_seq
    exact .seq (.seq hsign (.optSome hds)) (derives_text ".")
  | pointDigit hb =>
    exact hw.seq_concat fun _ hpoint => .one (.seq hpoint (derives_class hb))
  | fracDigit hb =>
    exact hw.seq_concat fun _ hfrac => hfrac.seq_concat fun _ h => h.rep_concat (derives_class hb)
  | fracMark hb =>
    have hmark : Derives (emitted keys) Phrase.expMark [b] := by
      rcases hb with rfl | rfl <;> exact .terminal (by decide)
    exact hw.seq_concat fun _ hfrac => .seq hfrac hmark
  | markSign hb =>
    have hsign : Derives (emitted keys) Phrase.expSign [b] := by
      rcases hb with rfl | rfl <;> exact .terminal (by decide)
    exact hw.seq_concat fun _ hfrac => hfrac.seq_concat fun _ hmark => .seq hmark hsign
  | markDigit hb =>
    refine hw.seq_concat fun _ hfrac => hfrac.seq_concat fun _ hmark => ?_
    exact .rule (.one (.seq (.without hmark) (derives_class hb)))
  | expSignDigit hb =>
    refine hw.seq_concat fun _ hfrac => hfrac.seq_concat fun u hexp => ?_
    obtain ⟨mark, sign, rfl, hmark, hsign⟩ := hexp.of_seq
    exact .rule (.one (.seq (.seq hmark (.optSome hsign)) (derives_class hb)))
  | expDigit hb =>
    refine hw.seq_concat fun _ hfrac => hfrac.seq_concat fun _ hexp => ?_
    exact .rule (hexp.of_rule.seq_concat fun _ h => h.rep_concat (derives_class hb))
  | char hb => exact hw.seq_concat fun _ h => h.rep_concat (.altLeft (derives_class hb))
  | quote => exact .rule (.seq hw (derives_text "'"))
  | doubled =>
    -- the quote that had closed the string is the first half of the pair
    obtain ⟨u, v, rfl, hu, hv⟩ := hw.of_rule.of_seq
    cases hv with
    | terminal hv =>
      cases List.mem_singleton.mp hv
      rw [List.append_assoc]
      exact hu.seq_concat fun _ h => h.rep_concat (.altRight (derives_text "''"))
  | percentDate hb => exact .rule (.one (.seq hw (derives_class hb)))
  | percentLower hb => exact .rule (.one (.seq hw (derives_class hb)))
  | dateChar hb =>
    have hchar : Derives (emitted keys) (Phrase.dateChar ||| Phrase.t ".") [b] := by
      rw [Bool.or_eq_true, beq_iff_eq] at hb
      rcases hb with hb | rfl
      · exact .altLeft (derives_class hb)
      · exact .altRight (derives_text ".")
    exact .rule (hw.of_rule.seq_concat fun _ h => h.rep_concat hchar)
  | lower hb => exact .rule (hw.of_rule.seq_concat fun _ h => h.rep_concat (derives_class hb))

/-- A number with a fraction. -/
theorem derives_number {u v : Bytes} (hu : Derives (emitted keys) Phrase.whole u)
    (hv : Derives (emitted keys) (Phrase.ref .frac) v) :
    Derives (emitted keys) (Phrase.ref .number) (u ++ v) := by
  obtain ⟨sign, ds, rfl, hsign, hds⟩ := hu.of_seq
  rw [List.append_assoc]
  cases hds with
  | optNone => exact .rule (.seq hsign (.altRight hv))
  | optSome hds => exact .rule (.seq hsign (.altLeft (.seq hds (.optSome hv))))

/-- What has been read where a literal may end is a sentence of its
production. -/
theorem derives_complete {s : State} (hs : s ∈ completeStates) {k : LexKind} {e : Phrase}
    (hk : s.lexemeKind = some k) (he : literalOf k = some e)
    (hw : Derives (emitted keys) (soFar s) w) : Derives (emitted keys) e w := by
  simp only [completeStates, numberEnd, List.mem_append, List.mem_cons, List.not_mem_nil,
    or_false] at hs
  rcases hs with (rfl | rfl | rfl) | rfl | rfl | rfl <;> cases hk <;> cases he
  · obtain ⟨sign, ds, rfl, hsign, hds⟩ := hw.of_seq
    exact .rule (.seq hsign (.altLeft (.without hds)))
  · obtain ⟨u, v, rfl, hu, hv⟩ := hw.of_seq
    exact derives_number hu (.rule (.without hv))
  · obtain ⟨u, v, rfl, hu, hv⟩ := hw.of_seq
    obtain ⟨frac, exp, rfl, hfrac, hexp⟩ := hv.of_seq
    exact derives_number hu (.rule (.seq hfrac (.optSome hexp)))
  · exact hw
  · exact .altLeft hw
  · exact .altRight hw

/-- Inside a literal the part read so far grows with every byte. -/
theorem derives_inLexeme {c d : State × List Frame} {k : LexKind} {e : Phrase}
    (he : literalOf k = some e) {v : Bytes} (h : InLexeme k c v d) (hc : c.1.lexemeKind = some k)
    (hw : Derives (emitted keys) (soFar c.1) w) :
    Derives (emitted keys) (soFar d.1) (w ++ v) :=
  h.invariant (I := fun c w => Derives (emitted keys) (soFar c.1) w)
    (fun hc hw hstep hd => derives_step (literalStep hstep he hc hd) hw) hc hw

/-- **A completed literal is a sentence of its production.** -/
theorem Completed.derives {k : LexKind} {e : Phrase} (he : literalOf k = some e)
    (h : Completed k w) : Derives (emitted keys) e w := by
  obtain ⟨_, c, d, c', b, -, hc, hne, hread, hstep, hout⟩ := h
  have hd := hread.last hne
  obtain ⟨a, v, rfl⟩ := List.exists_cons_of_ne_nil hne
  cases hread with
  | @cons _ e₁ _ _ _ hfirst hk hrest =>
    have hopen : Derives (emitted keys) (soFar e₁.1) [a] :=
      derives_first (literalFirst hfirst he hc hk)
    exact derives_complete (complete_of_leaves hstep he hd hout) hd he
      (derives_inLexeme he hrest hk hopen)

end

/-! ## Sentences are read -/

/-- **A literal and a space are read to `AfterValue`**, over any stack. -/
theorem advanceAll_literal {s : State} (hs : s ∈ itemStart) (stack : List Frame) {k : LexKind}
    {e : Phrase} (he : literalOf k = some e) {w : Bytes} (h : Derives (emitted Phrase.opt) e w) :
    (⟨s, stack⟩ : Pda).advanceAll (w ++ [Byte.space]) = .ok ⟨.afterValue, stack⟩ := by
  have himage : image step contracts (e ++ Phrase.t " ") ⟨itemStart, []⟩
      = some ⟨[.afterValue], []⟩ := by
    cases k <;> cases he <;> rfl
  have hspace : Derives (emitted Phrase.opt) (e ++ Phrase.t " ") (w ++ [Byte.space]) :=
    .seq h (derives_text " ")
  obtain ⟨s', hs', hrun⟩ := Derives.read step_framed emitted_meets hspace himage stack s hs
  have hafter : s' = .afterValue := by simpa using hs'
  subst hafter
  exact Pda.advanceAll_eq_ok.mpr hrun

/-- What no literal followed by a space can be is never completed. -/
theorem not_completed {k : LexKind} {e : Phrase} (he : literalOf k = some e) {w : Bytes}
    (hdead : (Pda.pinned .expectValue).admits (w ++ [Byte.space]) = false) : ¬ Completed k w := by
  intro h
  have hread := advanceAll_literal (s := .expectValue) (by decide) [] he (h.derives he)
  have hadmits := Pda.admits_iff.mpr ⟨_, hread⟩
  rw [show (⟨.expectValue, []⟩ : Pda) = Pda.pinned .expectValue from rfl, hdead] at hadmits
  cases hadmits

/-- **Literal lexemes are the specified ones.** -/
theorem literals_exact :
    (∀ (k : LexKind) (e : Phrase) (w : Bytes), literalOf k = some e → Completed k w →
        Derives (emitted Phrase.opt) e w) ∧
      (∀ s ∈ itemStart, ∀ (stack : List Frame) (k : LexKind) (e : Phrase) (w : Bytes),
        literalOf k = some e → Derives (emitted Phrase.opt) e w →
          (⟨s, stack⟩ : Pda).advanceAll (w ++ [Byte.space]) = .ok ⟨.afterValue, stack⟩) ∧
      ∀ k ∈ [LexKind.number, .date, .str], ∀ w ∈ ["1.", "-", "--5", "1.5e", ".", "%"],
        ¬ Completed k (ascii w) := by
  refine ⟨fun k e w he h => h.derives he,
    fun s hs stack k e w he h => advanceAll_literal hs stack he h, ?_⟩
  intro k hk w hw
  have hdead : ∀ w ∈ ["1.", "-", "--5", "1.5e", ".", "%"],
      (Pda.pinned .expectValue).admits (ascii w ++ [Byte.space]) = false := by decide +kernel
  have hsome : ∀ k ∈ [LexKind.number, .date, .str], (literalOf k).isSome = true := by decide
  obtain ⟨e, he⟩ := Option.isSome_iff_exists.mp (hsome k hk)
  exact not_completed he (hdead w hw)

example : Completed .number (ascii "5") :=
  ⟨ascii "|A.all()->take(", (.expectValue, [.paren]), (.inNumberInt, [.paren]), (.afterValue, []),
    Byte.rparen, by rfl, by decide, by decide, .cons rfl rfl (.nil _), by rfl, by decide⟩

end PureCard
