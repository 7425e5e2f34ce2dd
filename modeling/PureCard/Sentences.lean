/-
PureCard.Sentences — a query, lexeme by lexeme.

The token lanes cut a query into its lexemes (`tests/support/lex.rs`) and a
model's tokenizer cuts names, literals and blanks further, or glues them to
what stands beside them. An `Item` is a lexeme or a run of whitespace, and
`Item.Tokens` are the pieces it may come in by itself.

A `Point` is where a stream stands once the lexeme in flight has been read
too, and a `Passage` one item that the automaton reads and the rules admit.
`Goes p items q` is a way of passages. That every token of such a way is
one the rules keep is seen item by item: `Passage.reaches` for tokens that
end where their item does; `Seams` has the tokens that run on.
-/
import PureCard.Emission
import PureCard.NamePieces
import PureCard.FusedDots

namespace PureCard

open Pushdown Completion ScopeTracker

/-! ## Items -/

/-- A lexeme of a query, or the whitespace between two. -/
inductive Item where
  | mark (text : Bytes)
  | word (text : Bytes)
  | blank (text : Bytes)

def Item.text : Item → Bytes
  | .mark text | .word text | .blank text => text

/-- The tokens an item may come in: punctuation is whole, names, literals
and whitespace are cut anywhere. -/
inductive Item.Tokens : Item → List Bytes → Prop where
  | mark (m : Bytes) : Tokens (.mark m) [m]
  | word {w : Bytes} {toks : List Bytes} (h : toks.flatten = w) (hne : ∀ t ∈ toks, t ≠ []) :
      Tokens (.word w) toks
  | blank {w : Bytes} {toks : List Bytes} (h : toks.flatten = w) (hne : ∀ t ∈ toks, t ≠ []) :
      Tokens (.blank w) toks

theorem Item.Tokens.flatten {i : Item} {toks : List Bytes} (h : i.Tokens toks) :
    toks.flatten = i.text := by
  cases h with
  | mark m => simp [Item.text]
  | word h _ => exact h
  | blank h _ => exact h

theorem Item.Tokens.of_mark {m : Bytes} {toks : List Bytes} (h : (Item.mark m).Tokens toks) :
    toks = [m] := by
  cases h
  rfl

/-- The parts of a word or of whitespace. -/
theorem Item.Tokens.parts {i : Item} {toks : List Bytes} (h : i.Tokens toks)
    (hm : ∀ m, i ≠ .mark m) : toks.flatten = i.text ∧ ∀ t ∈ toks, t ≠ [] := by
  cases h with
  | mark m => exact absurd rfl (hm m)
  | word h hne | blank h hne => exact ⟨h, hne⟩

/-! ## Tokens the rules keep -/

/-- Behind the tokens the rules of the schema keep `tok`. -/
def Passes (schema : Schema) (toks : List Bytes) (tok : Bytes) : Prop :=
  ∀ p t, drive schema freshStart toks = some (p, t) →
    legalAt schema (t.position p.state) t.narrowPrefix t.emittedColumns tok = true ∧
      ∀ pos, t.fusedNavPosition schema = some pos →
        legalFused schema pos t.emittedColumns tok = true

section

variable {schema : Schema} {toks : List Bytes} {l : Lexer} {ps : List Piece}

theorem Passes.legal {tok : Bytes} (h : Passes schema toks tok) {s : Session}
    (hs : s.AfterTokens schema toks) : s.legal tok = true := by
  obtain ⟨hlegal, hfused⟩ := h s.pda s.tracker hs.driven
  simp only [Session.legal, hs.schema_eq, Bool.and_eq_true]
  refine ⟨hlegal, ?_⟩
  cases hpos : s.tracker.fusedNavPosition schema with
  | none => rfl
  | some pos => exact hfused pos hpos

/-- What a cut has driven the session to. -/
theorem drive_of_tokens (schema : Schema) (h : Lexer.start.tokens toks = some (l, ps)) :
    drive schema freshStart toks = some (l.pda, (new.dispatchAll ps schema).hold l) := by
  rw [freshStart_eq]
  exact drive_eq rfl Lexer.settled_start h

theorem passes_of {tok : Bytes} (h : Lexer.start.tokens toks = some (l, ps))
    (hlegal : legalAt schema (((new.dispatchAll ps schema).hold l).position l.state)
      ((new.dispatchAll ps schema).hold l).narrowPrefix
      (new.dispatchAll ps schema).emittedStrings tok = true)
    (hfused : ∀ pos, ((new.dispatchAll ps schema).hold l).fusedNavPosition schema = some pos →
      legalFused schema pos (new.dispatchAll ps schema).emittedStrings tok = true) :
    Passes schema toks tok := by
  intro p t hdrive
  rw [drive_of_tokens schema h] at hdrive
  cases hdrive
  exact ⟨hlegal, hfused⟩

/-! ### Fused navigations -/

/-- A fused navigation passes where its dot and its name do. -/
theorem legalFused_of_split (h : Lexer.start.tokens toks = some (l, ps)) {st : List Frame}
    (hdot : Pushdown.advance step (l.state, l.stack) Byte.dot = some (.afterDot, st)) {b : UInt8}
    {u : Bytes} (hb : isIdentStart b = true) (hnext : Passes schema (toks ++ [[Byte.dot]]) (b :: u))
    {pos : L2Position}
    (hpos : ((new.dispatchAll ps schema).hold l).fusedNavPosition schema = some pos) :
    legalFused schema pos (new.dispatchAll ps schema).emittedStrings (Byte.dot :: b :: u) = true := by
  obtain ⟨t, hdrive, hrule, hpfx, hcolumns⟩ := @behind_dot schema _ _ _ h _ hdot
  obtain ⟨hlegal, -⟩ := hnext _ _ hdrive
  rw [hrule, hpfx, hcolumns] at hlegal
  by_cases hforeseen : ((new.dispatchAll ps schema).hold l).Foreseen
  · obtain ⟨hagree, hsame⟩ := foreseen_closed h hforeseen
    have hruled := ruled_ruleAtDot ((new.dispatchAll ps schema).dispatchAll l.pieces schema)
    rw [hagree, hsame, hpos, Option.getD_some] at hlegal
    rw [hagree, hpos, Option.getD_some] at hruled
    rw [legalFused_dot hruled hb]
    exact hlegal
  · rw [(unforeseen_closed h hdot hforeseen).2] at hpos
    cases hpos

/-- If the token is a fused navigation, its two halves pass. -/
def Splits (schema : Schema) (toks : List Bytes) (c : State × List Frame) (tok : Bytes) : Prop :=
  ∀ b u, tok = Byte.dot :: b :: u → isIdentStart b = true →
    (∃ st, Pushdown.advance step c Byte.dot = some (.afterDot, st)) ∧
      Passes schema (toks ++ [[Byte.dot]]) (b :: u)

theorem splits_of_plain {tok : Bytes}
    (hplain : ∀ b u, tok = Byte.dot :: b :: u → isIdentStart b = false) (c : State × List Frame) :
    Splits schema toks c tok := by
  intro b u hcons hb
  rw [hplain b u hcons] at hb
  cases hb

theorem Splits.fused (h : Lexer.start.tokens toks = some (l, ps)) {tok : Bytes}
    (hsplit : Splits schema toks (l.state, l.stack) tok) {pos : L2Position}
    (hpos : ((new.dispatchAll ps schema).hold l).fusedNavPosition schema = some pos) :
    legalFused schema pos (new.dispatchAll ps schema).emittedStrings tok = true := by
  by_cases hnav : ∃ b u, tok = Byte.dot :: b :: u ∧ isIdentStart b = true
  · obtain ⟨b, u, rfl, hb⟩ := hnav
    obtain ⟨⟨st, hdot⟩, hnext⟩ := hsplit b u rfl hb
    exact legalFused_of_split h hdot hb hnext hpos
  · exact legalFused_of_ne_dot pos fun b u hcons => by
      rw [Bool.eq_false_iff]
      exact fun hb => hnav ⟨b, u, hcons, hb⟩

/-! ### Punctuation and whitespace -/

/-- The token goes on with no name and opens no literal. -/
structure Outside (tok : Bytes) : Prop where
  first : ∃ b u, tok = b :: u ∧ isIdentTail b = false ∧ b ≠ Byte.quote ∧ b ≠ Byte.percent
  negative : ∀ c u, tok = Byte.dash :: c :: u → isAsciiDigit c = false

/-- A token is kept as an operand by its first byte. -/
theorem keeps_of_first {b : UInt8} {u : Bytes} {tc : TypeClass} (hquote : b = Byte.quote → tc = .str)
    (hpercent : b = Byte.percent → tc = .temporal) (hdigit : isAsciiDigit b = true → tc = .numeric)
    (hdash : ∀ c v, b :: u = Byte.dash :: c :: v → isAsciiDigit c = true → tc = .numeric) :
    keepsOperand (classify (b :: u)) tc = true := by
  rcases classify_shape (b :: u) with ⟨-, hlex⟩ | ⟨_, _, -, -, hlex⟩ | ⟨_, -, -, hlex⟩ |
    ⟨c, v, hsame, hlex⟩
  · rw [hlex]
    rfl
  · simp only [List.mem_cons, List.not_mem_nil, or_false] at hlex
    rcases hlex with hlex | hlex <;> (rw [hlex]; rfl)
  · cases hmark : classify (b :: u) <;> simp_all [Lexeme.isMark, keepsOperand]
  · obtain ⟨rfl, rfl⟩ := List.cons.inj hsame
    rw [hlex, classifyFirst]
    split
    · simp [keepsOperand, hquote ‹_›]
    · split
      · simp [keepsOperand, hpercent ‹_›]
      · split
        · rename_i hnumber
          have htc : tc = .numeric := by
            rw [Bool.or_eq_true, Bool.and_eq_true, beq_iff_eq] at hnumber
            rcases hnumber with hb | ⟨rfl, hnext⟩
            · exact hdigit hb
            · cases u with
              | nil => cases hnext
              | cons c u => exact hdash c u rfl hnext
          simp [keepsOperand, htc]
        · split <;> rfl

/-- It is no operand. -/
theorem Outside.operand {tok : Bytes} (h : Outside tok) (tc : TypeClass) :
    keepsOperand (classify tok) tc = true := by
  obtain ⟨b, u, rfl, htail, hquote, hpercent⟩ := h.first
  have hdigit : isAsciiDigit b = false := by
    grind [isIdentTail, isAsciiAlphanumeric]
  refine keeps_of_first (fun hb => absurd hb hquote) (fun hb => absurd hb hpercent) (fun hb => ?_)
    fun c v hcons hc => ?_
  · rw [hdigit] at hb
    cases hb
  · rw [h.negative c v hcons] at hc
    cases hc

/-- Where no lexeme is open the rules keep what is outside names. -/
theorem passes_gap (h : Lexer.start.tokens toks = some (l, ps)) (hgap : l.state.lexemeKind = none)
    {tok : Bytes} (hout : Outside tok) (hsplit : Splits schema toks (l.state, l.stack) tok) :
    Passes schema toks tok := by
  refine passes_of h ?_ fun pos hpos => hsplit.fused h hpos
  obtain ⟨b, u, rfl, htail, hquote, -⟩ := hout.first
  obtain ⟨hpos, hpfx⟩ := position_gap (new.dispatchAll ps schema) hgap
  rw [hpos, hpfx]
  cases hcase : (new.dispatchAll ps schema).openingPosition l.state with
  | none => rfl
  | reValue tc =>
    have hkeep := hout.operand tc
    cases tc <;> first | rfl | exact hkeep
  | sourceIdent => exact keeps_of_not_tail rule_sourceIdent [] htail u
  | member cls => exact keeps_of_not_tail rule_member [] htail u
  | relationColumn => exact keeps_of_not_tail rule_relationColumn [] htail u
  | column =>
    rw [legalAt_rule rule_column, keepsFrom_iff]
    intro _ hcand
    simp [isCandidate, hquote] at hcand

/-- The lexeme in flight is a quoted column where quoted columns stand, or
is none there. -/
def Lexer.ColumnRead (l : Lexer) (t : ScopeTracker) : Prop :=
  t.carriedPosition l.anchor = .column →
    l.seg ∈ t.emittedStrings.map quote ∨ ¬ Live {n | n ∈ t.emittedStrings.map quote} l.seg

/-- Behind a lexeme in flight the rules keep what is outside names. -/
theorem passes_flying (h : Lexer.start.tokens toks = some (l, ps)) {k : LexKind}
    (hk : l.state.lexemeKind = some k) (hseg : l.seg ≠ [])
    (hread : l.ColumnRead (new.dispatchAll ps schema)) {tok : Bytes} (hout : Outside tok)
    (hsplit : Splits schema toks (l.state, l.stack) tok) : Passes schema toks tok := by
  refine passes_of h ?_ fun pos hpos => hsplit.fused h hpos
  obtain ⟨b, u, rfl, htail, hquote, -⟩ := hout.first
  obtain ⟨hpos, hpfx⟩ := position_flying (new.dispatchAll ps schema) hk
  rw [hpos, hpfx]
  cases hcase : (new.dispatchAll ps schema).carriedPosition l.anchor with
  | none => rfl
  | reValue tc => exact absurd hcase ((ruled_carriedPosition _ _).2 tc)
  | sourceIdent => exact keeps_of_not_tail rule_sourceIdent _ htail u
  | member cls => exact keeps_of_not_tail rule_member _ htail u
  | relationColumn => exact keeps_of_not_tail rule_relationColumn _ htail u
  | column =>
    rcases hread hcase with hmem | hdead
    · obtain ⟨c, hc, hquoted⟩ := List.mem_map.mp hmem
      rw [legalAt_rule rule_column, keepsFrom_iff]
      intro _ _
      refine verdict_ne_off_of_ended hmem (fun hlive => hquote ?_) htail u
      rw [← hquoted] at hlive
      exact quote_of_live_quote hlive
    · exact keeps_of_not_live rule_column hseg hdead _

/-! ### Names and literals -/

/-- The byte `c` goes on with no name and no literal. -/
def EndsWord (c : UInt8) : Prop := isIdentTail c = false ∧ c ≠ Byte.quote ∧ c ≠ Byte.colon

/-- Behind the front `u` of the word `w` the token `x` goes on with it: to
some place inside, or beyond its end. -/
inductive Continues (w u : Bytes) : Bytes → Prop where
  | inside {x v : Bytes} (h : w = u ++ x ++ v) : Continues w u x
  | beyond {f : Bytes} {c : UInt8} {v : Bytes} (h : w = u ++ f) (hf : f ≠ []) (hc : EndsWord c) :
      Continues w u (f ++ c :: v)

theorem Continues.head {w x : Bytes} (h : Continues w [] x) (hx : x ≠ []) : x.head? = w.head? := by
  cases h with
  | inside h =>
    obtain ⟨b, x, rfl⟩ := List.exists_cons_of_ne_nil hx
    rw [h]
    rfl
  | beyond h hf _ =>
    obtain ⟨b, f, rfl⟩ := List.exists_cons_of_ne_nil hf
    rw [h]
    rfl

/-- A lexeme that the rule of its position keeps in every cut. -/
inductive Admits (schema : Schema) (t : ScopeTracker) (s : State) (w : Bytes) : Prop where
  | free (h : t.openingPosition s = .none)
  | named (h : LegalName schema t.emittedStrings (t.openingPosition s) w)
      (hrow : t.openingPosition s ≠ .relationColumn)
  | operand {tc : TypeClass} (h : t.openingPosition s = .reValue tc)
      (hkept : ∀ x, x.head? = w.head? → keepsOperand (classify x) tc = true)
  | beside (h : t.openingPosition s = .column) (hfirst : w.head? ≠ some Byte.quote)

/-- No column begins like a word that is not quoted. -/
theorem not_live_of_head {columns : List Bytes} {b : UInt8} (hb : b ≠ Byte.quote) (u : Bytes) :
    ¬ Live {n | n ∈ columns.map quote} (b :: u) := by
  rintro ⟨n, hn, hpre⟩
  obtain ⟨c, _, rfl⟩ := List.mem_map.mp hn
  rw [quote_eq, List.cons_append, List.cons_prefix_cons] at hpre
  exact hb hpre.1

/-- Legal names are kept in every cut. -/
theorem LegalName.continues (hformed : NamesFormed schema) {columns : List Bytes} {pos : L2Position}
    {w u x : Bytes} (h : LegalName schema columns pos w) (hrow : pos ≠ .relationColumn)
    (hx : Continues w u x) : legalAt schema pos u columns x = true := by
  cases hx with
  | inside hsplit => exact h.keeps_piece hsplit.symm
  | beyond hsplit hf hc =>
    exact (h.keeps_end_iff hformed hsplit.symm hf hc.1 hc.2.1 hc.2.2 _).mpr fun hoff => hrow hoff.1

section

variable {t : ScopeTracker} {s : State} {w u x : Bytes}

/-- The first token of the lexeme. -/
theorem Admits.opens (hformed : NamesFormed schema) (h : Admits schema t s w)
    (hx : Continues w [] x) (hne : x ≠ []) :
    legalAt schema (t.openingPosition s) [] t.emittedStrings x = true := by
  cases h with
  | free h =>
    rw [h]
    rfl
  | named h hrow => exact h.continues hformed hrow hx
  | @operand tc h hkept =>
    have hkeep := hkept x (hx.head hne)
    rw [h]
    cases tc <;> first | rfl | exact hkeep
  | beside h hfirst =>
    rw [← hx.head hne] at hfirst
    obtain ⟨b, x, rfl⟩ := List.exists_cons_of_ne_nil hne
    have hb : b ≠ Byte.quote := by simpa using hfirst
    rw [h, legalAt_rule rule_column, keepsFrom_iff]
    intro _ hcand
    simp [isCandidate, hb] at hcand

/-- A front of a lexeme that is not quoted is no front of a column. -/
theorem not_live_of_front {columns : List Bytes} (hfirst : w.head? ≠ some Byte.quote)
    (hu : u <+: w) (hne : u ≠ []) : ¬ Live {n | n ∈ columns.map quote} u := by
  obtain ⟨v, rfl⟩ := hu
  obtain ⟨b, u, rfl⟩ := List.exists_cons_of_ne_nil hne
  exact not_live_of_head (fun hb => hfirst (by rw [hb]; rfl)) u

theorem Continues.front (h : Continues w u x) : u <+: w := by
  cases h with
  | inside h =>
    rw [h, List.append_assoc]
    exact List.prefix_append ..
  | beyond h _ _ =>
    rw [h]
    exact List.prefix_append ..

/-- A further token of it. -/
theorem Admits.goes_on (hformed : NamesFormed schema) (h : Admits schema t s w)
    (hx : Continues w u x) (hu : u ≠ []) :
    legalAt schema (t.carriedPosition s) u t.emittedStrings x = true := by
  cases h with
  | free h =>
    rw [carriedPosition, h]
    rfl
  | named h hrow =>
    have hcarried : t.carriedPosition s = t.openingPosition s := by
      rw [carriedPosition]
      cases hpos : t.openingPosition s with
      | reValue tc =>
        rw [hpos] at h
        cases h
      | _ => rfl
    rw [hcarried]
    exact h.continues hformed hrow hx
  | operand h _ =>
    rw [carriedPosition, h]
    rfl
  | beside h hfirst =>
    rw [carriedPosition, h]
    exact keeps_of_not_live rule_column hu (not_live_of_front hfirst hx.front hu) x

/-- Behind the whole lexeme. -/
theorem Admits.columnRead (h : Admits schema t s w) (hw : w ≠ []) {l : Lexer} (hseg : l.seg = w)
    (hanchor : l.anchor = s) : l.ColumnRead t := by
  intro hcolumn
  rw [hanchor, carriedPosition] at hcolumn
  rw [hseg]
  have hopen : t.openingPosition s = .column := by
    split at hcolumn
    · cases hcolumn
    · exact hcolumn
  cases h with
  | free h =>
    rw [h] at hopen
    cases hopen
  | named h _ =>
    rw [hopen] at h
    cases h with
    | column hc => exact .inl (List.mem_map_of_mem hc)
  | operand h _ =>
    rw [h] at hopen
    cases hopen
  | beside _ hfirst => exact .inr (not_live_of_front hfirst List.prefix_rfl hw)

end

end

/-! ## Points of a stream -/

/-- The automaton, and the tracker with the lexeme in flight read. -/
structure Point where
  state : State
  stack : List Frame
  tracker : ScopeTracker

section

variable {schema : Schema}

/-- Behind the tokens the stream is at the point; the rules have kept every
token so far and keep whatever is outside names next. -/
structure Reaches (schema : Schema) (toks : List Bytes) (p : Point) : Prop where
  passed : ∀ front tok rest, toks = front ++ tok :: rest → Passes schema front tok
  leaves : ∀ tok, Outside tok → Splits schema toks (p.state, p.stack) tok → Passes schema toks tok
  read : ∃ l ps, Lexer.start.tokens toks = some (l, ps) ∧ l.state = p.state ∧ l.stack = p.stack ∧
    new.dispatchAll (ps ++ l.pieces) schema = p.tracker

theorem reaches_start (schema : Schema) : Reaches schema [] ⟨.start, [], .new⟩ where
  passed front tok rest h := by simp at h
  leaves tok hout hsplit :=
    passes_gap (show Lexer.start.tokens [] = some (.start, []) from rfl) rfl hout hsplit
  read := ⟨.start, [], rfl, rfl, rfl, rfl⟩

/-- A further token that the rules keep. -/
theorem passed_concat {toks : List Bytes} {tok : Bytes}
    (h : ∀ front t rest, toks = front ++ t :: rest → Passes schema front t)
    (htok : Passes schema toks tok) :
    ∀ front t rest, toks ++ [tok] = front ++ t :: rest → Passes schema front t := by
  intro front t rest hsplit
  rcases List.eq_nil_or_concat rest with rfl | ⟨rest, last, rfl⟩
  · obtain ⟨rfl, hlast⟩ := List.append_inj' hsplit rfl
    cases hlast
    exact htok
  · rw [List.concat_eq_append, ← List.cons_append, ← List.append_assoc] at hsplit
    exact h front t rest (List.append_inj' hsplit rfl).1

/-! ### Tokens of punctuation and whitespace -/

/-- A token that runs through gaps only. -/
theorem Lexer.feed_gap {l : Lexer} (hsettled : l.Settled) {tok : Bytes} (hne : tok ≠ [])
    {c : State × List Frame}
    (h : RunsIn step (fun s => s.lexemeKind = none) (l.state, l.stack) tok c) :
    l.feed tok = some (⟨c.1, c.2, tok, l.state⟩, l.pieces) := by
  have hrest : ∀ (u : Bytes) (d : Lexer), d.state.lexemeKind = none →
      RunsIn step (fun s => s.lexemeKind = none) (d.state, d.stack) u c →
      d.feed u = some (⟨c.1, c.2, d.seg ++ u, d.anchor⟩, []) := by
    intro u
    induction u with
    | nil =>
      intro d _ hrun
      cases hrun
      simp [feed]
    | cons b u ih =>
      intro d hd hrun
      cases hrun with
      | @cons _ e _ _ _ hstep he hmore =>
        have hsame : d.state.lexemeKind = e.1.lexemeKind := hd.trans he.symm
        rw [feed, hstep]
        dsimp only
        rw [read_same b hsame, completed_same hsame, ih ⟨e.1, e.2, d.seg ++ [b], d.anchor⟩ he hmore]
        simp
  obtain ⟨b, u, rfl⟩ := List.exists_cons_of_ne_nil hne
  cases h with
  | @cons _ d _ _ _ hstep hd hmore =>
    have hopened : l.read b d = ⟨d.1, d.2, [b], l.state⟩ ∧ l.completed d = l.pieces := by
      cases hgap : l.state.lexemeKind with
      | some k =>
        have hother : l.state.lexemeKind ≠ d.1.lexemeKind := by simp [hgap, hd]
        exact ⟨read_other b hother, completed_other hother⟩
      | none =>
        have hsame : l.state.lexemeKind = d.1.lexemeKind := hgap.trans hd.symm
        obtain ⟨hseg, hanchor⟩ := hsettled hgap
        rw [read_same b hsame, completed_same hsame, pieces, hgap, hseg, hanchor]
        exact ⟨rfl, rfl⟩
    rw [feed, hstep]
    dsimp only
    rw [hopened.1, hopened.2, hrest u ⟨d.1, d.2, [b], l.state⟩ hd hmore]
    simp

theorem Lexer.token_gap {l : Lexer} (hsettled : l.Settled) {tok : Bytes} (hne : tok ≠ [])
    {c : State × List Frame}
    (h : RunsIn step (fun s => s.lexemeKind = none) (l.state, l.stack) tok c) :
    l.token tok = some (⟨c.1, c.2, [], c.1⟩, l.pieces ++ gapPieces tok l.state) := by
  rw [token, feed_gap hsettled hne h]
  simp [cut, cutPieces, h.last hne, pieces]

/-- A token outside names that runs through gaps. -/
theorem Reaches.gap {toks : List Bytes} {p : Point} (h : Reaches schema toks p) {tok : Bytes}
    (hout : Outside tok) (hplain : ∀ b u, tok = Byte.dot :: b :: u → isIdentStart b = false)
    {c : State × List Frame}
    (hrun : RunsIn step (fun s => s.lexemeKind = none) (p.state, p.stack) tok c) :
    Reaches schema (toks ++ [tok])
      ⟨c.1, c.2, p.tracker.dispatchAll (gapPieces tok p.state) schema⟩ := by
  obtain ⟨l, ps, htoks, hstate, hstack, htracker⟩ := h.read
  have hne : tok ≠ [] := by
    obtain ⟨b, u, rfl, _⟩ := hout.first
    simp
  rw [← hstate, ← hstack] at hrun
  have htok := Lexer.token_gap (Lexer.settled_tokens Lexer.settled_start htoks) hne hrun
  have hall := Lexer.tokens_concat htoks htok
  refine ⟨passed_concat h.passed (h.leaves tok hout (splits_of_plain hplain _)),
    fun tok' => passes_gap hall (hrun.last hne), _, _, hall, rfl, rfl, ?_⟩
  have hempty : (⟨c.1, c.2, [], c.1⟩ : Lexer).pieces = [] := by
    rw [Lexer.pieces, hrun.last hne]
    rfl
  rw [hempty, List.append_nil, ← List.append_assoc, dispatchAll_append, htracker, hstate]

/-- Punctuation: a byte or an operator of two. -/
structure IsMark (m : Bytes) : Prop where
  outside : Outside m
  unkeyed : ∀ b ∈ m, isIdentStart b = false
  shape : (∃ b, m = [b] ∧ isAsciiWhitespace b = false ∧ b ≠ Byte.dash) ∨
    ∃ a b, m = [a, b] ∧ isTwoByteOp a b = true

theorem IsMark.gapTokens_eq {m : Bytes} (h : IsMark m) : gapTokens m = [m] := by
  rcases h.shape with ⟨b, rfl, hws, -⟩ | ⟨a, b, rfl, hop⟩
  · rw [gapTokens_single hws rfl (h.unkeyed b (by simp)), gapTokens_nil]
  · rw [gapTokens_op hop, gapTokens_nil]

theorem IsMark.plain {m : Bytes} (h : IsMark m) (b : UInt8) (u : Bytes)
    (hcons : m = Byte.dot :: b :: u) : isIdentStart b = false :=
  h.unkeyed b (by simp [hcons])

theorem outside_of_ws {b : UInt8} (hb : isWs b = true) (u : Bytes) : Outside (b :: u) := by
  have htail : isIdentTail b = false := by
    grind [isWs, isIdentTail, isAsciiAlphanumeric, isAsciiAlphabetic, isAsciiLowercase, isAsciiDigit]
  refine ⟨⟨b, u, rfl, htail, ?_, ?_⟩, ?_⟩
  · rintro rfl
    cases hb
  · rintro rfl
    cases hb
  · rintro c v hcons
    obtain ⟨rfl, -⟩ := List.cons.inj hcons
    cases hb

theorem plain_of_ws {b : UInt8} (hb : isWs b = true) (u : Bytes) (c : UInt8) (v : Bytes)
    (hcons : b :: u = Byte.dot :: c :: v) : isIdentStart c = false := by
  obtain ⟨rfl, -⟩ := List.cons.inj hcons
  cases hb

/-- Whitespace that leads to the state `s` and stays there. -/
structure Waits (c : State × List Frame) (w : Bytes) (s : State) : Prop where
  nonempty : w ≠ []
  ws : ∀ b ∈ w, isWs b = true
  gap : s.lexemeKind = none
  first : ∀ b, isWs b = true → step c.1 c.2.head? b = .next s
  stay : ∀ b, isWs b = true → step s c.2.head? b = .next s

theorem Waits.runs {c : State × List Frame} {w : Bytes} {s : State} (h : Waits c w s) {u : Bytes}
    (hu : u ≠ []) (hws : ∀ b ∈ u, isWs b = true) {q : State} (hq : q = c.1 ∨ q = s) :
    RunsIn step (fun s => s.lexemeKind = none) (q, c.2) u (s, c.2) := by
  have hadv : ∀ q, q = c.1 ∨ q = s → ∀ b, isWs b = true →
      Pushdown.advance step (q, c.2) b = some (s, c.2) := by
    rintro q (rfl | rfl) b hb
    · rw [Pushdown.advance, h.first b hb]
      rfl
    · rw [Pushdown.advance, h.stay b hb]
      rfl
  induction u generalizing q with
  | nil => exact absurd rfl hu
  | cons b u ih =>
    refine .cons (hadv q hq b (hws b (by simp))) h.gap ?_
    by_cases hnil : u = []
    · subst hnil
      exact .nil _
    · exact ih hnil (fun x hx => hws x (by simp [hx])) (.inr rfl)

/-- A front of the whitespace leaves the tracker as it is. -/
theorem Waits.reaches {p : Point} {w : Bytes} {s : State} (h : Waits (p.state, p.stack) w s)
    {toks : List Bytes} (hp : Reaches schema toks p) {front : List Bytes} (hne : ∀ t ∈ front, t ≠ [])
    (hws : ∀ t ∈ front, ∀ b ∈ t, isWs b = true) :
    ∃ q, (q = p.state ∨ q = s) ∧ (front ≠ [] → q = s) ∧
      Reaches schema (toks ++ front) ⟨q, p.stack, p.tracker⟩ := by
  induction front using List.reverseRecOn with
  | nil =>
    rw [List.append_nil]
    exact ⟨p.state, .inl rfl, fun h => absurd rfl h, hp⟩
  | append_singleton front t ih =>
    obtain ⟨q, hq, -, hreach⟩ :=
      ih (fun u hu => hne u (by simp [hu])) fun u hu => hws u (by simp [hu])
    have ht := hne t (by simp)
    have htws := hws t (by simp)
    obtain ⟨b, u, rfl⟩ := List.exists_cons_of_ne_nil ht
    have hb := htws b (by simp)
    have hgap := hreach.gap (outside_of_ws hb u) (plain_of_ws hb u) (h.runs ht htws hq)
    rw [gapPieces, gapTokens_blank fun x hx => Reader.isAsciiWhitespace_of_ws (htws x hx),
      List.map_nil, dispatchAll_nil, List.append_assoc] at hgap
    exact ⟨s, .inr rfl, fun _ => rfl, hgap⟩

/-! ### Tokens of names and literals -/

/-- The gap state a dot leads to. -/
def dotRow (_ : State) (c : ByteClass) (s' : State) : Bool :=
  !c.has Byte.dot || s'.lexemeKind.isSome || s' == .afterDot

theorem checkEdges_dotRow : checkEdges dotRow = true := by decide +kernel

/-- No identifier goes on with a dot. -/
def identRow (s : State) (c : ByteClass) (s' : State) : Bool :=
  s.lexemeKind != some .ident || s'.lexemeKind != some .ident || !c.has Byte.dot

theorem checkEdges_identRow : checkEdges identRow = true := by decide +kernel

/-- A lexeme that opens with a dot is a number. -/
theorem not_start_behind_dot {k : LexKind} {s : State} (hs : s.lexemeKind = none) {st : List Frame}
    {b : UInt8} {u : Bytes} {d : State × List Frame}
    (h : InLexeme k (s, st) (Byte.dot :: b :: u) d) : isIdentStart b = false := by
  cases h with
  | @cons _ e _ _ _ hstep he hrest =>
    have hpoint : e.1 = .needFracDigit := by
      rcases first_of_lexeme hstep (by simp [hs]) he with ⟨hmark, -⟩ | ⟨hdash, -⟩ | ⟨-, hstate⟩
      · exact absurd (by decide) hmark
      · exact absurd hdash (by decide)
      · exact hstate
    cases hrest with
    | cons hstep' _ _ =>
      obtain ⟨cls, hb, hrow⟩ := advance_check checkEdges_signRow hstep'
      simp only [signRow, hpoint, bne_self_eq_false, Bool.false_or, Bool.and_eq_true, beq_iff_eq] at hrow
      obtain ⟨-, rfl, -⟩ := hrow
      have hdigit : isAsciiDigit b = true := hb
      grind [isIdentStart, isAsciiAlphabetic, isAsciiLowercase, isAsciiDigit]

theorem not_dot_inside {s : State} (hs : s.lexemeKind = some .ident) {st : List Frame} {u : Bytes}
    {d : State × List Frame} : ¬ InLexeme .ident (s, st) (Byte.dot :: u) d := by
  intro h
  cases h with
  | cons hstep he _ =>
    obtain ⟨cls, hb, hrow⟩ := advance_check checkEdges_identRow hstep
    simp [identRow, hs, he, hb] at hrow

theorem Lexer.tokens_append {l l' : Lexer} {toks : List Bytes} {ps : List Piece}
    (h : l.tokens toks = some (l', ps)) (more : List Bytes) :
    l.tokens (toks ++ more) = (l'.tokens more).map fun r => (r.1, ps ++ r.2) := by
  induction toks generalizing l ps with
  | nil =>
    cases h
    cases hmore : l'.tokens more with
    | none => exact hmore
    | some r => exact hmore
  | cons tok toks ih =>
    rw [tokens] at h
    split at h
    · cases h
    · rename_i l₁ qs htok
      split at h
      · cases h
      · rename_i l₂ rs hrest
        cases h
        rw [List.cons_append, tokens, htok]
        dsimp only
        rw [ih hrest]
        cases l'.tokens more with
        | none => rfl
        | some r => simp

/-- The tokens of a lexeme in flight. -/
theorem Lexer.tokens_flight {l : Lexer} (hsettled : l.Settled) (hgap : l.state.lexemeKind = none)
    {k : LexKind} {front : List Bytes} (hne : ∀ t ∈ front, t ≠ []) (hfront : front ≠ [])
    {d : State × List Frame} (h : InLexeme k (l.state, l.stack) front.flatten d) :
    l.tokens front = some (⟨d.1, d.2, front.flatten, l.state⟩, []) := by
  induction front using List.reverseRecOn generalizing d with
  | nil => exact absurd rfl hfront
  | append_singleton front t ih =>
    have ht := hne t (by simp)
    rw [List.flatten_append, List.flatten_singleton] at h ⊢
    obtain ⟨e, hbefore, hlast⟩ := h.split
    by_cases hnil : front = []
    · subst hnil
      cases hbefore
      exact tokens_concat (show l.tokens [] = some (l, []) from rfl)
        (token_opens hsettled hgap ht hlast)
    · have hall : ∀ u ∈ front, u ≠ [] := fun u hu => hne u (by simp [hu])
      have hflat : front.flatten ≠ [] := by
        obtain ⟨u, rest, rfl⟩ := List.exists_cons_of_ne_nil hnil
        simp [hall u (by simp)]
      have htoks := ih hall hnil hbefore
      exact tokens_concat htoks (token_inside (l := ⟨e.1, e.2, front.flatten, l.state⟩)
        (hbefore.last hflat) hlast (hlast.last ht))

/-! ## Passages -/

/-- Two states that a pipe and an opener read alike. -/
def SameSide (a s : State) : Prop :=
  ((a = .start ∨ a = .expectSource) ↔ (s = .start ∨ s = .expectSource)) ∧
    (a = .sawTilde ↔ s = .sawTilde)

instance (a s : State) : Decidable (SameSide a s) := inferInstanceAs (Decidable (_ ∧ _))

/-- One item, read by the automaton and admitted by the rules. -/
inductive Passage (schema : Schema) (p : Point) : Item → Point → Prop where
  | mark {m : Bytes} {c : State × List Frame} (hm : IsMark m) (hside : SameSide p.state c.1)
      (hrun : RunsIn step (fun s => s.lexemeKind = none) (p.state, p.stack) m c) :
      Passage schema p (.mark m) ⟨c.1, c.2, p.tracker.dispatchToken m p.state schema⟩
  | blank {w : Bytes} {s : State} (hw : Waits (p.state, p.stack) w s) (hside : SameSide p.state s) :
      Passage schema p (.blank w) ⟨s, p.stack, p.tracker⟩
  | word {w : Bytes} {k : LexKind} {s : State} (hne : w ≠ []) (hgap : p.state.lexemeKind = none)
      (hread : InLexeme k (p.state, p.stack) w (s, p.stack))
      (hadm : Admits schema p.tracker p.state w) :
      Passage schema p (.word w) ⟨s, p.stack, p.tracker.dispatchToken w p.state schema⟩

/-- What goes on with a word begins with a part of it. -/
theorem Continues.part {w u x : Bytes} (h : Continues w u x) (hx : x ≠ []) :
    ∃ f rest, f ≠ [] ∧ w = u ++ f ++ rest ∧ (x = f ∨ ∃ c v, x = f ++ c :: v ∧ EndsWord c) := by
  cases h with
  | @inside _ v h => exact ⟨x, v, hx, h, .inl rfl⟩
  | @beyond f c v h hf hc => exact ⟨f, [], hf, by rw [h, List.append_nil], .inr ⟨c, v, rfl, hc⟩⟩

section

variable {toks : List Bytes} {p : Point} {w : Bytes} {k : LexKind} {s : State}

/-- In front of a word no lexeme is open. -/
theorem Reaches.at_gap (hp : Reaches schema toks p) (hgap : p.state.lexemeKind = none) :
    ∃ l ps, Lexer.start.tokens toks = some (l, ps) ∧ l.Settled ∧ l.state = p.state ∧
      l.stack = p.stack ∧ new.dispatchAll ps schema = p.tracker := by
  obtain ⟨l, ps, hl, hstate, hstack, htracker⟩ := hp.read
  have hsettled := Lexer.settled_tokens Lexer.settled_start hl
  rw [← hstate] at hgap
  have hpieces : l.pieces = [] := by
    rw [Lexer.pieces, hgap, (hsettled hgap).1]
    rfl
  rw [hpieces, List.append_nil] at htracker
  exact ⟨l, ps, hl, hsettled, hstate, hstack, htracker⟩

/-- A part of the word has been read. -/
theorem Reaches.in_flight (hp : Reaches schema toks p) (hgap : p.state.lexemeKind = none)
    {front : List Bytes} (hfront : front ≠ []) (hne : ∀ t ∈ front, t ≠ []) {d : State × List Frame}
    (h : InLexeme k (p.state, p.stack) front.flatten d) :
    ∃ ps, Lexer.start.tokens (toks ++ front) = some (⟨d.1, d.2, front.flatten, p.state⟩, ps) ∧
      new.dispatchAll ps schema = p.tracker ∧ d.1.lexemeKind = some k ∧ front.flatten ≠ [] := by
  obtain ⟨l, ps, hl, hsettled, hstate, hstack, htracker⟩ := hp.at_gap hgap
  rw [← hstate] at hgap
  rw [← hstate, ← hstack] at h
  have hflat : front.flatten ≠ [] := by
    obtain ⟨t, rest, rfl⟩ := List.exists_cons_of_ne_nil hfront
    simp [hne t (by simp)]
  have hflight := Lexer.tokens_flight hsettled hgap hne hfront h
  have hall := Lexer.tokens_append hl front
  rw [hflight, Option.map_some, List.append_nil, hstate] at hall
  exact ⟨ps, hall, htracker, h.last hflat, hflat⟩

/-- **A token that goes on with an admitted word is kept**, also beyond its
end. -/
theorem Reaches.passes_word (hformed : NamesFormed schema) (hp : Reaches schema toks p)
    (hgap : p.state.lexemeKind = none) (hread : InLexeme k (p.state, p.stack) w (s, p.stack))
    (hadm : Admits schema p.tracker p.state w) {front : List Bytes} (hne : ∀ t ∈ front, t ≠ [])
    {x : Bytes} (hx : Continues w front.flatten x) (hxne : x ≠ []) :
    Passes schema (toks ++ front) x := by
  obtain ⟨f, rest, hf, hw, hbeyond⟩ := hx.part hxne
  rw [hw, List.append_assoc] at hread
  by_cases hfront : front = []
  · subst hfront
    obtain ⟨l, ps, hl, -, hstate, -, htracker⟩ := hp.at_gap hgap
    rw [List.append_nil]
    have hgap' := hgap
    rw [← hstate] at hgap'
    refine passes_of hl ?_ fun pos _ => legalFused_of_ne_dot pos ?_
    · obtain ⟨hpos, hpfx⟩ := position_gap (new.dispatchAll ps schema) hgap'
      rw [hpos, hpfx, htracker, hstate]
      exact hadm.opens hformed hx hxne
    · rintro b u rfl
      rcases hbeyond with rfl | ⟨c, v, hcons, hc⟩
      · exact not_start_behind_dot hgap hread
      · rcases f with _ | ⟨d, _ | ⟨e, f⟩⟩
        · exact absurd rfl hf
        · obtain ⟨-, rfl, -⟩ : Byte.dot = d ∧ b = c ∧ u = v := by simpa using hcons
          rw [Bool.eq_false_iff]
          intro hb
          have htail := hc.1
          rw [isIdentTail_of_start hb] at htail
          cases htail
        · obtain ⟨rfl, rfl, -⟩ : Byte.dot = d ∧ b = e ∧ u = f ++ c :: v := by simpa using hcons
          exact not_start_behind_dot hgap hread
  · obtain ⟨e, hbefore, hinside⟩ := hread.split
    obtain ⟨ps, hl, htracker, hk, hflat⟩ := hp.in_flight hgap hfront hne hbefore
    refine passes_of hl ?_ ?_
    · obtain ⟨hpos, hpfx⟩ := position_flying (new.dispatchAll ps schema)
        (l := ⟨e.1, e.2, front.flatten, p.state⟩) hk
      rw [hpos, hpfx, htracker]
      exact hadm.goes_on hformed hx hflat
    · intro pos hfused
      cases k with
      | ident =>
        refine legalFused_of_ne_dot pos ?_
        rintro b u rfl
        obtain ⟨d, f, rfl⟩ := List.exists_cons_of_ne_nil hf
        have hd : d = Byte.dot := by
          rcases hbeyond with hcons | ⟨c, v, hcons, -⟩
          · exact (List.cons.inj hcons).1.symm
          · exact (List.cons.inj hcons).1.symm
        subst hd
        exact absurd hinside (not_dot_inside hk)
      | _ => simp [fusedNavPosition, hold, hk] at hfused

/-- The parts of an admitted word are kept. -/
theorem Reaches.passed_word (hformed : NamesFormed schema) (hp : Reaches schema toks p)
    (hgap : p.state.lexemeKind = none) (front rest : List Bytes)
    (hread : InLexeme k (p.state, p.stack) (front ++ rest).flatten (s, p.stack))
    (hadm : Admits schema p.tracker p.state (front ++ rest).flatten)
    (hne : ∀ t ∈ front ++ rest, t ≠ []) :
    ∀ f t r, toks ++ front = f ++ t :: r → Passes schema f t := by
  induction front using List.reverseRecOn generalizing rest with
  | nil =>
    rw [List.append_nil]
    exact hp.passed
  | append_singleton front t ih =>
    rw [List.append_assoc] at hread hadm hne
    rw [← List.append_assoc]
    exact passed_concat (ih (t :: rest) hread hadm hne) (hp.passes_word hformed hgap hread hadm
      (fun u hu => hne u (by simp [hu])) (.inside (v := rest.flatten) (by simp)) (hne t (by simp)))

end

/-- **Every token of a passage is kept**, and the item leads on. -/
theorem Passage.reaches (hformed : NamesFormed schema) {p q : Point} {i : Item}
    (h : Passage schema p i q) {toks : List Bytes} (hp : Reaches schema toks p) {ts : List Bytes}
    (hts : i.Tokens ts) : Reaches schema (toks ++ ts) q := by
  cases h with
  | mark hm _ hrun =>
    have h := hp.gap hm.outside hm.plain hrun
    rw [hts.of_mark]
    rwa [gapPieces, hm.gapTokens_eq] at h
  | blank hw _ =>
    obtain ⟨rfl, hne⟩ := hts.parts (by simp)
    obtain ⟨q, -, hq, hreach⟩ := hw.reaches hp hne fun t ht b hb =>
      hw.ws b (List.mem_flatten_of_mem ht hb)
    have hts : ts ≠ [] := by
      rintro rfl
      exact hw.nonempty rfl
    rwa [hq hts] at hreach
  | @word w k s hwne hgap hread hadm =>
    obtain ⟨rfl, hne⟩ := hts.parts (by simp)
    have hts : ts ≠ [] := by
      rintro rfl
      exact hwne rfl
    obtain ⟨ps, hl, htracker, hk, -⟩ := hp.in_flight hgap hts hne hread
    have hpassed := hp.passed_word hformed hgap ts [] (by rwa [List.append_nil])
      (by rwa [List.append_nil]) (by rwa [List.append_nil])
    refine ⟨hpassed, fun tok => passes_flying hl hk hwne ?_, _, _, hl, rfl, rfl, ?_⟩
    · rw [htracker]
      exact hadm.columnRead hwne rfl rfl
    · have hflying : (⟨s, p.stack, ts.flatten, p.state⟩ : Lexer).pieces =
          [⟨ts.flatten, p.state⟩] := by
        rw [Lexer.pieces]
        simp [hk]
      rw [hflying, dispatchAll_append, htracker]
      rfl

/-! ## Ways through a sentence -/

/-- A way through the items. -/
inductive Goes (schema : Schema) : Point → List Item → Point → Prop where
  | nil (p : Point) : Goes schema p [] p
  | pass {p q r : Point} {i : Item} {items : List Item} (h : Passage schema p i q)
      (hrest : Goes schema q items r) : Goes schema p (i :: items) r

namespace Goes

variable {p q r : Point} {i : Item} {items rest : List Item}

theorem single (h : Passage schema p i q) : Goes schema p [i] q := .pass h (.nil q)

theorem append (h : Goes schema p items q) (h' : Goes schema q rest r) :
    Goes schema p (items ++ rest) r := by
  induction h with
  | nil _ => exact h'
  | pass h _ ih => exact .pass h (ih h')

theorem cons (h : Goes schema p [i] q) (h' : Goes schema q items r) :
    Goes schema p (i :: items) r :=
  h.append h'

end Goes

end

end PureCard
