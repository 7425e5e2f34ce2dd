/-
PureCard.ComparisonOperands — the literal after a typed comparison.

`$v.p op` arms the operand rule when the last name is a numeric or string
property: the next token must be no literal of another class. The rule
looks at the class of the whole token, at a value position, while the
operator is the piece just dispatched. So it misses a literal behind a
blank or fused with the operator, an operator that was cut in two, a `<`
or `>` with the operand right behind it (the automaton is then still
waiting for a `=`), and a number whose first token does not show it: a
sign by itself, or a leading dot.

`CleanlyCut` rules these out, and `comparison_operand` says that then no
literal of another class follows, in any run that keeps to the masks.
-/
import PureCard.OpeningTokens
import PureCard.Paths

namespace PureCard

open Pushdown Scopes ScopeTracker

/-! ## Comparisons in a stream -/

/-- The comparison operators. -/
def comparisonOps : List Bytes :=
  [ascii "==", ascii "!=", ascii "<", ascii ">", ascii "<=", ascii ">="]

/-- The pieces end with a navigation `$v.p1…pk` to a primitive property of
class `tc`. -/
inductive EndsInProperty (schema : Schema) (tc : TypeClass) : List Piece → Prop where
  | intro {front ps : List Piece} {v cls mid x : Bytes} {path : List Bytes} {d p : Piece}
      {prim : PrimName} {mult : Multiplicity}
      (hv : (scopes schema front).lookup freeStore v = .element (some cls))
      (hps : SpellsPath v path ps) (hpath : schema.resolvePath cls path = some mid)
      (hd : d.IsMark Byte.dot) (hp : p.IsName x [.afterDot])
      (hx : schema.resolve mid x = some (.primitive prim mult)) (htc : prim.typeClass = tc) :
      EndsInProperty schema tc (front ++ ps ++ [d, p])

/-- Blanks, cut anywhere. -/
def Blank (syms : List Sym) : Prop := ∀ b, .byte b ∈ syms → isAsciiWhitespace b = true

/-- A comparison in the stream `xs ++ bs₀ ++ os ++ bs ++ .byte b :: ys`: a
typed navigation, an operator, and a literal of kind `k` that opens with
`b`, with blanks between them. -/
structure Comparison (schema : Schema) (tc : TypeClass) (xs bs₀ os bs : List Sym) (b : UInt8)
    (k : LexKind) : Prop where
  nav : ∃ r, Reader.start.read xs = some r ∧ r.lexer.state = .inIdent ∧
    EndsInProperty schema tc r.all
  gap : Blank bs₀
  op : symBytes os ∈ comparisonOps
  blank : Blank bs
  opens : ∃ c d, run step Pda.new.config (symBytes (xs ++ bs₀ ++ os ++ bs)) = some c ∧
    Pushdown.advance step c b = some d ∧ d.1.lexemeKind = some k

/-- How the operator and the literal must be cut: the operator is whole, a
blank stands behind a one-byte operator, the literal begins its token, and
a number shows in it. -/
structure CleanlyCut (os bs : List Sym) (b : UInt8) (ys : List Sym) : Prop where
  whole : os = (symBytes os).map .byte
  blank : (symBytes os).length = 1 → symBytes bs ≠ []
  begins : ∃ zs, bs = zs ++ [.cut]
  sign : b = Byte.dash → ∃ d zs, ys = .byte d :: zs ∧ isAsciiDigit d = true
  dot : b ≠ Byte.dot

/-- The kinds of literals that do not compare with a property. -/
def Disjoint (tc : TypeClass) (k : LexKind) : Prop :=
  (tc = .numeric ∧ (k = .str ∨ k = .date)) ∨ (tc = .str ∧ (k = .number ∨ k = .date))

/-! ## What the operator arms -/

/-- A primitive property at the end of a navigation is what was resolved
last. -/
theorem lastResolved_of_property {schema : Schema} {tc : TypeClass} {ps : List Piece}
    (h : EndsInProperty schema tc ps) :
    (new.dispatchAll ps schema).lastResolved = some tc := by
  cases h with
  | @intro front ps v cls mid x path d p prim mult hv hps hpath hd hp hx htc =>
    have hbinding : (new.dispatchAll front schema).binding v = .element (some cls) := by
      rw [← hv]
      exact congrFun (binding_dispatchAll schema front) v
    have hreceiver := (receiver_of_path hbinding hps hpath).1
    rw [← dispatchAll_append] at hreceiver
    rw [dispatchAll_append]
    generalize new.dispatchAll (front ++ ps) schema = t at hreceiver
    have hdot : d.lexeme = .dot := hd.lexeme.trans (by decide)
    obtain ⟨hlex, hanchor⟩ := hp
    have hnav := nav_dispatch_dot hdot t schema
    rw [hreceiver, receiverIsRow_eq_false hreceiver] at hnav
    rw [dispatchAll_cons, dispatchAll_cons, dispatchAll_nil, List.mem_singleton.mp hanchor]
    generalize t.dispatchToken d.text d.anchor schema = u at hnav
    have hbase : u.dotBase = some mid := congrArg Nav.base hnav
    have hcolumn : u.dotIsColumn = false := congrArg Nav.column hnav
    rw [dispatchToken_eq hlex (by simp)]
    change (u.onIdent x .afterDot schema).2 = some tc
    have hresolve : ((u.sawClass x schema).resolveMember x schema).2 = some prim.typeClass := by
      unfold resolveMember sawClass
      simp [hbase, hcolumn, hx]
    rw [onIdent_eq, ← htc]
    exact hresolve

/-- The operator right behind it arms the rule. -/
theorem cmpPending_of_op {schema : Schema} {tc : TypeClass} {ps : List Piece}
    (h : EndsInProperty schema tc ps) {op : Bytes} (hop : op ∈ comparisonOps) (a : State) :
    (new.dispatchAll (ps ++ [⟨op, a⟩]) schema).cmpPending = some tc := by
  have hlex : classify op = .cmp := by
    have hall : comparisonOps.all (fun op => decide (classify op = .cmp)) = true := by decide
    simpa using List.all_eq_true.mp hall op hop
  have hresolved := lastResolved_of_property h
  rw [dispatchAll_append, dispatchAll_cons, dispatchAll_nil, dispatchToken_eq hlex (by simp)]
  simp only [dispatchLexeme, hresolved]
  rfl

/-! ## Reading the comparison -/

/-- A blank after a value, and one where a value is due. -/
theorem advance_blank {s : State} {st : List Frame} {b : UInt8} {c : State × List Frame}
    (hb : isAsciiWhitespace b = true) (h : Pushdown.advance step (s, st) b = some c) :
    (s = .inIdent ∨ s = .afterValue → c = (.afterValue, st)) ∧
      (s = .expectValueReq ∨ s = .sawLt ∨ s = .sawGt → c = (.expectValueReq, st)) := by
  have hmem := mem_of_blank hb
  simp only [List.mem_cons, List.not_mem_nil, or_false] at hmem
  unfold Pushdown.advance at h
  refine ⟨?_, ?_⟩
  · rintro (rfl | rfl) <;> rcases hmem with rfl | rfl | rfl | rfl | rfl <;> cases h <;> rfl
  · rintro (rfl | rfl | rfl) <;> rcases hmem with rfl | rfl | rfl | rfl | rfl <;> cases h <;> rfl

/-- The reader stands behind a name, blanks aside. -/
structure Waiting (ps : List Piece) (r : Reader) : Prop where
  all : r.all = ps
  place : r.lexer.state = .inIdent ∨
    r.lexer.state = .afterValue ∧ ∀ b ∈ r.lexer.seg, isAsciiWhitespace b = true

theorem Waiting.blank {ps : List Piece} {r r' : Reader} {bs : List Sym} (h : Waiting ps r)
    (hbs : Blank bs) (hread : r.read bs = some r') : Waiting ps r' := by
  induction bs generalizing r with
  | nil =>
    cases hread
    exact h
  | cons s bs ih =>
    have hrest : Blank bs := fun b hb => hbs b (List.mem_cons_of_mem s hb)
    cases s with
    | cut =>
      refine ih ⟨by rw [Reader.all_cut]; exact h.all, ?_⟩ hrest hread
      rcases h.place with hs | ⟨hs, -⟩
      · exact .inl (r.lexer.state_cut.trans hs)
      · refine .inr ⟨r.lexer.state_cut.trans hs, ?_⟩
        rw [Reader.cut, Lexer.cut_gap (by rw [hs]; rfl)]
        exact List.forall_mem_nil _
    | byte b =>
      have hb : isAsciiWhitespace b = true := hbs b List.mem_cons_self
      rw [Reader.read] at hread
      split at hread
      · cases hread
      · rename_i c hc
        have hplace : r.lexer.state = .inIdent ∨ r.lexer.state = .afterValue :=
          h.place.imp_right And.left
        have hc' := (advance_blank hb hc).1 hplace
        have hnone : c.1.lexemeKind = none := by
          rw [hc']
          rfl
        refine ih ⟨(Reader.all_byte_ws hb r hnone).trans h.all, .inr ?_⟩ hrest hread
        rcases h.place with hs | ⟨hs, hseg⟩
        · simp [Reader.byte, Lexer.read, hs, hc', State.lexemeKind, hb]
        · simp only [Reader.byte, Lexer.read, hs, hc', State.lexemeKind, if_true, true_and]
          intro x hx
          rcases List.mem_append.mp hx with hx | hx
          · exact hseg x hx
          · rw [List.mem_singleton.mp hx]
            exact hb

/-- A gap of blanks and one operator is the operator. -/
theorem gapTokens_blank_op {ws op : Bytes} (hws : ∀ b ∈ ws, isAsciiWhitespace b = true)
    (hop : op ∈ comparisonOps) : gapTokens (ws ++ op) = [op] := by
  induction ws with
  | nil =>
    have hall : comparisonOps.all (fun op => decide (gapTokens op = [op])) = true := by decide
    simpa using List.all_eq_true.mp hall op hop
  | cons b ws ih =>
    rw [List.cons_append, gapTokens_ws (hws b List.mem_cons_self)]
    exact ih fun c hc => hws c (List.mem_cons_of_mem b hc)

/-- The first byte of an operator ends the name. -/
theorem Waiting.first {ps : List Piece} {r : Reader} (h : Waiting ps r) {b : UInt8} {s : State}
    (hstep : ∀ top, afterValue top b = .next s) (hs : s.lexemeKind = none)
    (htail : isIdentTail b = false) :
    ∃ ws a, (∀ b ∈ ws, isAsciiWhitespace b = true) ∧
      r.read [.byte b] = some ⟨⟨s, r.lexer.stack, ws ++ [b], a⟩, ps⟩ := by
  have hmove : step r.lexer.state r.lexer.stack.head? b = .next s := by
    rcases h.place with hp | ⟨hp, -⟩
    · rw [hp]
      simp [step, htail, hstep]
    · rw [hp]
      exact hstep _
  have hadv : Pushdown.advance step (r.lexer.state, r.lexer.stack) b = some (s, r.lexer.stack) := by
    simp [Pushdown.advance, hmove, Move.apply]
  have hread : r.read [.byte b] = some (r.byte b (s, r.lexer.stack)) := by
    simp [Reader.read, hadv]
  rw [hread]
  rcases h.place with hp | ⟨hp, hseg⟩
  · have hkind : r.lexer.state.lexemeKind = some .ident := by
      rw [hp]
      rfl
    refine ⟨[], r.lexer.state, by simp, ?_⟩
    rw [Reader.byte, Lexer.read, Lexer.completed, if_neg (by simp [hkind, hs]),
      if_neg (by simp [hkind, hs]), ← h.all, Reader.all, List.nil_append]
  · have hkind : r.lexer.state.lexemeKind = none := by
      rw [hp]
      rfl
    have hdone : r.done = ps := by
      have hall := h.all
      rw [Reader.all, Reader.pieces_gap hkind, gapPieces, gapTokens_blank hseg] at hall
      simpa using hall
    refine ⟨r.lexer.seg, r.lexer.anchor, hseg, ?_⟩
    rw [Reader.byte, Lexer.read, Lexer.completed, if_pos (by simp [hkind, hs]),
      if_pos (by simp [hkind, hs]), List.append_nil, hdone]

/-- The reader stands behind an operator, blanks aside. -/
structure Armed (ps : List Piece) (op : Bytes) (r : Reader) : Prop where
  all : ∃ a, r.all = ps ++ [⟨op, a⟩]
  place : r.lexer.state = .expectValueReq ∨ r.lexer.state = .sawLt ∨ r.lexer.state = .sawGt

/-- A whole operator behind the name is a piece of its own. -/
theorem Waiting.operator {ps : List Piece} {r r' : Reader} (h : Waiting ps r) {op : Bytes}
    (hop : op ∈ comparisonOps) (hread : r.read (op.map .byte) = some r') :
    Armed ps op r' ∧ (op.length ≠ 1 → r'.lexer.state = .expectValueReq) := by
  have hgap : ∀ {ws : Bytes} {s : State} {st : List Frame} {a : State},
      (∀ b ∈ ws, isAsciiWhitespace b = true) → s.lexemeKind = none →
      (⟨⟨s, st, ws ++ op, a⟩, ps⟩ : Reader).all = ps ++ [⟨op, a⟩] := by
    intro ws s st a hws hs
    rw [Reader.all, Reader.pieces_gap (by exact hs), gapPieces, gapTokens_blank_op hws hop]
    rfl
  have hone : ∀ {b : UInt8} {s : State}, op = [b] → (∀ top, afterValue top b = .next s) →
      s = .sawLt ∨ s = .sawGt → isIdentTail b = false →
      Armed ps op r' ∧ (op.length ≠ 1 → r'.lexer.state = .expectValueReq) := by
    rintro b s rfl hstep hs htail
    have hnone : s.lexemeKind = none := by rcases hs with rfl | rfl <;> rfl
    obtain ⟨ws, a, hws, hfirst⟩ := h.first hstep hnone htail
    rw [List.map_singleton, hfirst, Option.some.injEq] at hread
    subst hread
    exact ⟨⟨⟨a, hgap hws hnone⟩, .inr hs⟩, fun hlen => absurd rfl hlen⟩
  have htwo : ∀ {b : UInt8} {s : State}, op = [b, Byte.eq] → (∀ top, afterValue top b = .next s) →
      s.lexemeKind = none → (∀ top, step s top Byte.eq = .next .expectValueReq) →
      isIdentTail b = false →
      Armed ps op r' ∧ (op.length ≠ 1 → r'.lexer.state = .expectValueReq) := by
    rintro b s rfl hstep hnone heq htail
    obtain ⟨ws, a, hws, hfirst⟩ := h.first hstep hnone htail
    have hsplit : [b, Byte.eq].map Sym.byte = [.byte b] ++ [.byte Byte.eq] := rfl
    rw [hsplit, Reader.read_append, hfirst, Option.bind_some, Reader.read] at hread
    simp only [Pushdown.advance, heq, Move.apply, Reader.read, Option.some.injEq] at hread
    have hbyte : r' = ⟨⟨.expectValueReq, r.lexer.stack, ws ++ [b, Byte.eq], a⟩, ps⟩ := by
      rw [← hread, Reader.byte, Lexer.read, Lexer.completed, if_pos (by rw [hnone]; rfl),
        if_pos (by rw [hnone]; rfl)]
      simp
    rw [hbyte]
    exact ⟨⟨⟨a, hgap hws rfl⟩, .inl rfl⟩, fun _ => rfl⟩
  have hcases := hop
  simp only [comparisonOps, List.mem_cons, List.not_mem_nil, or_false] at hcases
  rcases hcases with hop | hop | hop | hop | hop | hop
  · exact htwo (b := Byte.eq) (s := .sawEq) (hop.trans (by decide)) (fun _ => rfl) rfl
      (fun _ => rfl) (by decide)
  · exact htwo (b := Byte.bang) (s := .sawBang) (hop.trans (by decide)) (fun _ => rfl) rfl
      (fun _ => rfl) (by decide)
  · exact hone (b := Byte.lt) (s := .sawLt) (hop.trans (by decide)) (fun _ => rfl) (.inl rfl)
      (by decide)
  · exact hone (b := Byte.gt) (s := .sawGt) (hop.trans (by decide)) (fun _ => rfl) (.inr rfl)
      (by decide)
  · exact htwo (b := Byte.lt) (s := .sawLt) (hop.trans (by decide)) (fun _ => rfl) rfl
      (fun _ => rfl) (by decide)
  · exact htwo (b := Byte.gt) (s := .sawGt) (hop.trans (by decide)) (fun _ => rfl) rfl
      (fun _ => rfl) (by decide)

/-- Blanks behind the operator leave it the last piece; with one of them a
value is due. -/
theorem Armed.blank {ps : List Piece} {op : Bytes} {r r' : Reader} {bs : List Sym}
    (h : Armed ps op r) (hbs : Blank bs) (hread : r.read bs = some r') :
    Armed ps op r' ∧ (r.lexer.state = .expectValueReq ∨ symBytes bs ≠ [] →
      r'.lexer.state = .expectValueReq) := by
  induction bs generalizing r with
  | nil =>
    cases hread
    refine ⟨h, ?_⟩
    rintro (hs | hne)
    · exact hs
    · exact absurd rfl hne
  | cons s bs ih =>
    have hrest : Blank bs := fun b hb => hbs b (List.mem_cons_of_mem s hb)
    cases s with
    | cut =>
      have hstate : r.cut.lexer.state = r.lexer.state := r.lexer.state_cut
      have hcut : Armed ps op r.cut := ⟨by rw [Reader.all_cut]; exact h.all, by rw [hstate]; exact h.place⟩
      obtain ⟨harmed, hdue⟩ := ih hcut hrest hread
      rw [hstate] at hdue
      exact ⟨harmed, hdue⟩
    | byte b =>
      have hb : isAsciiWhitespace b = true := hbs b List.mem_cons_self
      rw [Reader.read] at hread
      split at hread
      · cases hread
      · rename_i c hc
        have hc' := (advance_blank hb hc).2 h.place
        have hnone : c.1.lexemeKind = none := by
          rw [hc']
          rfl
        have hstate : (r.byte b c).lexer.state = .expectValueReq := by
          rw [Reader.byte, Lexer.state_read, hc']
        have hbyte : Armed ps op (r.byte b c) :=
          ⟨by rw [Reader.all_byte_ws hb r hnone]; exact h.all, .inl hstate⟩
        obtain ⟨harmed, hdue⟩ := ih hbyte hrest hread
        exact ⟨harmed, fun _ => hdue (.inl hstate)⟩

/-! ## The literal -/

/-- The bytes that open a literal where a value is due. -/
def literalRow (s : State) (k : ByteClass) (s' : State) : Bool :=
  s != .expectValueReq ||
    match s'.lexemeKind with
    | some .str => k == .one Byte.quote
    | some .date => k == .one Byte.percent
    | some .number => k == .digit || k == .one Byte.dash || k == .one Byte.dot
    | _ => true

theorem checkEdges_literalRow : checkEdges literalRow = true := by decide +kernel

theorem literal_opens {st : List Frame} {b : UInt8} {c : State × List Frame}
    (h : Pushdown.advance step (.expectValueReq, st) b = some c) :
    (c.1.lexemeKind = some .str → b = Byte.quote) ∧
      (c.1.lexemeKind = some .date → b = Byte.percent) ∧
      (c.1.lexemeKind = some .number → isAsciiDigit b = true ∨ b = Byte.dash ∨ b = Byte.dot) := by
  obtain ⟨k, hk, hrow⟩ := advance_check checkEdges_literalRow h
  unfold literalRow at hrow
  simp only [bne_self_eq_false, Bool.false_or] at hrow
  have hone : ∀ {c : UInt8}, k = .one c → b = c := by
    rintro c rfl
    simpa [ByteClass.has] using hk
  refine ⟨fun hs => ?_, fun hs => ?_, fun hs => ?_⟩
  · rw [hs] at hrow
    exact hone (by simpa using hrow)
  · rw [hs] at hrow
    exact hone (by simpa using hrow)
  · rw [hs] at hrow
    simp only [Bool.or_eq_true, beq_iff_eq, or_assoc] at hrow
    rcases hrow with rfl | hdash | hdot
    · exact .inl hk
    · exact .inr (.inl (hone hdash))
    · exact .inr (.inr (hone hdot))

/-- A run that is no operator and no mark is read by its first byte. -/
theorem classify_literal {b : UInt8} {u : Bytes} {lex : Lexeme}
    (hb : b = Byte.quote ∨ b = Byte.percent ∨ isAsciiDigit b = true ∨
      b = Byte.dash ∧ ∃ d v, u = d :: v ∧ isAsciiDigit d = true)
    (h : classifyFirst b (b :: u) = lex) : classify (b :: u) = lex := by
  have hdigit : ∀ c, isAsciiDigit c = true → isAsciiWhitespace c = false ∧
      c ∉ [Byte.lt, Byte.gt, Byte.eq, Byte.bang, Byte.dash] ∧ c ∉ markBytes := by
    intro c hc
    have hnot : ([Byte.lt, Byte.gt, Byte.eq, Byte.bang, Byte.dash] ++ markBytes).all
        (fun c => !isAsciiDigit c) = true := by decide
    refine ⟨by grind [isAsciiDigit, isAsciiWhitespace], fun hmem => ?_, fun hmem => ?_⟩
    · have hx := List.all_eq_true.mp hnot c (List.mem_append_left _ hmem)
      simp [hc] at hx
    · have hx := List.all_eq_true.mp hnot c (List.mem_append_right _ hmem)
      simp [hc] at hx
  have hfirst : isAsciiWhitespace b = false ∧ b ∉ markBytes ∧
      (b ∈ [Byte.lt, Byte.gt, Byte.eq, Byte.bang, Byte.dash] →
        b = Byte.dash ∧ ∃ d v, u = d :: v ∧ isAsciiDigit d = true) := by
    rcases hb with rfl | rfl | hb | ⟨rfl, hu⟩
    · exact ⟨by decide, by decide, fun h => absurd h (by decide)⟩
    · exact ⟨by decide, by decide, fun h => absurd h (by decide)⟩
    · exact ⟨(hdigit b hb).1, (hdigit b hb).2.2, fun h => absurd h (hdigit b hb).2.1⟩
    · exact ⟨by decide, by decide, fun _ => ⟨rfl, hu⟩⟩
  rcases classify_shape (b :: u) with ⟨hws, _⟩ | ⟨c, v, hcons, hmem, hop⟩ | ⟨c, hcons, hmem, _⟩ |
    ⟨c, v, hcons, hlast⟩
  · simp [hfirst.1] at hws
  · obtain ⟨rfl, rfl⟩ := List.cons.inj hcons
    obtain ⟨rfl, d, v, rfl, hd⟩ := hfirst.2.2 hmem
    -- a sign and a digit are no operator
    have hne : d ≠ Byte.gt ∧ d ≠ Byte.eq := by
      constructor <;> (rintro rfl; simp [isAsciiDigit] at hd)
    rw [← h]
    cases v with
    | nil => simp [classify, isAsciiWhitespace, hne.1, hne.2]
    | cons e v => simp [classify, isAsciiWhitespace]
  · obtain ⟨rfl, rfl⟩ := List.cons.inj hcons
    exact absurd hmem hfirst.2.1
  · obtain ⟨rfl, rfl⟩ := List.cons.inj hcons
    rw [hlast, h]

theorem classifyFirst_digit {b : UInt8} {bytes : Bytes} (h : isAsciiDigit b = true) :
    classifyFirst b bytes = .number := by
  have hne : b ≠ Byte.quote ∧ b ≠ Byte.percent := by
    constructor <;> (rintro rfl; simp [isAsciiDigit] at h)
  rw [classifyFirst, if_neg hne.1, if_neg hne.2, if_pos (by simp [h])]

/-! ## Runs that keep to the masks -/

namespace Session

/-- Every accepted token was set in the mask. -/
def Masked (s : Session) : List Call → Prop
  | [] => True
  | c :: rest =>
    (∀ id, c = .accept id → (s.callAcceptToken id).2 = .ok () → s.allows id = true) ∧
      (s.call c).1.Masked rest

/-- A token of the stream was there before the calls or is what one of
them accepted. -/
theorem accepted_of_stream {s : Session} {toks front back : List Bytes} {tok : Bytes}
    {calls : List Call} (hmasked : s.Masked calls)
    (h : s.stream toks calls = front ++ tok :: back) :
    (∃ back', toks = front ++ tok :: back') ∨ ∃ pre id, s.stream toks pre = front ∧
      id ≠ (s.runCalls pre).1.grammar.eosBit ∧
      (s.runCalls pre).1.grammar.vocab.bytesOrEmpty id = tok ∧
      (s.runCalls pre).1.allows id = true := by
  induction calls generalizing s toks with
  | nil => exact .inl ⟨back, h⟩
  | cons c rest ih =>
    obtain ⟨hallows, hrest⟩ := hmasked
    rcases ih hrest h with ⟨back', htoks⟩ | ⟨pre, id, hpre, hid, htok, hset⟩
    · cases c with
      | accept id =>
        rw [streamStep] at htoks
        cases hacc : (s.callAcceptToken id).2 with
        | error e =>
          rw [hacc] at htoks
          exact .inl ⟨back', htoks⟩
        | ok =>
          rw [hacc] at htoks
          simp only [Feed.cut] at htoks
          split at htoks
          · rw [List.append_nil] at htoks
            exact .inl ⟨back', htoks⟩
          · rename_i heos
            rcases List.eq_nil_or_concat back' with rfl | ⟨back'', last, rfl⟩
            · obtain ⟨hfront, hlast⟩ := List.append_inj' htoks rfl
              refine .inr ⟨[], id, hfront, heos, (List.cons.inj hlast).1, ?_⟩
              exact hallows id rfl hacc
            · rw [List.concat_eq_append, ← List.cons_append, ← List.append_assoc] at htoks
              exact .inl ⟨back'', (List.append_inj' htoks rfl).1⟩
      | mask => exact .inl ⟨back', htoks⟩
      | shared state => exact .inl ⟨back', htoks⟩
      | reset =>
        rw [streamStep] at htoks
        simp at htoks
    · exact .inr ⟨c :: pre, id, hpre, hid, htok, hset⟩

/-- **No literal of another class follows a typed comparison** that is
cleanly cut, in any run that keeps to the masks. -/
theorem comparison_operand (g : CompiledGrammar) (schema : Schema) (calls : List Call)
    (hmasked : (build g (some schema)).Masked calls) {xs bs₀ os bs ys : List Sym} {b : UInt8}
    {tc : TypeClass} {k : LexKind}
    (hstream : symbols ((build g (some schema)).stream [] calls) =
      xs ++ bs₀ ++ os ++ bs ++ .byte b :: ys)
    (hcmp : Comparison schema tc xs bs₀ os bs b k) (hcut : CleanlyCut os bs b ys) :
    ¬ Disjoint tc k := by
  -- the literal's token, and the session that accepted it
  obtain ⟨front, u, v, back, htoks, hsyms⟩ := symbols_eq_byte hstream
  obtain ⟨zs, hzs⟩ := hcut.begins
  have hu : u = [] := by
    rcases List.eq_nil_or_concat u with rfl | ⟨u, c, rfl⟩
    · rfl
    · rw [hzs, ← List.append_assoc, List.concat_eq_append, List.map_append,
        ← List.append_assoc] at hsyms
      have hlast := (List.append_inj' hsyms rfl).2
      simp at hlast
  subst hu
  rw [List.map_nil, List.append_nil] at hsyms
  rw [List.nil_append] at htoks
  obtain ⟨back', hnil⟩ | ⟨pre, id, hpre, hid, htok, hset⟩ := accepted_of_stream hmasked htoks
  · simp at hnil
  have hafter := (afterTokens_build g schema).runCalls pre
  have hmemo := memoValid_runCalls g schema pre
  generalize ((build g (some schema)).runCalls pre).1 = s at hid htok hset hafter hmemo
  rw [hpre] at hafter
  obtain ⟨l, ps, hl, hsettled, hpda, htracker⟩ := pieces_of_drive hafter.driven
  -- what was read before it
  have hread := Reader.read_of_tokens hl
  rw [← hsyms, Reader.read_append, Reader.read_append, Reader.read_append] at hread
  obtain ⟨r₂, hr₂, hbs⟩ := Option.bind_eq_some_iff.mp hread
  obtain ⟨r₁, hr₁, hos⟩ := Option.bind_eq_some_iff.mp hr₂
  obtain ⟨r₀, hr₀, hbs₀⟩ := Option.bind_eq_some_iff.mp hr₁
  obtain ⟨r, hr, hstate, hprop⟩ := hcmp.nav
  have hsame : r = r₀ := Option.some.inj (hr.symm.trans hr₀)
  subst hsame
  have hwait : Waiting r.all r₁ := Waiting.blank ⟨rfl, .inl hstate⟩ hcmp.gap hbs₀
  rw [hcut.whole] at hos
  obtain ⟨harmed, hdue⟩ := hwait.operator hcmp.op hos
  obtain ⟨⟨⟨a, hall⟩, -⟩, hvalue⟩ := harmed.blank hcmp.blank hbs
  have hstate' : l.state = .expectValueReq := by
    refine hvalue ?_
    by_cases hlen : (symBytes os).length = 1
    · exact .inr (hcut.blank hlen)
    · exact .inl (hdue hlen)
  have hkind : l.state.lexemeKind = none := by
    rw [hstate']
    rfl
  -- the rule the mask was narrowed by
  have hps : ps = r.all ++ [⟨symBytes os, a⟩] := by
    have hseg := (hsettled hkind).1
    rw [Reader.all, Reader.pieces_gap hkind, hseg] at hall
    simpa using hall
  have hpending : s.tracker.cmpPending = some tc := by
    rw [htracker, hps]
    exact cmpPending_of_op hprop hcmp.op a
  have hpos : s.tracker.position s.pda.state = .reValue tc := by
    have hs : s.pda.state = .expectValueReq := by
      rw [hpda]
      exact hstate'
    rw [hs]
    simp [position, State.lexemeKind, openingPosition, hpending]
  have hkeep : tc = .numeric ∨ tc = .str → keepsOperand (classify (b :: v)) tc = true := by
    intro htc
    rcases (allows_iff hmemo id).mp hset with ⟨-, -, hlegal⟩ | ⟨heos, -⟩
    · unfold legal at hlegal
      rw [hafter.schema_eq] at hlegal
      simp only [Bool.and_eq_true] at hlegal
      have hrule := hlegal.1
      rw [hpos, htok] at hrule
      rcases htc with rfl | rfl <;> exact hrule
    · exact absurd heos hid
  -- the class of its token
  obtain ⟨c, d, hc, hd, hk⟩ := hcmp.opens
  have hconfig := (traced_tokens hl).config
  rw [← symBytes_symbols, ← hsyms, hc] at hconfig
  cases hconfig
  rw [hstate'] at hd
  obtain ⟨hstr, hdate, hnumber⟩ := literal_opens hd
  have hnumeral : k = .number → classify (b :: v) = .number := by
    rintro rfl
    have hlex : isAsciiDigit b = true ∨ b = Byte.dash ∧ ∃ d v', v = d :: v' ∧
        isAsciiDigit d = true := by
      rcases hnumber hk with hdig | hdash | hdot
      · exact .inl hdig
      · obtain ⟨e, ys', hys, he⟩ := hcut.sign hdash
        have hrest : ys = v.map .byte ++ .cut :: symbols back := by
          rw [htoks, hsyms] at hstream
          have hsplit : symbols (front ++ (b :: v) :: back) =
              symbols front ++ .byte b :: (v.map .byte ++ .cut :: symbols back) := by
            simp [symbols]
          rw [hsplit] at hstream
          exact (List.cons.inj (List.append_cancel_left hstream)).2.symm
        rw [hys] at hrest
        cases v with
        | nil => cases hrest
        | cons d v' =>
          obtain ⟨hd, -⟩ := List.cons.inj hrest
          cases hd
          exact .inr ⟨hdash, e, v', rfl, he⟩
      · exact absurd hdot hcut.dot
    rcases hlex with hdig | ⟨rfl, e, v', rfl, he⟩
    · exact classify_literal (.inr (.inr (.inl hdig))) (classifyFirst_digit hdig)
    · exact classify_literal (.inr (.inr (.inr ⟨rfl, e, v', rfl, he⟩))) (by
        simp [classifyFirst, he])
  rintro (⟨rfl, rfl | rfl⟩ | ⟨rfl, rfl | rfl⟩)
  · have hb := hstr hk
    subst hb
    have hkept := hkeep (.inl rfl)
    rw [classify_literal (.inl rfl) rfl] at hkept
    cases hkept
  · have hb := hdate hk
    subst hb
    have hkept := hkeep (.inl rfl)
    rw [classify_literal (.inr (.inl rfl)) rfl] at hkept
    cases hkept
  · have hkept := hkeep (.inr rfl)
    rw [hnumeral rfl] at hkept
    cases hkept
  · have hb := hdate hk
    subst hb
    have hkept := hkeep (.inr rfl)
    rw [classify_literal (.inr (.inl rfl)) rfl] at hkept
    cases hkept

/-! ### A number behind a blank, and a string -/

/-- A comparison with the numeric property `n`, its blank before or after
the cut, and two operands. -/
def operandVocab : Vocab :=
  ⟨[ascii "|A.all()->filter(x|$x.n == ", ascii "4", ascii "|A.all()->filter(x|$x.n ==",
    ascii " 'a'"], 4⟩

def beforeOp : List Sym := (ascii "|A.all()->filter(x|$x.n").map .byte

/-- The pieces of `|A.all()->filter(x|`. -/
def filterPieces : List Piece :=
  [⟨ascii "|", .start⟩, ⟨ascii "A", .expectSource⟩, ⟨ascii ".", .inSourceIdent⟩,
   ⟨ascii "all", .afterDot⟩, ⟨ascii "(", .inIdent⟩, ⟨ascii ")", .inIdent⟩,
   ⟨ascii "->", .inIdent⟩, ⟨ascii "filter", .afterArrow⟩, ⟨ascii "(", .inIdent⟩,
   ⟨ascii "x", .expectValue⟩, ⟨ascii "|", .inIdent⟩]

theorem endsInProperty_n : EndsInProperty .sample .numeric (filterPieces ++
    [⟨ascii "$", .inIdent⟩, ⟨ascii "x", .afterDollar⟩] ++
    [⟨ascii ".", .inIdent⟩, ⟨ascii "n", .afterDot⟩]) := by
  have hv : (scopes .sample filterPieces).lookup freeStore (ascii "x") =
      .element (some (ascii "A")) := by
    decide +kernel
  have hx : Schema.sample.resolve (ascii "A") (ascii "n") = some (.primitive .integer ⟨1, some 1⟩) := by
    decide +kernel
  have hname : ∀ (v : Bytes) (s : State), classify v = .ident v → (⟨v, s⟩ : Piece).IsName v [s] :=
    fun v s h => ⟨h, List.mem_singleton.mpr rfl⟩
  have hvar : SpellsPath (ascii "x") [] [⟨ascii "$", .inIdent⟩, ⟨ascii "x", .afterDollar⟩] :=
    .var rfl (hname _ _ (by decide))
  exact .intro hv hvar rfl rfl (hname _ _ (by decide)) hx rfl

theorem comparison_n {bs : List Sym} {b : UInt8} {k : LexKind} (hbs : Blank bs)
    (hopens : ∃ c d, run step Pda.new.config
        (symBytes (beforeOp ++ [.byte 32] ++ [.byte 61, .byte 61] ++ bs)) = some c ∧
      Pushdown.advance step c b = some d ∧ d.1.lexemeKind = some k) :
    Comparison .sample .numeric beforeOp [.byte 32] [.byte 61, .byte 61] bs b k := by
  have hread : (Reader.start.read beforeOp).map (fun r => (r.lexer.state, r.all)) =
      some (.inIdent, filterPieces ++ [⟨ascii "$", .inIdent⟩, ⟨ascii "x", .afterDollar⟩] ++
        [⟨ascii ".", .inIdent⟩, ⟨ascii "n", .afterDot⟩]) := by
    decide +kernel
  obtain ⟨r, hr, heq⟩ := Option.map_eq_some_iff.mp hread
  obtain ⟨hstate, hall⟩ := Prod.mk.inj heq
  refine ⟨⟨r, hr, hstate, hall ▸ endsInProperty_n⟩, ?_, by decide, hbs, hopens⟩
  intro x hx
  simp only [List.mem_singleton, Sym.byte.injEq] at hx
  rw [hx]
  rfl

/-- A token of its own behind `== `: no disjoint literal is a number. -/
theorem comparison_operand_number : ¬ Disjoint .numeric .number := by
  have hmasked : (build (.compile operandVocab) (some .sample)).Masked [.accept 0, .accept 1] :=
    ⟨fun id h _ => by cases h; decide +kernel, fun id h _ => by cases h; decide +kernel, trivial⟩
  have hstream : symbols ((build (.compile operandVocab) (some .sample)).stream []
      [.accept 0, .accept 1]) = beforeOp ++ [.byte 32] ++ [.byte 61, .byte 61] ++
        [.byte 32, .cut] ++ .byte 52 :: [.cut] := by
    decide +kernel
  have hcut : CleanlyCut [.byte 61, .byte 61] [.byte 32, .cut] 52 [.cut] :=
    ⟨rfl, fun h => absurd h (by decide), ⟨[.byte 32], rfl⟩, fun h => absurd h (by decide),
      by decide⟩
  have hblank : Blank [.byte 32, .cut] := by
    intro x hx
    simp only [List.mem_cons, Sym.byte.injEq, reduceCtorEq, List.not_mem_nil, or_false] at hx
    rw [hx]
    rfl
  have hopens : ∃ c d, run step Pda.new.config
      (symBytes (beforeOp ++ [.byte 32] ++ [.byte 61, .byte 61] ++ [.byte 32, .cut])) = some c ∧
        Pushdown.advance step c 52 = some d ∧ d.1.lexemeKind = some .number := by
    refine ⟨(.expectValueReq, [.paren]), (.inNumberInt, [.paren]), ?_, rfl, rfl⟩
    decide +kernel
  exact comparison_operand _ _ _ hmasked hstream (comparison_n hblank hopens) hcut

/-- The token ` 'a'` is set in the mask after `$x.n ==`. -/
theorem string_behind_blank :
    (build (.compile operandVocab) (some .sample)).Masked [.accept 2, .accept 3] ∧
      symbols ((build (.compile operandVocab) (some .sample)).stream [] [.accept 2, .accept 3]) =
        beforeOp ++ [.byte 32] ++ [.byte 61, .byte 61] ++ [.cut, .byte 32] ++ .byte 39 ::
          ((ascii "a'").map .byte ++ [.cut]) ∧
      Comparison .sample .numeric beforeOp [.byte 32] [.byte 61, .byte 61] [.cut, .byte 32] 39 .str ∧
      Disjoint .numeric .str := by
  have hblank : Blank [.cut, .byte 32] := by
    intro x hx
    simp only [List.mem_cons, Sym.byte.injEq, reduceCtorEq, List.not_mem_nil, or_false,
      false_or] at hx
    rw [hx]
    rfl
  have hopens : ∃ c d, run step Pda.new.config
      (symBytes (beforeOp ++ [.byte 32] ++ [.byte 61, .byte 61] ++ [.cut, .byte 32])) = some c ∧
        Pushdown.advance step c 39 = some d ∧ d.1.lexemeKind = some .str := by
    refine ⟨(.expectValueReq, [.paren]), (.inStrLit false, [.paren]), ?_, rfl, rfl⟩
    decide +kernel
  refine ⟨⟨fun id h _ => by cases h; decide +kernel, fun id h _ => by cases h; decide +kernel,
    trivial⟩, by decide +kernel, comparison_n hblank hopens, .inl ⟨rfl, .inl rfl⟩⟩

end Session

end PureCard
