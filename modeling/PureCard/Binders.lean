/-
PureCard.Binders — the innermost binder wins, where the header records it.

Inside a lambda, a variable its header binds should be narrowed by that
header or not at all, never by an outer lambda that used the same name.
`on_pipe` binds the one identifier `on_ident` has recorded, and the header
forms differ in what is recorded: a bare `v|` and the column form `: v|`
record the variable, a typed header does if its type names a class and
has no multiplicity (the `[` forgets it), and a brace header records the
last variable only, and not the first (which opens at a state that
records nothing). Nor does a bare or typed header record anything that
stands right behind a `|`, `<`, `>` or `-`: its name opens at the state of
that operator and not at a value position. `HeaderForm.captured` is that
list, and `name_opens` that a name opens nowhere else except behind a
sigil, a dot, an arrow or a `::`.

`header_wins` says that what a header captures, or what no outer lambda
constrains, is never narrowed from outside for as long as the header's
delimiter is open. `typed_header_leaks` is the failure of the rest: under
`x: B[1]|` the outer `x` still answers.
-/
import PureCard.Schema.Reading
import PureCard.Schema.Scoping

namespace PureCard

open Scopes ScopeTracker

/-! ## Header forms -/

/-- A type in a header, `head(::seg)*`. -/
structure TypeName where
  head : Bytes
  segs : List Bytes
  deriving DecidableEq, Repr

/-- A typed binder with its multiplicity, `name: type[mult]`. -/
structure TypedBinder where
  name : Bytes
  type : TypeName
  mult : Bytes
  deriving DecidableEq, Repr

/-- Where the first name of a bare or typed header opens: at a value
position, or right behind an operator that could still have gone on. -/
inductive HeaderPlace where
  | value
  | operator
  deriving DecidableEq, Repr

def pendingOperators : List State := [.sawPipe, .sawLt, .sawGt, .sawDash]

def HeaderPlace.states : HeaderPlace → List State
  | .value => valueStates
  | .operator => pendingOperators

/-- The lambda headers of the grammar, up to their `|`. -/
inductive HeaderForm where
  | bare (place : HeaderPlace) (v : Bytes)
  | typed (place : HeaderPlace) (v : Bytes) (type : TypeName)
  | typedMult (place : HeaderPlace) (b : TypedBinder)
  | colon (v : Bytes)
  | brace (v : Bytes) (more : List Bytes)
  | braceTyped (b : TypedBinder) (more : List TypedBinder)
  deriving DecidableEq, Repr

namespace HeaderForm

/-- The variables a header binds. -/
def binders : HeaderForm → List Bytes
  | .bare _ v | .typed _ v _ | .colon v => [v]
  | .typedMult _ b => [b.name]
  | .brace v more => v :: more
  | .braceTyped b more => b.name :: more.map TypedBinder.name

/-- The variable whose identifier is on record when the `|` comes. -/
def captured (schema : Schema) : HeaderForm → Option Bytes
  | .bare .value v => some v
  | .typed .value v type => if schema.hasClass type.head then some v else none
  | .colon v => if schema.hasClass v then none else some v
  | .brace _ more => more.getLast?
  | .bare .operator _ | .typed .operator _ _ | .typedMult _ _ | .braceTyped _ _ => none

end HeaderForm

/-! ### Headers as pieces -/

def typeStates : List State := [.afterColon, .afterColonWs]

/-- The segments of a type after its head. -/
inductive SpellsSegs : List Bytes → List Piece → Prop where
  | nil : SpellsSegs [] []
  | cons {c d p : Piece} {seg : Bytes} {segs : List Bytes} {ps : List Piece}
      (hc : c.IsMark Byte.colon) (hd : d.IsMark Byte.colon) (hp : p.IsName seg [.afterColon2])
      (hps : SpellsSegs segs ps) : SpellsSegs (seg :: segs) (c :: d :: p :: ps)

/-- A type after the colon that introduces it. -/
inductive SpellsType : TypeName → List Piece → Prop where
  | mk {c p : Piece} {type : TypeName} {ps : List Piece} (hc : c.IsMark Byte.colon)
      (hp : p.IsName type.head typeStates) (hps : SpellsSegs type.segs ps) :
      SpellsType type (c :: p :: ps)

/-- A typed binder whose name opens at one of the states `at`. -/
inductive SpellsTyped (states : List State) : TypedBinder → List Piece → Prop where
  | mk {p o m c : Piece} {b : TypedBinder} {ps : List Piece} (hp : p.IsName b.name states)
      (hps : SpellsType b.type ps) (ho : o.IsMark Byte.lbracket) (hm : m.text = b.mult)
      (hc : c.IsMark Byte.rbracket) : SpellsTyped states b (p :: ps ++ [o, m, c])

/-- The variables of a brace header after the first. -/
inductive SpellsMore : List Bytes → List Piece → Prop where
  | nil : SpellsMore [] []
  | cons {c p : Piece} {v : Bytes} {vs : List Bytes} {ps : List Piece} (hc : c.IsMark Byte.comma)
      (hp : p.IsName v valueStates) (hps : SpellsMore vs ps) : SpellsMore (v :: vs) (c :: p :: ps)

inductive SpellsMoreTyped : List TypedBinder → List Piece → Prop where
  | nil : SpellsMoreTyped [] []
  | cons {c : Piece} {b : TypedBinder} {bs : List TypedBinder} {ps qs : List Piece}
      (hc : c.IsMark Byte.comma) (hb : SpellsTyped valueStates b ps)
      (hps : SpellsMoreTyped bs qs) : SpellsMoreTyped (b :: bs) (c :: ps ++ qs)

/-- The pieces of a header. -/
inductive HeaderForm.Spelled : HeaderForm → List Piece → Prop where
  | bare {place : HeaderPlace} {p : Piece} {v : Bytes} (hp : p.IsName v place.states) :
      Spelled (.bare place v) [p]
  | typed {place : HeaderPlace} {p : Piece} {v : Bytes} {type : TypeName} {ps : List Piece}
      (hp : p.IsName v place.states) (hps : SpellsType type ps) :
      Spelled (.typed place v type) (p :: ps)
  | typedMult {place : HeaderPlace} {b : TypedBinder} {ps : List Piece}
      (hb : SpellsTyped place.states b ps) : Spelled (.typedMult place b) ps
  | colon {c p : Piece} {v : Bytes} (hc : c.IsMark Byte.colon) (hp : p.IsName v typeStates) :
      Spelled (.colon v) [c, p]
  | brace {o p : Piece} {v : Bytes} {more : List Bytes} {ps : List Piece}
      (ho : o.IsMark Byte.lbrace) (hp : p.IsName v [.expectBraceBinder])
      (hps : SpellsMore more ps) : Spelled (.brace v more) (o :: p :: ps)
  | braceTyped {o : Piece} {b : TypedBinder} {more : List TypedBinder} {ps qs : List Piece}
      (ho : o.IsMark Byte.lbrace) (hb : SpellsTyped [.expectBraceBinder] b ps)
      (hps : SpellsMoreTyped more qs) : Spelled (.braceTyped b more) (o :: ps ++ qs)

/-- A name behind a sigil, a dot, an arrow or a `::`: it names no variable
of a header. -/
def sigilStates : List State := [.afterDollar, .sawTilde, .afterDot, .afterArrow, .afterColon2]

def nameOpensRow (s : State) (_ : ByteClass) (s' : State) : Bool :=
  s' != .inIdent || s == .inIdent ||
    decide (s ∈ valueStates ++ pendingOperators ++ typeStates ++ .expectBraceBinder :: sigilStates)

theorem checkEdges_nameOpensRow : checkEdges nameOpensRow = true := by decide +kernel

/-- **Where a name opens** that is no source path: the places of headers,
and those behind a sigil. -/
theorem name_opens {s : State} {st st' : List Frame} {b : UInt8}
    (h : Pushdown.advance step (s, st) b = some (.inIdent, st')) (hout : s ≠ .inIdent) :
    (∃ place : HeaderPlace, s ∈ place.states) ∨ s ∈ typeStates ∨ s = .expectBraceBinder ∨
      s ∈ sigilStates := by
  obtain ⟨c, -, hrow⟩ := advance_check checkEdges_nameOpensRow h
  rw [nameOpensRow, Bool.or_eq_true, Bool.or_eq_true, decide_eq_true_eq] at hrow
  rcases hrow with (hne | heq) | hmem
  · cases hne
  · exact absurd (beq_iff_eq.mp heq) hout
  · simp only [List.mem_append, List.mem_cons] at hmem
    rcases hmem with ((hs | hs) | hs) | hs | hs
    · exact .inl ⟨.value, hs⟩
    · exact .inl ⟨.operator, hs⟩
    · exact .inr (.inl hs)
    · exact .inr (.inr (.inl hs))
    · exact .inr (.inr (.inr hs))

theorem HeaderPlace.start_not_mem (place : HeaderPlace) : State.start ∉ place.states := by
  cases place <;> decide

theorem Piece.IsName.ne_start {p : Piece} {v : Bytes} {states : List State}
    (h : p.IsName v states) (hstates : .start ∉ states) : p.anchor ≠ .start := fun ha =>
  hstates (ha ▸ h.2)

/-- A header is not read at the start of the stream. -/
theorem HeaderForm.Spelled.exists_not_start {form : HeaderForm} {hdr : List Piece}
    (h : form.Spelled hdr) : ∃ p ∈ hdr, p.anchor ≠ .start := by
  have htype : State.start ∉ typeStates := by decide
  have hbrace : State.start ∉ [State.expectBraceBinder] := by decide
  cases h with
  | @bare place _ _ hp => exact ⟨_, by simp, hp.ne_start place.start_not_mem⟩
  | @typed place _ _ _ _ hp _ => exact ⟨_, by simp, hp.ne_start place.start_not_mem⟩
  | @typedMult place _ _ hb =>
    cases hb with | mk hp => exact ⟨_, by simp, hp.ne_start place.start_not_mem⟩
  | colon _ hp => exact ⟨_, by simp, hp.ne_start htype⟩
  | brace _ hp _ => exact ⟨_, by simp, hp.ne_start hbrace⟩
  | braceTyped _ hb _ => cases hb with | mk hp => exact ⟨_, by simp, hp.ne_start hbrace⟩

/-! ## What a header records -/

section

variable {schema : Schema}

theorem recordsBinder_name {p : Piece} {v : Bytes} (h : p.IsName v valueStates)
    (cand : Option Bytes) : p.recordsBinder schema cand = some v := by
  obtain ⟨hlex, hanchor⟩ := h
  rw [Piece.recordsBinder, hlex]
  simp only [valueStates, List.mem_cons, List.not_mem_nil, or_false] at hanchor
  rcases hanchor with ha | ha <;> simp only [ha]

theorem recordsBinder_type {p : Piece} {v : Bytes} (h : p.IsName v typeStates)
    (cand : Option Bytes) :
    p.recordsBinder schema cand = if schema.hasClass v then cand else some v := by
  obtain ⟨hlex, hanchor⟩ := h
  rw [Piece.recordsBinder, hlex]
  simp only [typeStates, List.mem_cons, List.not_mem_nil, or_false] at hanchor
  rcases hanchor with ha | ha <;> simp only [ha]

theorem recordsBinder_seg {p : Piece} {v : Bytes} (h : p.IsName v [.afterColon2])
    (cand : Option Bytes) : p.recordsBinder schema cand = cand := by
  obtain ⟨hlex, hanchor⟩ := h
  rw [Piece.recordsBinder, hlex]
  simp only [List.mem_singleton] at hanchor
  simp only [hanchor]

theorem recordsBinder_colon {p : Piece} (h : p.IsMark Byte.colon) (cand : Option Bytes) :
    p.recordsBinder schema cand = cand := by
  have hcolon : classify [Byte.colon] = .other := by decide
  rw [Piece.recordsBinder, h.lexeme, hcolon]

theorem recordsBinder_segs {segs : List Bytes} {ps : List Piece} (h : SpellsSegs segs ps)
    (cand : Option Bytes) : ps.foldl (Piece.recordsBinder schema) cand = cand := by
  induction h with
  | nil => rfl
  | cons hc hd hp _ ih =>
    simp only [List.foldl_cons]
    rw [recordsBinder_colon hc, recordsBinder_colon hd, recordsBinder_seg hp, ih]

theorem recordsBinder_more {vs : List Bytes} {ps : List Piece} (h : SpellsMore vs ps)
    {v : Bytes} (hv : vs.getLast? = some v) (cand : Option Bytes) :
    ps.foldl (Piece.recordsBinder schema) cand = some v := by
  induction h generalizing cand with
  | nil => cases hv
  | cons hc hp hps ih =>
    simp only [List.foldl_cons]
    rw [recordsBinder_name hp]
    cases hps with
    | nil =>
      simp only [List.getLast?_singleton, Option.some.injEq] at hv
      rw [← hv]
      rfl
    | cons hc' hp' hps' =>
      rw [List.getLast?_cons_cons] at hv
      exact ih hv _

/-- What a header captures is on record at its end. -/
theorem recordsBinder_header {form : HeaderForm} {hdr : List Piece} (h : form.Spelled hdr)
    {v : Bytes} (hv : form.captured schema = some v) (cand : Option Bytes) :
    hdr.foldl (Piece.recordsBinder schema) cand = some v := by
  cases h with
  | @bare place _ _ hp =>
    cases place with
    | operator => cases hv
    | value =>
      cases hv
      exact recordsBinder_name hp cand
  | @typed place _ _ _ _ hp hps =>
    cases place with
    | operator => cases hv
    | value =>
      simp only [HeaderForm.captured, Option.ite_none_right_eq_some, Option.some.injEq] at hv
      obtain ⟨hclass, rfl⟩ := hv
      cases hps with
      | mk hc hq hsegs =>
        simp only [List.foldl_cons]
        rw [recordsBinder_name hp, recordsBinder_colon hc, recordsBinder_type hq, if_pos hclass,
          recordsBinder_segs hsegs]
  | typedMult hb => cases hv
  | colon hc hp =>
    simp only [HeaderForm.captured, Option.ite_none_left_eq_some, Option.some.injEq] at hv
    obtain ⟨hclass, rfl⟩ := hv
    simp only [List.foldl_cons, List.foldl_nil]
    rw [recordsBinder_colon hc, recordsBinder_type hp, if_neg hclass]
  | brace ho hp hps =>
    simp only [List.foldl_cons]
    exact recordsBinder_more hps hv _
  | braceTyped ho hb hps => cases hv

end

/-! ## The innermost binder wins -/

/-- Where the tracker is `t` after `pre`, `hdr`, its `|` and `body`, the
variable `v` is unconstrained, or narrowed by a binding made since the
`|`: the environment is the one before the `|` with frames `up` above it
and bindings `more` added to its innermost frame, and `v` is found among
these. -/
def InnerWins (schema : Schema) (pre hdr : List Piece) (pipe : Piece) (body : List Piece)
    (t : ScopeTracker) (v : Bytes) : Prop :=
  ∃ up more,
    Frames.Within (scopes schema (pre ++ hdr)) up more
      (scopes schema (pre ++ hdr ++ pipe :: body)) ∧
    (t.constraintOn v schema = .none ∨
      ∃ b, (up ++ [more]).find v = some b ∧ t.constraintOn v schema = b.position.getD .none)

/-- The pipe's own frame step, as `Within`. -/
theorem within_pipe (schema : Schema) (ps : List Piece) {pipe : Piece}
    (hpipe : pipe.lexeme = .pipe) :
    Frames.Within (scopes schema ps) []
      ((new.dispatchAll ps schema).header pipe.anchor).toList (scopes schema (ps ++ [pipe])) := by
  have hstart : Frames.Within (scopes schema ps) [] [] (scopes schema ps) :=
    .start (scopes_refines schema ps).ne_nil
  rw [scopes_append, scopesFrom, scopesFrom, scopeStep, hpipe]
  cases (new.dispatchAll ps schema).header pipe.anchor with
  | none => exact hstart
  | some b => exact hstart.bind_top b.1 b.2

/-- What a pipe binds is still bound, or hidden by a later binding, while
its delimiter is open. -/
theorem within_body {schema : Schema} {ps : List Piece} {pipe : Piece}
    (hpipe : pipe.lexeme = .pipe) {body : List Piece} (hbody : Inside Piece.nesting body) :
    ∃ up more, Frames.Within (scopes schema ps) up
      (more ++ ((new.dispatchAll ps schema).header pipe.anchor).toList)
      (scopes schema (ps ++ pipe :: body)) := by
  obtain ⟨f, rest, hf, hpre⟩ := within_pipe schema ps hpipe
  obtain ⟨up, more, g, rest', hg, hin⟩ := within_inside (ps ++ [pipe]) hbody
  rw [hpre, List.nil_append] at hg
  obtain ⟨rfl, rfl⟩ := List.cons.inj hg
  rw [List.append_assoc] at hin
  exact ⟨up, more, f, rest, hf, by rw [List.append_assoc]; exact hin⟩

/-- A header's `|` binds the variable the header captures. -/
theorem header_of_captured {schema : Schema} {toks : List Bytes} {l : Lexer}
    {pre hdr body : List Piece} {pipe : Piece} {form : HeaderForm} {v : Bytes}
    (hpieces : Lexer.start.tokens toks = some (l, pre ++ hdr ++ pipe :: body))
    (hhdr : form.Spelled hdr) (hpipe : pipe.lexeme = .pipe) (hname : classify v = .ident v)
    (hcap : form.captured schema = some v) :
    (new.dispatchAll (pre ++ hdr) schema).header pipe.anchor =
      some (v, (new.dispatchAll (pre ++ hdr) schema).receiverBinding) := by
  have hcand : (new.dispatchAll (pre ++ hdr) schema).lambdaFirstIdent = some v := by
    rw [dispatchAll_append, lambdaFirstIdent_dispatchAll]
    exact recordsBinder_header hhdr hcap _
  have hanchor : ¬(pipe.anchor = .start ∨ pipe.anchor = .expectSource) := by
    obtain ⟨hsource, hstart⟩ := pipe_anchor_of_tokens hpieces hpipe
    obtain ⟨p, hp, hne⟩ := hhdr.exists_not_start
    rintro (ha | ha)
    · exact hne (hstart ha p (List.mem_append_right _ hp))
    · exact hsource ha
  obtain ⟨_, b, u, hcons, _⟩ := classify_ident hname
  rw [header, if_neg hanchor, hcand]
  simp only
  rw [if_neg (by rw [hcons]; simp)]

/-- **The innermost binder wins.** In every live stream, from a header's
`|` for as long as the header's delimiter is open, a variable the header
captures, or one nothing outside constrains, is not narrowed from
outside. -/
theorem header_wins {schema : Schema} {toks : List Bytes} {p : Pda} {t : ScopeTracker}
    (hlive : drive schema freshStart toks = some (p, t)) {l : Lexer} {pre hdr body : List Piece}
    {pipe : Piece} (hpieces : Lexer.start.tokens toks = some (l, pre ++ hdr ++ pipe :: body))
    {form : HeaderForm} (hhdr : form.Spelled hdr) (hpipe : pipe.lexeme = .pipe)
    (hbody : Inside Piece.nesting body) {v : Bytes} (hname : classify v = .ident v)
    (hcond : form.captured schema = some v ∨
      (new.dispatchAll (pre ++ hdr) schema).constraintOn v schema = .none) :
    InnerWins schema pre hdr pipe body t v := by
  obtain ⟨up, more, hin⟩ := @within_body schema (pre ++ hdr) pipe hpipe body hbody
  refine ⟨up, _, hin, ?_⟩
  have ht : t.binding v = (scopes schema (pre ++ hdr ++ pipe :: body)).lookup freeStore v := by
    obtain ⟨l', ps, hps, _, _, rfl⟩ := pieces_of_drive hlive
    rw [hpieces] at hps
    cases hps
    exact congrFun (binding_dispatchAll schema _) v
  have houter := congrFun (binding_dispatchAll schema (pre ++ hdr)) v
  rw [hin.lookup_eq, ← houter] at ht
  rw [constraintOn_eq hname, ht]
  cases hfind : (up ++ [more ++
      ((new.dispatchAll (pre ++ hdr) schema).header pipe.anchor).toList]).find v with
  | some b => exact .inr ⟨b, rfl, rfl⟩
  | none =>
    left
    rcases hcond with hcap | hfree
    · -- the header's own binding is there to be found
      have hb := header_of_captured hpieces hhdr hpipe hname hcap
      have hmem : (v, (new.dispatchAll (pre ++ hdr) schema).receiverBinding) ∈ (up ++ [more ++
          ((new.dispatchAll (pre ++ hdr) schema).header pipe.anchor).toList]).flatten := by
        rw [hb]
        simp
      exact absurd hfind (Frames.find_ne_none_of_mem hmem)
    · rw [constraintOn_eq hname] at hfree
      exact hfree

/-! ### Two streams -/

/-- `|A.all()->filter(x|$x.toB->filter(`, a token a lexeme. -/
def outerTokens : List Bytes :=
  ["|", "A", ".", "all", "(", ")", "->", "filter", "(", "x", "|", "$", "x", ".", "toB", "->",
    "filter", "("].map ascii

/-- Its pieces. -/
def outerPieces : List Piece :=
  [⟨ascii "|", .start⟩, ⟨ascii "A", .expectSource⟩, ⟨ascii ".", .inSourceIdent⟩,
   ⟨ascii "all", .afterDot⟩, ⟨ascii "(", .inIdent⟩, ⟨ascii ")", .expectValue⟩,
   ⟨ascii "->", .afterValue⟩, ⟨ascii "filter", .afterArrow⟩, ⟨ascii "(", .inIdent⟩,
   ⟨ascii "x", .expectValue⟩, ⟨ascii "|", .inIdent⟩, ⟨ascii "$", .sawPipe⟩,
   ⟨ascii "x", .afterDollar⟩, ⟨ascii ".", .inIdent⟩, ⟨ascii "toB", .afterDot⟩,
   ⟨ascii "->", .inIdent⟩, ⟨ascii "filter", .afterArrow⟩, ⟨ascii "(", .inIdent⟩]

/-- The inner `x|`, read on from the outer header that binds `x` to `A`. -/
theorem header_wins_bare : ∃ c,
    drive Schema.sample freshStart (outerTokens ++ [ascii "x", ascii "|"]) = some c ∧
      InnerWins Schema.sample outerPieces [⟨ascii "x", .expectValue⟩] ⟨ascii "|", .inIdent⟩ [] c.2
        (ascii "x") := by
  obtain ⟨c, hc⟩ := Option.isSome_iff_exists.mp (show (drive Schema.sample freshStart
    (outerTokens ++ [ascii "x", ascii "|"])).isSome = true by decide +kernel)
  have hpieces : Lexer.start.tokens (outerTokens ++ [ascii "x", ascii "|"]) =
      some (⟨.sawPipe, [.paren, .paren], [], .sawPipe⟩,
        outerPieces ++ [⟨ascii "x", .expectValue⟩] ++ [⟨ascii "|", .inIdent⟩]) := by
    decide +kernel
  have hhdr : (HeaderForm.bare .value (ascii "x")).Spelled [⟨ascii "x", .expectValue⟩] :=
    .bare ⟨by decide +kernel, by decide⟩
  exact ⟨c, hc, header_wins hc hpieces hhdr (by decide) (by decide) (by decide) (.inl rfl)⟩

/-- The header `x: B[1]`, opened in `outerPieces`. -/
def typedHeader : List Piece :=
  [⟨ascii "x", .expectValue⟩, ⟨ascii ":", .inIdent⟩, ⟨ascii "B", .afterColonWs⟩,
   ⟨ascii "[", .inIdent⟩, ⟨ascii "1", .expectValue⟩, ⟨ascii "]", .inNumberInt⟩]

theorem typedHeader_spelled :
    (HeaderForm.typedMult .value ⟨ascii "x", ⟨ascii "B", []⟩, ascii "1"⟩).Spelled typedHeader :=
  have htype : SpellsType ⟨ascii "B", []⟩ [⟨ascii ":", .inIdent⟩, ⟨ascii "B", .afterColonWs⟩] :=
    .mk rfl ⟨by decide +kernel, by decide⟩ .nil
  have hname : Piece.IsName ⟨ascii "x", .expectValue⟩ (ascii "x") valueStates :=
    ⟨by decide +kernel, by decide⟩
  have hbinder : SpellsTyped valueStates ⟨ascii "x", ⟨ascii "B", []⟩, ascii "1"⟩
      (⟨ascii "x", .expectValue⟩ :: [⟨ascii ":", .inIdent⟩, ⟨ascii "B", .afterColonWs⟩] ++
        [⟨ascii "[", .inIdent⟩, ⟨ascii "1", .expectValue⟩, ⟨ascii "]", .inNumberInt⟩]) :=
    .mk hname htype rfl rfl rfl
  .typedMult hbinder

/-- Under the typed header the outer `x` still answers: `$x.` is narrowed to
the members of `A`, and nothing was bound since. -/
theorem typed_header_leaks : ∃ c, drive Schema.sample freshStart
      (outerTokens ++ ["x", ": ", "B", "[", "1", "]", "|"].map ascii) = some c ∧
    (∃ l, Lexer.start.tokens (outerTokens ++ ["x", ": ", "B", "[", "1", "]", "|"].map ascii) =
      some (l, outerPieces ++ typedHeader ++ [⟨ascii "|", .afterValue⟩])) ∧
    (HeaderForm.typedMult .value ⟨ascii "x", ⟨ascii "B", []⟩, ascii "1"⟩).Spelled typedHeader ∧
    c.2.constraintOn (ascii "x") Schema.sample = .member (ascii "A") ∧
    ¬ InnerWins Schema.sample outerPieces typedHeader ⟨ascii "|", .afterValue⟩ [] c.2
      (ascii "x") := by
  have hrun : (drive Schema.sample freshStart
      (outerTokens ++ ["x", ": ", "B", "[", "1", "]", "|"].map ascii)).map
        (fun c => c.2.constraintOn (ascii "x") Schema.sample) = some (.member (ascii "A")) := by
    decide +kernel
  obtain ⟨c, hc, hmember⟩ := Option.map_eq_some_iff.mp hrun
  refine ⟨c, hc, ⟨⟨.sawPipe, [.paren, .paren], [], .sawPipe⟩, by decide +kernel⟩,
    typedHeader_spelled, hmember, ?_⟩
  rintro ⟨up, more, hin, hwins⟩
  have hsame : scopes Schema.sample (outerPieces ++ typedHeader ++ [⟨ascii "|", .afterValue⟩]) =
      scopes Schema.sample (outerPieces ++ typedHeader) := by decide +kernel
  rw [hsame] at hin
  obtain ⟨rfl, rfl⟩ := hin.eq_nil
  rcases hwins with hnone | ⟨b, hb, _⟩
  · rw [hmember] at hnone
    cases hnone
  · cases hb

end PureCard
