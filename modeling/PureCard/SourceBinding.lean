/-
PureCard.SourceBinding — the class a pipeline source sets.

After `P.all()` the pipeline should run over the class `P`, wherever the
source stands and however it is cut. The tracker sees the class only when
`P` reaches it as one lexeme: a source position keeps the `::` inside the
lexeme, a value position cuts at every colon, and at a statement the first
letters may be taken for a `let`. And what the binder of the next lambda
stands for is what a navigation before the source left, if it left
something; behind an arrow in two pieces, which captures nothing, it is
the class of the pipeline, unless the method is the name of a class.

`source_binds` has the exact condition, for a source and an arrow spelled
by any list of pieces. `PathPieces` is all that is asked of the former.
-/
import PureCard.Receivers

namespace PureCard

open Scopes ScopeTracker

/-! ## A source -/

/-- The pieces spell the path, at a place where no member and no variable
is due. -/
structure PathPieces (path : Bytes) (ps : List Piece) : Prop where
  text : ps.flatMap Piece.text = path
  bytes : ∀ b ∈ path, isIdentTail b = true ∨ b = Byte.colon
  place : ∀ p ∈ ps, p.anchor ≠ .afterDollar ∧ p.anchor ≠ .afterDot

/-- `.all()` as pieces. -/
structure AllCall (d a o c : Piece) : Prop where
  dot : d.lexeme = .dot
  name : a.IsName sourceMethod [.afterDot]
  opener : o.IsMark Byte.lparen
  closer : c.IsMark Byte.rparen

/-- `->m(v|` as pieces, the arrow in one or in two. -/
structure LambdaStep (v : Bytes) (arrow : List Piece) (m o b pipe : Piece) : Prop where
  arrow : SpellsArrow arrow
  name : ∃ method, m.IsName method [.afterArrow]
  opener : o.IsMark Byte.lparen
  binder : b.IsName v valueStates
  pipe : pipe.lexeme = .pipe

/-- The last class path among the pieces. -/
def lastClassPath (schema : Schema) (ps : List Piece) : Option Bytes :=
  (ps.filterMap (Piece.classPath schema)).getLast?

/-- The class that a step `all` leaves behind: what it reaches from the
receiver, or without one what was reached before. -/
def ScopeTracker.leftover (t : ScopeTracker) (schema : Schema) : Option Bytes :=
  if t.receiverIsRow then none
  else t.receiver.elim t.navCursor fun base =>
    (schema.resolve base sourceMethod).bind Resolved.path?

/-! ## Reading the path -/

section

variable {schema : Schema}

theorem flat_of_not_mark {p : Piece} (h : p.lexeme.isMark = false) : p.nesting = .flat := by
  rw [Piece.nesting]
  cases hlex : p.lexeme with
  | «open» =>
    rw [hlex] at h
    cases h
  | close =>
    rw [hlex] at h
    cases h
  | _ => rfl

/-- A run that begins with no operator and no mark is neither. -/
theorem plain_of_first {b : UInt8}
    (h : b ∉ [Byte.lt, Byte.gt, Byte.eq, Byte.bang, Byte.dash] ++ markBytes) (u : Bytes) :
    (classify (b :: u)).isMark = false ∧ classify (b :: u) ≠ .arrow := by
  constructor
  · rw [Bool.eq_false_iff]
    intro hmark
    obtain ⟨c, hc, htext⟩ := classify_mark hmark
    obtain ⟨rfl, _⟩ := List.cons.inj htext
    exact h (List.mem_append_right _ hc)
  · intro harrow
    rcases classify_shape (b :: u) with ⟨_, hws⟩ | ⟨c, v, htext, hmem, _⟩ | ⟨c, htext, hmem, _⟩ |
      ⟨c, v, htext, hfirst⟩
    · rw [harrow] at hws
      cases hws
    · obtain ⟨rfl, _⟩ := List.cons.inj htext
      exact h (List.mem_append_left markBytes hmem)
    · obtain ⟨rfl, _⟩ := List.cons.inj htext
      exact h (List.mem_append_right _ hmem)
    · rcases classifyFirst_cases c (c :: v) with ⟨_, hid⟩ | hother
      · rw [harrow, hid] at hfirst
        cases hfirst
      · rw [← hfirst, harrow] at hother
        simp at hother

/-- A piece of a path is no punctuation and no arrow. -/
theorem lexeme_of_path {p : Piece} (h : ∀ b ∈ p.text, isIdentTail b = true ∨ b = Byte.colon) :
    p.lexeme.isMark = false ∧ p.lexeme ≠ .arrow := by
  have hnot : ∀ b ∈ [Byte.lt, Byte.gt, Byte.eq, Byte.bang, Byte.dash] ++ markBytes,
      isIdentTail b = false ∧ b ≠ Byte.colon := by decide +kernel
  rw [Piece.lexeme]
  cases htext : p.text with
  | nil => exact ⟨rfl, by decide⟩
  | cons b u =>
    refine plain_of_first ?_ u
    intro hmem
    rcases h b (by simp [htext]) with hb | hb
    · rw [(hnot b hmem).1] at hb
      cases hb
    · exact (hnot b hmem).2 hb

/-- A piece that is no mark and no arrow, and no name behind a `$` or a
`.`, leaves a navigation and the variables as they are. -/
theorem plain_dispatch {p : Piece} (hmark : p.lexeme.isMark = false) (harrow : p.lexeme ≠ .arrow)
    (hname : ∀ text, p.lexeme = .ident text → p.anchor ≠ .afterDollar ∧ p.anchor ≠ .afterDot)
    (t : ScopeTracker) : (t.dispatchToken p.text p.anchor schema).nav = t.nav ∧
      (t.dispatchToken p.text p.anchor schema).asUndo = t.asUndo := by
  have hpipe : p.lexeme ≠ .pipe := by
    intro hlex
    rw [hlex] at hmark
    cases hmark
  have hother : navigates p = false := by
    unfold navigates
    cases hlex : p.lexeme with
    | ident text => simp [hname text hlex]
    | dot =>
      rw [hlex] at hmark
      cases hmark
    | arrow => exact absurd hlex harrow
    | _ => rfl
  exact ⟨nav_dispatch_other hother t schema,
    asUndo_dispatchToken (flat_of_not_mark hmark) hpipe t schema⟩

/-- A path is read into the class of the pipeline and nothing else of what
the source needs. -/
theorem path_dispatchAll {ps : List Piece}
    (hbytes : ∀ p ∈ ps, ∀ b ∈ p.text, isIdentTail b = true ∨ b = Byte.colon)
    (hplace : ∀ p ∈ ps, p.anchor ≠ .afterDollar ∧ p.anchor ≠ .afterDot) (t : ScopeTracker) :
    (t.dispatchAll ps schema).nav = t.nav ∧
      (t.dispatchAll ps schema).asUndo = t.asUndo ∧
      (t.dispatchAll ps schema).curClass = (lastClassPath schema ps).or t.curClass := by
  induction ps generalizing t with
  | nil => exact ⟨rfl, rfl, rfl⟩
  | cons p ps ih =>
    obtain ⟨hmark, harrow⟩ := lexeme_of_path (hbytes p (by simp))
    obtain ⟨hnav₁, hundo₁⟩ := plain_dispatch hmark harrow (fun _ _ => hplace p (by simp)) t
    obtain ⟨hnav, hundo, hcls⟩ := ih (fun q hq => hbytes q (List.mem_cons_of_mem p hq))
      (fun q hq => hplace q (List.mem_cons_of_mem p hq)) (t.dispatchToken p.text p.anchor schema)
    rw [dispatchAll_cons]
    refine ⟨hnav.trans hnav₁, hundo.trans hundo₁, hcls.trans ?_⟩
    rw [curClass_dispatch (by simp [flat_of_not_mark hmark]), lastClassPath, lastClassPath, List.filterMap_cons]
    cases p.classPath schema with
    | none => rfl
    | some cls =>
      rw [List.getLast?_cons]
      cases (ps.filterMap (Piece.classPath schema)).getLast? <;> rfl

/-! ## The source -/

theorem receiver_congr {t u : ScopeTracker} (hnav : u.nav = t.nav) (hundo : u.asUndo = t.asUndo) :
    u.receiver = t.receiver ∧ u.receiverIsRow = t.receiverIsRow := by
  have hvar : u.pendingRefvar = t.pendingRefvar := congrArg Nav.refvar hnav
  have hcursor : u.navCursor = t.navCursor := congrArg Nav.cursor hnav
  have hbinding : ∀ v, u.classOf v = t.classOf v ∧ (v ∈ u.relationRowVars ↔ v ∈ t.relationRowVars) := by
    intro v
    have hb := congrFun (congrArg Undo.store hundo) v
    have hentry := congrArg Binding.entry hb
    have hrow := congrArg Binding.row hb
    exact ⟨congrArg Option.join hentry, decide_eq_decide.mp hrow⟩
  unfold receiver receiverIsRow
  rw [hvar, hcursor]
  cases t.pendingRefvar with
  | none => exact ⟨rfl, rfl⟩
  | some v => simp only [(hbinding v).1, (hbinding v).2, and_self]

/-- **What a source leaves.** -/
theorem source_dispatchAll {path : Bytes} {pre ps : List Piece} {d a o c : Piece} {n : Nat}
    (hlevel : level Piece.nesting 0 (pre ++ ps ++ [d, a]) = some n) (hps : PathPieces path ps)
    (hcall : AllCall d a o c) :
    (new.dispatchAll (pre ++ ps ++ [d, a] ++ [o, c]) schema).lastNavClass =
        (new.dispatchAll pre schema).leftover schema ∧
      (new.dispatchAll (pre ++ ps ++ [d, a] ++ [o, c]) schema).curClass =
        (if schema.hasClass sourceMethod then some sourceMethod
        else (lastClassPath schema ps).or (new.dispatchAll pre schema).curClass) ∧
      (new.dispatchAll (pre ++ ps ++ [d, a] ++ [o, c]) schema).pendingArrowReceiver = none := by
  obtain ⟨htext, hbytes, hplace⟩ := hps
  obtain ⟨hd, ha, ho, hc⟩ := hcall
  have hpieces : ∀ p ∈ ps, ∀ b ∈ p.text, isIdentTail b = true ∨ b = Byte.colon := fun p hp b hb =>
    hbytes b (by rw [← htext]; exact List.mem_flatMap.mpr ⟨p, hp, hb⟩)
  obtain ⟨hnav, hundo, hcls⟩ := @path_dispatchAll schema ps hpieces hplace (new.dispatchAll pre schema)
  have hopen : o.lexeme = .open := open_of_lparen ho
  have hclose : c.lexeme = .close := by
    rw [hc.lexeme]
    decide
  rw [dispatchAll_append new (pre ++ ps ++ [d, a])]
  -- in front of the list
  have hcursor : (new.dispatchAll (pre ++ ps ++ [d, a]) schema).lastNavClass =
      (new.dispatchAll pre schema).leftover schema := by
    obtain ⟨hreceiver, hrow⟩ := receiver_congr hnav hundo
    rw [last_eq_cursor, dispatchAll_append, dispatchAll_append, cursor_step hd ha, hreceiver, hrow,
      leftover, show ((new.dispatchAll pre schema).dispatchAll ps schema).navCursor =
        (new.dispatchAll pre schema).navCursor from congrArg Nav.cursor hnav]
  have hclass : (new.dispatchAll (pre ++ ps ++ [d, a]) schema).curClass =
      if schema.hasClass sourceMethod then some sourceMethod
      else (lastClassPath schema ps).or (new.dispatchAll pre schema).curClass := by
    have hflat : d.nesting ≠ .closes ∧ a.nesting ≠ .closes := by
      constructor
      · rw [Piece.nesting, hd]
        decide
      · rw [Piece.nesting, ha.1]
        decide
    rw [dispatchAll_append, dispatchAll_append, dispatchAll_cons, dispatchAll_cons, dispatchAll_nil,
      curClass_dispatch hflat.2, curClass_dispatch hflat.1, hcls, Piece.classPath, Piece.classPath,
      hd, ha.1]
    dsimp only
    cases schema.hasClass sourceMethod <;> rfl
  have hlast : (new.dispatchAll (pre ++ ps ++ [d, a]) schema).lastIdent = some sourceMethod :=
    (outlines schema _).last.trans (by
      rw [← List.singleton_append, ← List.append_assoc]
      exact lastIdentOf_name _ ha.1)
  have hstacked := (stacked_new.dispatchAll hlevel schema).1
  generalize new.dispatchAll (pre ++ ps ++ [d, a]) schema = w at hcursor hclass hlast hstacked
  refine ⟨?_, ?_, ?_⟩
  · have hquiet : ∀ (t : ScopeTracker) (p : Piece), p.lexeme = .open ∨ p.lexeme = .close →
        (t.dispatchToken p.text p.anchor schema).lastNavClass = t.lastNavClass := by
      intro t p hp
      have hother : navigates p = false := by
        rcases hp with hp | hp <;> simp [navigates, hp]
      exact congrArg Nav.last (nav_dispatch_other hother t schema)
    rw [dispatchAll_cons, dispatchAll_cons, dispatchAll_nil, hquiet _ c (.inr hclose),
      hquiet _ o (.inl hopen), hcursor]
  · have hlist := (@listLeaves w hstacked o c [] hopen hclose rfl schema).pipeline
    have hnot : opensAny establishingMethods (some sourceMethod) = false := by decide
    rw [hlast, hnot] at hlist
    have hempty : untilLambda [] = [] := rfl
    refine (congrArg Pipeline.cls hlist).trans ?_
    have hflat : o.nesting ≠ .closes := by
      rw [nesting_of_open hopen]
      decide
    have hnone : o.classPath schema = none := by rw [Piece.classPath, hopen]
    have hopened := @curClass_dispatch schema o hflat w
    rw [hnone, Option.none_or] at hopened
    exact hopened.trans hclass
  · rw [dispatchAll_cons, dispatchAll_cons, dispatchAll_nil, pending_close hclose]

/-- The class a lambda's binder is narrowed to is that of the list's
receiver. -/
theorem receiverBinding_position {t : ScopeTracker} {receiver : Option Bytes}
    (h : t.parenReceiver.head? = some receiver) (cls : Bytes) :
    t.receiverBinding.position.getD .none = .member cls ↔ receiver = some cls := by
  rw [receiverBinding, h, Option.join_some]
  cases receiver with
  | none =>
    simp only [Option.isNone_none, Bool.true_and]
    cases (t.relExplicit && t.sawTildeBracket) <;> simp
  | some r => simp

/-- The pipe of a `->m(v|` binds `v` to the receiver of the list. -/
theorem constraintOn_step {toks : List Bytes} {l : Lexer} {front arrow rest : List Piece}
    {v : Bytes} {m o b pipe : Piece}
    (hpieces : Lexer.start.tokens toks =
      some (l, front ++ arrow ++ [m] ++ [o, b] ++ pipe :: rest))
    (hstep : LambdaStep v arrow m o b pipe) (cls : Bytes) :
    (new.dispatchAll (front ++ arrow ++ [m] ++ [o, b] ++ [pipe]) schema).constraintOn v schema =
        .member cls ↔
      listReceiver (new.dispatchAll front schema) schema arrow m = some cls := by
  obtain ⟨harrow, ⟨method, hm⟩, ho, hb, hpipe⟩ := hstep
  have hheader := @header_bare schema toks l _ rest o b pipe v hpieces hb hpipe
  have hparen := @parenReceiver_step schema arrow m o b method v harrow hm.1 (open_of_lparen ho)
    hb.1 front
  rw [constraintOn_eq hb.classify_eq, dispatchAll_append new (front ++ arrow ++ [m] ++ [o, b])]
  generalize new.dispatchAll (front ++ arrow ++ [m] ++ [o, b]) schema = t at hheader hparen
  have hbound : (t.dispatchAll [pipe] schema).binding v = t.receiverBinding := by
    have hundo := asUndo_onPipe t pipe.anchor
    rw [hheader] at hundo
    have hstore := congrFun (congrArg Undo.store hundo) v
    rw [dispatchAll_cons, dispatchAll_nil, dispatchToken_eq hpipe (by simp)]
    refine Eq.trans hstore ?_
    exact Function.update_self ..
  rw [hbound]
  exact receiverBinding_position hparen cls

/-- After the source the class of the pipeline is `path`, and after the
lambda step that follows it `$v.` is narrowed to the members of `path`. -/
def SourceBinds (schema : Schema) (path v : Bytes) (source step : List Piece) : Prop :=
  (new.dispatchAll source schema).curClass = some path ∧
    (new.dispatchAll (source ++ step) schema).constraintOn v schema = .member path

instance (schema : Schema) (path v : Bytes) (source step : List Piece) :
    Decidable (SourceBinds schema path v source step) := inferInstanceAs (Decidable (_ ∧ _))

/-- Behind a source the list of `->m(` takes the class of the pipeline: an
arrow in one piece captures it when no other class was left over, and in
front of an arrow in two pieces none waits, so that only the name `m` can
be another class. -/
def StepKeeps (t : ScopeTracker) (schema : Schema) (path : Bytes) (arrow : List Piece)
    (m : Piece) : Prop :=
  if arrow.length = 1 then t.leftover schema = none ∨ t.leftover schema = some path
  else m.classPath schema = none ∨ m.classPath schema = some path

instance (t : ScopeTracker) (schema : Schema) (path : Bytes) (arrow : List Piece) (m : Piece) :
    Decidable (StepKeeps t schema path arrow m) := inferInstanceAs (Decidable (ite ..))

/-- **The class a source sets.** At a source `P.all()` of a live stream,
wherever it stands and however it and the arrow behind it are cut, the
pipeline and the binder of the lambda right behind it are of class `P`
exactly when `P` is the last class path that a lexeme of its own spells,
or the class of the pipeline around it; `all` is no other class; and no
navigation before the source left another class, or the arrow is in two
pieces and the name behind it is no other class. -/
theorem source_binds {toks : List Bytes} {l : Lexer} {pre ps arrow rest : List Piece}
    {path v : Bytes} {d a o c m o' b pipe : Piece}
    (hpieces : Lexer.start.tokens toks =
      some (l, pre ++ ps ++ [d, a] ++ [o, c] ++ arrow ++ [m] ++ [o', b] ++ pipe :: rest))
    (hps : PathPieces path ps) (hcall : AllCall d a o c) (hstep : LambdaStep v arrow m o' b pipe) :
    SourceBinds schema path v (pre ++ ps ++ [d, a] ++ [o, c])
        (arrow ++ [m] ++ [o', b] ++ [pipe]) ↔
      (if schema.hasClass sourceMethod then path = sourceMethod
        else (lastClassPath schema ps).or (new.dispatchAll pre schema).curClass = some path) ∧
      StepKeeps (new.dispatchAll pre schema) schema path arrow m := by
  obtain ⟨_, h1, _⟩ := level_prefix (level_tokens hpieces)
  obtain ⟨_, h2, _⟩ := level_prefix h1
  obtain ⟨_, h3, _⟩ := level_prefix h2
  obtain ⟨_, h4, _⟩ := level_prefix h3
  obtain ⟨n, hlevel, _⟩ := level_prefix h4
  obtain ⟨hlast, hcls, hpending⟩ :=
    @source_dispatchAll schema path pre ps d a o c n hlevel hps hcall
  have hsplit : pre ++ ps ++ [d, a] ++ [o, c] ++ (arrow ++ [m] ++ [o', b] ++ [pipe]) =
      pre ++ ps ++ [d, a] ++ [o, c] ++ arrow ++ [m] ++ [o', b] ++ [pipe] := by
    simp only [List.append_assoc]
  have hclass : (if schema.hasClass sourceMethod = true then some sourceMethod
        else (lastClassPath schema ps).or (new.dispatchAll pre schema).curClass) = some path ↔
      if schema.hasClass sourceMethod = true then path = sourceMethod
        else (lastClassPath schema ps).or (new.dispatchAll pre schema).curClass = some path := by
    cases schema.hasClass sourceMethod with
    | true => simp [eq_comm]
    | false => simp
  rw [SourceBinds, hsplit, constraintOn_step hpieces hstep, hcls, hclass]
  refine and_congr_right fun h => ?_
  rw [listReceiver, hlast, hcls, hclass.mpr h, hpending, Option.getD_none, StepKeeps]
  by_cases hone : arrow.length = 1
  · rw [if_pos hone, if_pos hone]
    cases (new.dispatchAll pre schema).leftover schema <;> simp
  · rw [if_neg hone, if_neg hone]
    cases m.classPath schema <;> simp

end

/-! ## Sources at a source position -/

/-- The states inside the class path of a source. -/
def sourcePathStates : List State := [.inSourceIdent, .sourceColon, .sourceColon2]

/-- The states that wait for a source. -/
def sourceStates : List State := [.expectSource, .blockStmt, .blockStmtClose]

/-- A path is entered from a state that waits for a source and is left by
`.` or `-` only. -/
def sourceRow (s : State) (k : ByteClass) (s' : State) : Bool :=
  (!decide (s ∈ sourceStates) || s' == .inSourceIdent ||
      decide (k ∈ [ByteClass.ws, .one Byte.dollar, .one Byte.rbrace]) ||
      (k == .one Byte.l && s != .expectSource)) &&
    (!decide (s ∈ sourcePathStates) || decide (s' ∈ sourcePathStates) ||
      decide (k ∈ [ByteClass.one Byte.dot, .one Byte.dash]))

theorem checkEdges_sourceRow : checkEdges sourceRow = true := by decide +kernel

/-- The next byte of a path keeps to the path. -/
theorem sourceStep {s : State} {st : List Frame} {b : UInt8} {c : State × List Frame}
    (h : Pushdown.advance step (s, st) b = some c)
    (hb : isIdentTail b = true ∨ b = Byte.colon) :
    (s ∈ sourceStates → s = .expectSource ∨ b ≠ Byte.l → c.1 = .inSourceIdent) ∧
      (s ∈ sourcePathStates → c.1 ∈ sourcePathStates) := by
  obtain ⟨k, hk, hrow⟩ := advance_check checkEdges_sourceRow h
  have hone : ∀ x, k = .one x → b = x := by
    rintro x rfl
    simpa [ByteClass.has] using hk
  have hnot : ∀ x ∈ [Byte.dollar, Byte.rbrace, Byte.dot, Byte.dash], k ≠ .one x := by
    intro x hx hkx
    have hall : [Byte.dollar, Byte.rbrace, Byte.dot, Byte.dash].all
        (fun c => !isIdentTail c && c != Byte.colon) = true := by decide
    have hx' := List.all_eq_true.mp hall x hx
    rw [hone x hkx] at hb
    rcases hb with hb | rfl
    · simp [hb] at hx'
    · simp at hx'
  have hws : k ≠ .ws := by
    rintro rfl
    have hspace := Reader.isAsciiWhitespace_of_ws hk
    rcases hb with hb | rfl
    · rw [isAsciiWhitespace_of_tail hb] at hspace
      cases hspace
    · revert hspace
      decide
  simp only [sourceRow, Bool.and_eq_true, Bool.or_eq_true, Bool.not_eq_true',
    decide_eq_false_iff_not, decide_eq_true_eq, beq_iff_eq, bne_iff_ne, ne_eq] at hrow
  constructor
  · intro hs hl
    rcases hrow.1 with ((h1 | h1) | h1) | ⟨h1, hne⟩
    · exact absurd hs h1
    · exact h1
    · simp only [List.mem_cons, List.not_mem_nil, or_false] at h1
      rcases h1 with h1 | h1 | h1
      · exact absurd h1 hws
      · exact absurd h1 (hnot _ (by simp))
      · exact absurd h1 (hnot _ (by simp))
    · exact absurd (hone _ h1) (hl.resolve_left hne)
  · intro hs
    rcases hrow.2 with (h1 | h1) | h1
    · exact absurd hs h1
    · exact h1
    · simp only [List.mem_cons, List.not_mem_nil, or_false] at h1
      rcases h1 with h1 | h1
      · exact absurd h1 (hnot _ (by simp))
      · exact absurd h1 (hnot _ (by simp))

theorem lexemeKind_sourcePath {s : State} (h : s ∈ sourcePathStates) :
    s.lexemeKind = some .ident := by
  simp only [sourcePathStates, List.mem_cons, List.not_mem_nil, or_false] at h
  rcases h with rfl | rfl | rfl <;> rfl

/-- In the path of a source its bytes are one lexeme, whatever the cuts. -/
theorem read_sourcePath {syms : List Sym} {r r' : Reader}
    (hs : r.lexer.state ∈ sourcePathStates)
    (hbytes : ∀ b ∈ symBytes syms, isIdentTail b = true ∨ b = Byte.colon)
    (h : r.read syms = some r') :
    r'.all = r.done ++ [⟨r.lexer.seg ++ symBytes syms, r.lexer.anchor⟩] := by
  induction syms generalizing r with
  | nil =>
    cases h
    rw [Reader.all, Reader.pieces_lexeme (by simp [lexemeKind_sourcePath hs]), symBytes,
      List.flatMap_nil, List.append_nil]
  | cons s syms ih =>
    cases s with
    | cut =>
      rw [Reader.read, Reader.cut_lexeme (lexemeKind_sourcePath hs)] at h
      exact ih hs hbytes h
    | byte b =>
      rw [Reader.read] at h
      cases hadv : Pushdown.advance step (r.lexer.state, r.lexer.stack) b with
      | none =>
        rw [hadv] at h
        cases h
      | some c =>
        simp only [hadv] at h
        have hnext := (sourceStep hadv (hbytes b List.mem_cons_self)).2 hs
        have hkind : r.lexer.state.lexemeKind = c.1.lexemeKind := by
          rw [lexemeKind_sourcePath hs, lexemeKind_sourcePath hnext]
        rw [Reader.byte_same b hkind] at h
        have hrest := ih (r := ⟨⟨c.1, c.2, r.lexer.seg ++ [b], r.lexer.anchor⟩, r.done⟩) hnext
          (fun x hx => hbytes x (List.mem_cons_of_mem b hx)) h
        rw [hrest, List.append_assoc]
        rfl

/-- **A source position reads the path whole**, under every tokenization;
at a statement it must not begin with the `l` of a `let`. -/
theorem source_whole {b : UInt8} {syms : List Sym} {r r' : Reader}
    (hs : r.lexer.state ∈ sourceStates) (hl : r.lexer.state = .expectSource ∨ b ≠ Byte.l)
    (hbytes : ∀ x ∈ b :: symBytes syms, isIdentTail x = true ∨ x = Byte.colon)
    (h : r.read (.byte b :: syms) = some r') :
    r'.all = r.all ++ [⟨b :: symBytes syms, r.lexer.state⟩] := by
  rw [Reader.read] at h
  cases hadv : Pushdown.advance step (r.lexer.state, r.lexer.stack) b with
  | none =>
    rw [hadv] at h
    cases h
  | some c =>
    simp only [hadv] at h
    have hnext := (sourceStep hadv (hbytes b List.mem_cons_self)).1 hs hl
    have hnone : r.lexer.state.lexemeKind = none := by
      simp only [sourceStates, List.mem_cons, List.not_mem_nil, or_false] at hs
      rcases hs with hs | hs | hs <;> rw [hs] <;> rfl
    have hkind : r.lexer.state.lexemeKind ≠ c.1.lexemeKind := by
      rw [hnone, hnext]
      decide
    rw [Reader.byte_other b hkind] at h
    exact read_sourcePath (r := ⟨⟨c.1, c.2, [b], r.lexer.state⟩, r.all⟩)
      (show c.1 ∈ sourcePathStates by rw [hnext]; decide)
      (fun x hx => hbytes x (List.mem_cons_of_mem b hx)) h

/-! ### Two sources -/

/-- `A` and `m::P`. -/
def pathSchema : Schema :=
  .ofData
    { dbPath := ascii "d"
      classes := AList.insert (ascii "A") ⟨[], [], []⟩
        (AList.insert (ascii "m::P") ⟨[], [], []⟩ ∅)
      associations := [] }

/-- The pieces of `.all`. -/
def allPieces (anchor : State) : List Piece := [⟨ascii ".", anchor⟩, ⟨ascii "all", .afterDot⟩]

/-- The pieces of `()`. -/
def emptyList : List Piece := [⟨ascii "(", .inIdent⟩, ⟨ascii ")", .inIdent⟩]

/-- The pieces of `->map(v|`, the arrow as given. -/
def mapPieces (arrow : List Piece) : List Piece :=
  arrow ++ [⟨ascii "map", .afterArrow⟩] ++ [⟨ascii "(", .inIdent⟩, ⟨ascii "v", .expectValue⟩] ++
    [⟨ascii "|", .inIdent⟩]

/-- The pieces of `|A.all()->filter(x|m::P.all()`. -/
def pathInFilter : List Piece :=
  [⟨ascii "|", .start⟩, ⟨ascii "A", .expectSource⟩] ++ allPieces .inSourceIdent ++ emptyList ++
    [⟨ascii "->", .inIdent⟩, ⟨ascii "filter", .afterArrow⟩, ⟨ascii "(", .inIdent⟩,
      ⟨ascii "x", .expectValue⟩, ⟨ascii "|", .inIdent⟩] ++
    [⟨ascii "m", .sawPipe⟩, ⟨ascii ":", .inIdent⟩, ⟨ascii ":", .inIdent⟩,
      ⟨ascii "P", .afterColon2⟩] ++ allPieces .inIdent ++ emptyList

theorem allCall (anchor : State) : AllCall ⟨ascii ".", anchor⟩ ⟨ascii "all", .afterDot⟩
    ⟨ascii "(", .inIdent⟩ ⟨ascii ")", .inIdent⟩ where
  dot := show classify (ascii ".") = .dot by decide +kernel
  name := ⟨by decide +kernel, by decide⟩
  opener := rfl
  closer := rfl

theorem mapStep {arrow : List Piece} (harrow : SpellsArrow arrow) :
    LambdaStep (ascii "v") arrow ⟨ascii "map", .afterArrow⟩ ⟨ascii "(", .inIdent⟩
      ⟨ascii "v", .expectValue⟩ ⟨ascii "|", .inIdent⟩ where
  arrow := harrow
  name := ⟨ascii "map", by decide +kernel, by decide⟩
  opener := rfl
  binder := ⟨by decide +kernel, by decide⟩
  pipe := by decide +kernel

/-- In `|m::P.all()->map(v|` the path is one lexeme, and `v` is an
`m::P`, also with the arrow in two tokens. -/
theorem source_binds_first :
    SourceBinds pathSchema (ascii "m::P") (ascii "v")
      ([⟨ascii "|", .start⟩] ++ [⟨ascii "m::P", .expectSource⟩] ++ allPieces .inSourceIdent ++
        emptyList)
      (mapPieces [⟨ascii "->", .inIdent⟩]) ∧
    SourceBinds pathSchema (ascii "m::P") (ascii "v")
      ([⟨ascii "|", .start⟩] ++ [⟨ascii "m::P", .expectSource⟩] ++ allPieces .inSourceIdent ++
        emptyList)
      (mapPieces [⟨ascii "-", .inIdent⟩, ⟨ascii ">", .sawDash⟩]) := by
  have hwhole : Lexer.start.tokens [ascii "|m::P.all()->map(v|"] =
      some (⟨.sawPipe, [.paren], [], .sawPipe⟩,
        [⟨ascii "|", .start⟩] ++ [⟨ascii "m::P", .expectSource⟩] ++ allPieces .inSourceIdent ++
          emptyList ++ [⟨ascii "->", .inIdent⟩] ++ [⟨ascii "map", .afterArrow⟩] ++
          [⟨ascii "(", .inIdent⟩, ⟨ascii "v", .expectValue⟩] ++ [⟨ascii "|", .inIdent⟩]) := by
    decide +kernel
  have hcut : Lexer.start.tokens [ascii "|m::P.all()-", ascii ">map(v|"] =
      some (⟨.sawPipe, [.paren], [], .sawPipe⟩,
        [⟨ascii "|", .start⟩] ++ [⟨ascii "m::P", .expectSource⟩] ++ allPieces .inSourceIdent ++
          emptyList ++ [⟨ascii "-", .inIdent⟩, ⟨ascii ">", .sawDash⟩] ++
          [⟨ascii "map", .afterArrow⟩] ++
          [⟨ascii "(", .inIdent⟩, ⟨ascii "v", .expectValue⟩] ++ [⟨ascii "|", .inIdent⟩]) := by
    decide +kernel
  have hps : PathPieces (ascii "m::P") [⟨ascii "m::P", .expectSource⟩] :=
    ⟨by decide +kernel, by decide +kernel, by decide⟩
  exact ⟨(source_binds hwhole hps (allCall .inSourceIdent) (mapStep (by decide +kernel))).mpr
      (by decide +kernel),
    (source_binds hcut hps (allCall .inSourceIdent) (mapStep (by decide +kernel))).mpr
      (by decide +kernel)⟩

/-- In `|A.all()->filter(x|m::P.all()->map(v|` the path is cut at its
colons, neither end of it is a class, and `v` is narrowed to the members of
the outer `A`. -/
theorem nested_path_unseen :
    (∃ l, Lexer.start.tokens [ascii "|A.all()->filter(x|m::P.all()->map(v|"] =
      some (l, pathInFilter ++ mapPieces [⟨ascii "->", .inIdent⟩])) ∧
    pathSchema.hasClass (ascii "m::P") = true ∧
    ¬ SourceBinds pathSchema (ascii "m::P") (ascii "v") pathInFilter
      (mapPieces [⟨ascii "->", .inIdent⟩]) ∧
    (drive pathSchema freshStart [ascii "|A.all()->filter(x|m::P.all()->map(v|$v."]).map
      (fun c => c.2.position c.1.state) = some (.member (ascii "A")) :=
  ⟨⟨⟨.sawPipe, [.paren, .paren], [], .sawPipe⟩, by decide +kernel⟩, by decide +kernel,
    by decide +kernel, by decide +kernel⟩

end PureCard
