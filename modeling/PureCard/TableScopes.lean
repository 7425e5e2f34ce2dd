/-
PureCard.TableScopes — column narrowing and open table scopes.

Rule N6 narrows the argument of a column call once the relation is named.
A pipeline that starts at `D->tableReference(..)->tableToTDS()` has no
names of its own until one of its establishing steps has closed, so no
position in it should be narrowed before. The flag the rule reads is not
the pipeline's: whatever establishing list closed last is in force until a
lambda body around it closes or a nested `all()` opens.

`InForce` says so about the text alone, and `inForce_iff` that the flag is
just that. `table_scope` then says when a position of an open table scope
is narrowed: in the argument of a column call, while an establishing list
of some other pipeline is in force.
-/
import PureCard.Schema.Columns
import PureCard.Schema.Pipelines

namespace PureCard

open Scopes ScopeTracker

/-! ## The open lists of a text -/

/-- The identifier an opener would take for its method. -/
def Piece.recordsIdent (last : Option Bytes) (p : Piece) : Option Bytes :=
  match p.lexeme with
  | .ident text => some text
  | .ws | .dot | .cmp | .pipe | .close => last
  | _ => none

/-- The methods of the open lists, the innermost first, and the identifier
the next opener would take. -/
structure Outline where
  lists : List (Option Bytes)
  last : Option Bytes

def Outline.step (o : Outline) (p : Piece) : Outline where
  lists :=
    match p.lexeme with
    | .open => o.last :: o.lists
    | .close => o.lists.tail
    | _ => o.lists
  last := p.recordsIdent o.last

def outline (ps : List Piece) : Outline := ps.foldl Outline.step ⟨[], none⟩

def openLists (ps : List Piece) : List (Option Bytes) := (outline ps).lists

def lastIdentOf (ps : List Piece) : Option Bytes := (outline ps).last

/-- A list opened by one of `names` is open. -/
def InList (names : List Bytes) (ps : List Piece) : Prop :=
  (openLists ps).any (opensAny names) = true

instance (names : List Bytes) (ps : List Piece) : Decidable (InList names ps) :=
  inferInstanceAs (Decidable (_ = _))

/-- The depths of the lists opened by one of `names`. -/
def depthsOf (names : List Bytes) : List (Option Bytes) → List Nat
  | [] => []
  | m :: rest =>
    if opensAny names m then (rest.length + 1) :: depthsOf names rest else depthsOf names rest

theorem depthsOf_le {names : List Bytes} {ms : List (Option Bytes)} {d : Nat}
    (h : d ∈ depthsOf names ms) : d ≤ ms.length := by
  induction ms with
  | nil => cases h
  | cons m ms ih =>
    rw [depthsOf] at h
    rw [List.length_cons]
    split at h
    · rcases List.mem_cons.mp h with rfl | h
      · omega
      · have := ih h
        omega
    · have := ih h
      omega

theorem depthsOf_eq_nil {names : List Bytes} {ms : List (Option Bytes)} :
    depthsOf names ms = [] ↔ ms.any (opensAny names) = false := by
  induction ms with
  | nil => simp [depthsOf]
  | cons m ms ih =>
    rw [depthsOf, List.any_cons]
    cases opensAny names m with
    | true => simp
    | false => simpa using ih

/-- A closer takes its own list off. -/
theorem depthsOf_tail (names : List Bytes) (ms : List (Option Bytes)) :
    (if (depthsOf names ms).head? = some ms.length then (depthsOf names ms).tail
      else depthsOf names ms) = depthsOf names ms.tail := by
  cases ms with
  | nil => rfl
  | cons m ms =>
    rw [depthsOf, List.tail_cons, List.length_cons]
    cases opensAny names m with
    | true => simp
    | false =>
      have hne : (depthsOf names ms).head? ≠ some (ms.length + 1) := by
        intro h
        have hle := depthsOf_le (List.mem_of_mem_head? h)
        omega
      simp [hne]

/-- The ledger of a stream keeps the lists of its text. -/
structure Ledger.Outlines (l : Ledger) (o : Outline) : Prop where
  last : l.last = o.last
  depth : l.depth = o.lists.length
  est : l.est = depthsOf establishingMethods o.lists
  ref : l.ref = depthsOf refMethods o.lists

theorem Ledger.Outlines.step {l : Ledger} {o : Outline} (h : l.Outlines o) (schema : Schema)
    (p : Piece) : (l.step schema p).Outlines (o.step p) := by
  obtain ⟨hlast, hdepth, hest, href⟩ := h
  unfold Ledger.step Outline.step Piece.recordsIdent
  cases p.lexeme with
  | «open» =>
    refine ⟨rfl, ?_, ?_, ?_⟩
    · exact congrArg (· + 1) hdepth
    · rw [depthsOf, ← hlast, ← hest, ← hdepth]
      rfl
    · rw [depthsOf, ← hlast, ← href, ← hdepth]
      rfl
  | close =>
    refine ⟨hlast, ?_, ?_, ?_⟩
    · dsimp only
      rw [List.length_tail, ← hdepth]
      rfl
    · dsimp only
      rw [← depthsOf_tail, ← hest, ← hdepth]
      rfl
    · dsimp only
      rw [← depthsOf_tail, ← href, ← hdepth]
      rfl
  | pipe => cases p.isLambdaPipe <;> exact ⟨hlast, hdepth, hest, href⟩
  | ident text => exact ⟨rfl, hdepth, hest, href⟩
  | ws => exact ⟨hlast, hdepth, hest, href⟩
  | dot => exact ⟨hlast, hdepth, hest, href⟩
  | cmp => exact ⟨hlast, hdepth, hest, href⟩
  | _ => exact ⟨rfl, hdepth, hest, href⟩

theorem outlines (schema : Schema) (ps : List Piece) :
    (ScopeTracker.new.dispatchAll ps schema).ledger.Outlines (outline ps) := by
  rw [ledger_dispatchAll, outline]
  have hstart : ScopeTracker.new.ledger.Outlines ⟨[], none⟩ := ⟨rfl, rfl, rfl, rfl⟩
  generalize ScopeTracker.new.ledger = l at hstart
  generalize (⟨[], none⟩ : Outline) = o at hstart
  induction ps generalizing l o with
  | nil => exact hstart
  | cons p ps ih => exact ih _ _ (hstart.step schema p)

/-! ## The establishing list in force -/

/-- The establishing list that closes at piece `n` is in force after the
pieces: since then no lambda body around it has closed and no nested
`all()` has opened, other than in a lambda body that has closed again. -/
inductive InForce : Nat → List Piece → Prop where
  | list {front body : List Piece} {o c : Piece} (ho : o.lexeme = .open)
      (hbody : Balanced Piece.nesting body) (hc : c.lexeme = .close)
      (hm : opensAny establishingMethods (lastIdentOf front) = true) :
      InForce (front ++ o :: body).length (front ++ o :: body ++ [c])
  | around {n : Nat} {front body : List Piece} {o c : Piece} (ho : o.lexeme = .open)
      (hbody : Balanced Piece.nesting body) (hc : c.lexeme = .close)
      (hm : opensAny establishingMethods (lastIdentOf front) = false)
      (h : InForce n (front ++ o :: untilLambda body)) : InForce n (front ++ o :: body ++ [c])
  | opens {n : Nat} {ps : List Piece} {o : Piece} (ho : o.lexeme = .open)
      (hall : ¬ (lastIdentOf ps = some sourceMethod ∧ openLists ps ≠ [])) (h : InForce n ps) :
      InForce n (ps ++ [o])
  | flat {n : Nat} {ps : List Piece} {p : Piece} (hp : p.nesting = .flat) (h : InForce n ps) :
      InForce n (ps ++ [p])

theorem firstLambdaAt_prefix {n : Nat} {ps b : List Piece} (h : firstLambdaAt n ps = some b) :
    ∃ rest, ps = b ++ rest := by
  induction ps generalizing n b with
  | nil => cases h
  | cons p ps ih =>
    rw [firstLambdaAt] at h
    split at h
    · cases h
      exact ⟨p :: ps, rfl⟩
    · obtain ⟨m, _, hm⟩ := Option.bind_eq_some_iff.mp h
      obtain ⟨b', hb', rfl⟩ := Option.map_eq_some_iff.mp hm
      obtain ⟨rest, rfl⟩ := ih hb'
      exact ⟨rest, rfl⟩

/-- What comes before a list's first lambda pipe is the front of its
body. -/
theorem untilLambda_prefix (body : List Piece) : ∃ rest, body = untilLambda body ++ rest := by
  rw [untilLambda]
  cases h : firstLambda body with
  | none => exact ⟨[], (List.append_nil body).symm⟩
  | some b => exact firstLambdaAt_prefix h

section

variable {schema : Schema}

/-- The flag after one more piece that opens or is flat. -/
theorem relExplicit_open (ps : List Piece) {o : Piece} (ho : o.lexeme = .open) :
    (ScopeTracker.new.dispatchAll (ps ++ [o]) schema).relExplicit = true ↔
      ¬ (lastIdentOf ps = some sourceMethod ∧ openLists ps ≠ []) ∧
        (ScopeTracker.new.dispatchAll ps schema).relExplicit = true := by
  obtain ⟨hlast, hdepth, _, _⟩ := outlines schema ps
  rw [dispatchAll_append, dispatchAll_cons, dispatchAll_nil]
  generalize ScopeTracker.new.dispatchAll ps schema = t at hlast hdepth
  have hstep : (t.dispatchToken o.text o.anchor schema).ledger = t.ledger.openList o.anchor := by
    rw [ledger_dispatch, Ledger.step, ho]
  have hflag : (t.dispatchToken o.text o.anchor schema).relExplicit =
      (t.ledger.openList o.anchor).pipeline.explicit := congrArg (·.pipeline.explicit) hstep
  have hnested : (t.ledger.last = some sourceMethod ∧ nestedSourceMinDepth ≤ t.ledger.depth + 1) ↔
      (lastIdentOf ps = some sourceMethod ∧ openLists ps ≠ []) := by
    have hpos : nestedSourceMinDepth ≤ t.ledger.depth + 1 ↔ openLists ps ≠ [] := by
      rw [hdepth, ← List.length_pos_iff, nestedSourceMinDepth, openLists]
      omega
    rw [hlast, hpos]
    rfl
  rw [hflag, Ledger.openList]
  by_cases hall : t.ledger.last = some sourceMethod ∧ nestedSourceMinDepth ≤ t.ledger.depth + 1
  · rw [if_pos hall]
    exact iff_of_false Bool.false_ne_true fun h => h.1 (hnested.mp hall)
  · rw [if_neg hall]
    exact ⟨fun h => ⟨fun hn => hall (hnested.mpr hn), h⟩, fun h => h.2⟩

theorem relExplicit_flat (ps : List Piece) {p : Piece} (hp : p.nesting = .flat) :
    (ScopeTracker.new.dispatchAll (ps ++ [p]) schema).relExplicit =
      (ScopeTracker.new.dispatchAll ps schema).relExplicit := by
  rw [dispatchAll_append, dispatchAll_cons, dispatchAll_nil]
  generalize ScopeTracker.new.dispatchAll ps schema = t
  have hstep : (t.ledger.step schema p).pipeline.explicit = t.relExplicit := by
    rw [Piece.nesting] at hp
    unfold Ledger.step
    cases hlex : p.lexeme with
    | ident text =>
      dsimp only
      cases schema.hasClass text <;> rfl
    | pipe =>
      dsimp only
      cases p.isLambdaPipe <;> rfl
    | «open» =>
      rw [hlex] at hp
      cases hp
    | close =>
      rw [hlex] at hp
      cases hp
    | _ => rfl
  exact (congrArg (·.pipeline.explicit) (ledger_dispatch t p schema)).trans hstep

/-- The flag after a list. -/
theorem relExplicit_list {front body : List Piece} {o c : Piece} {n : Nat}
    (hfront : level Piece.nesting 0 front = some n) (ho : o.lexeme = .open)
    (hbody : Balanced Piece.nesting body) (hc : c.lexeme = .close) :
    (ScopeTracker.new.dispatchAll (front ++ o :: body ++ [c]) schema).relExplicit =
      (opensAny establishingMethods (lastIdentOf front) ||
        (ScopeTracker.new.dispatchAll (front ++ o :: untilLambda body) schema).relExplicit) := by
  have hstacked := (stacked_new.dispatchAll hfront schema).1
  have hlist := (listLeaves hstacked ho hc hbody schema).pipeline
  have hlast : (ScopeTracker.new.dispatchAll front schema).lastIdent = lastIdentOf front :=
    (outlines schema front).last
  rw [hlast] at hlist
  rw [List.append_assoc, dispatchAll_append new front (o :: body ++ [c]),
    dispatchAll_append new front (o :: untilLambda body)]
  refine (congrArg Pipeline.explicit hlist).trans ?_
  cases opensAny establishingMethods (lastIdentOf front) <;> rfl

/-- **The flag is an establishing list in force.** -/
theorem inForce_iff {ps : List Piece} {k : Nat} (h : level Piece.nesting 0 ps = some k) :
    (ScopeTracker.new.dispatchAll ps schema).relExplicit = true ↔ ∃ n, InForce n ps := by
  constructor
  · intro hflag
    induction hlen : ps.length using Nat.strong_induction_on generalizing ps k with
    | _ len ih =>
      rcases List.eq_nil_or_concat ps with rfl | ⟨ps', p, rfl⟩
      · cases hflag
      · rw [List.concat_eq_append] at h hlen hflag ⊢
        rw [List.length_append, List.length_singleton] at hlen
        obtain ⟨m, hm, hp⟩ := level_prefix h
        cases hk : p.nesting with
        | opens =>
          have ho := lexeme_of_opens hk
          obtain ⟨hall, hflag⟩ := (relExplicit_open ps' ho).mp hflag
          obtain ⟨n, hn⟩ := ih ps'.length (by omega) hm hflag rfl
          exact ⟨n, .opens ho hall hn⟩
        | flat =>
          rw [relExplicit_flat ps' hk] at hflag
          obtain ⟨n, hn⟩ := ih ps'.length (by omega) hm hflag rfl
          exact ⟨n, .flat hk hn⟩
        | closes =>
          cases m with
          | zero =>
            rw [level_closes_zero hk] at hp
            cases hp
          | succ m =>
            obtain ⟨front, o, body, rfl, hfront, ho, hbody⟩ := exists_open hm
            have ho' := lexeme_of_opens ho
            have hc' := lexeme_of_closes hk
            rw [relExplicit_list hfront ho' hbody hc', Bool.or_eq_true] at hflag
            cases hest : opensAny establishingMethods (lastIdentOf front) with
            | true => exact ⟨_, .list ho' hbody hc' hest⟩
            | false =>
              have hinner := hflag.resolve_left (by rw [hest]; exact Bool.false_ne_true)
              obtain ⟨rest, hrest⟩ := untilLambda_prefix body
              have hshort : (front ++ o :: untilLambda body).length < len := by
                have hle := congrArg List.length hrest
                simp only [List.length_append, List.length_cons] at hle hlen ⊢
                omega
              have hpre : ∃ j, level Piece.nesting 0 (front ++ o :: untilLambda body) = some j := by
                rw [hrest, ← List.cons_append, ← List.append_assoc] at hm
                obtain ⟨j, hj, _⟩ := level_prefix hm
                exact ⟨j, hj⟩
              obtain ⟨j, hj⟩ := hpre
              obtain ⟨n, hn⟩ := ih _ hshort hj hinner rfl
              exact ⟨n, .around ho' hbody hc' hest hn⟩
  · rintro ⟨n, hn⟩
    induction hn generalizing k with
    | list ho hbody hc hm =>
      rename_i front body o c
      rw [List.append_assoc] at h
      obtain ⟨j, hj, _⟩ := level_prefix h
      rw [relExplicit_list hj ho hbody hc, hm]
      rfl
    | around ho hbody hc hm hn ih =>
      rename_i n front body o c
      obtain ⟨rest, hrest⟩ := untilLambda_prefix body
      have hsplit : front ++ o :: body ++ [c] = front ++ o :: untilLambda body ++ (rest ++ [c]) := by
        conv_lhs => rw [hrest]
        simp
      rw [hsplit] at h
      obtain ⟨j, hj, _⟩ := level_prefix h
      obtain ⟨i, hi, _⟩ := level_prefix hj
      rw [relExplicit_list hi ho hbody hc, hm]
      exact ih hj
    | opens ho hall hn ih =>
      obtain ⟨j, hj, _⟩ := level_prefix h
      exact (relExplicit_open _ ho).mpr ⟨hall, ih hj⟩
    | flat hp hn ih =>
      obtain ⟨j, hj, _⟩ := level_prefix h
      rw [relExplicit_flat _ hp]
      exact ih hj

end

/-- The piece at `n` closes an establishing list. -/
theorem InForce.closer {n : Nat} {ps : List Piece} (h : InForce n ps) :
    ∃ front o body rest, ps = front ++ o :: body ++ rest ∧ n = (front ++ o :: body).length ∧
      o.lexeme = .open ∧ Balanced Piece.nesting body ∧
      opensAny establishingMethods (lastIdentOf front) = true := by
  induction h with
  | list ho hbody hc hm => exact ⟨_, _, _, _, rfl, rfl, ho, hbody, hm⟩
  | around ho hbody hc hm h ih =>
    rename_i n front body o c
    obtain ⟨front', o', body', rest', hps, hn, ho', hbody', hm'⟩ := ih
    obtain ⟨more, hmore⟩ := untilLambda_prefix body
    refine ⟨front', o', body', rest' ++ more ++ [c], ?_, hn, ho', hbody', hm'⟩
    have hsplit : front ++ o :: body = front ++ o :: untilLambda body ++ more := by
      conv_lhs => rw [hmore]
      simp
    rw [hsplit, hps]
    simp
  | opens ho hall h ih =>
    obtain ⟨front', o', body', rest', rfl, hn, ho', hbody', hm'⟩ := ih
    exact ⟨front', o', body', _, List.append_assoc .., hn, ho', hbody', hm'⟩
  | flat hp h ih =>
    obtain ⟨front', o', body', rest', rfl, hn, ho', hbody', hm'⟩ := ih
    exact ⟨front', o', body', _, List.append_assoc .., hn, ho', hbody', hm'⟩

/-! ## Open table scopes -/

/-- A step `->method(..)`, its arrow in one piece or two. -/
structure Call where
  method : Bytes
  arrow : List Piece
  name : Piece
  opener : Piece
  body : List Piece
  closer : Piece
  arrow_eq : SpellsArrow arrow
  name_eq : name.lexeme = .ident method
  opener_eq : opener.IsMark Byte.lparen
  body_balanced : Balanced Piece.nesting body
  closer_eq : closer.IsMark Byte.rparen

def Call.pieces (c : Call) : List Piece :=
  c.arrow ++ c.name :: c.opener :: c.body ++ [c.closer]

/-- A step that has begun: nothing of it, the `-` of its arrow, the arrow,
its name, or its list up to some piece of it. -/
inductive Begun : List Piece → Prop where
  | nothing : Begun []
  | dash (d : Piece) (hd : d.IsMark Byte.dash) : Begun [d]
  | arrow (as : List Piece) (ha : SpellsArrow as) : Begun as
  | name (as : List Piece) (m : Piece) (ha : SpellsArrow as) : Begun (as ++ [m])
  | list (as : List Piece) (m o : Piece) (inner : List Piece) (ha : SpellsArrow as)
      (ho : o.IsMark Byte.lparen) (hin : Inside Piece.nesting inner) :
      Begun (as ++ m :: o :: inner)

/-- A pipeline that starts at `D->tableReference(..)->tableToTDS()`, none of
whose establishing steps has closed, and the step it stands in. -/
structure TableScope where
  front : List Piece
  db : List Piece
  reference : Call
  toTDS : Call
  steps : List Call
  begun : List Piece
  db_ne : db ≠ []
  db_name : ∀ p ∈ db, (∃ v, p.lexeme = .ident v) ∨ p.IsMark Byte.colon
  reference_eq : reference.method = ascii "tableReference"
  toTDS_eq : toTDS.method = ascii "tableToTDS"
  toTDS_body : toTDS.body = []
  steps_open : ∀ s ∈ steps, s.method ∉ establishingMethods
  begun_eq : Begun begun

namespace TableScope

/-- The text in front of the steps. -/
def lead (s : TableScope) : List Piece := s.front ++ s.db ++ s.reference.pieces ++ s.toTDS.pieces

def pieces (s : TableScope) : List Piece := s.lead ++ s.steps.flatMap Call.pieces ++ s.begun

/-- The piece at `n` closes a step of this pipeline. -/
def ClosesStep (s : TableScope) (n : Nat) : Prop :=
  ∃ before c after, s.steps = before ++ c :: after ∧
    n = (s.lead ++ before.flatMap Call.pieces ++
      (c.arrow ++ c.name :: c.opener :: c.body)).length

end TableScope

theorem lastIdentOf_name (ps : List Piece) {m : Piece} {v : Bytes}
    (hm : m.lexeme = .ident v) : lastIdentOf (ps ++ [m]) = some v := by
  rw [lastIdentOf, outline, List.foldl_append, List.foldl_cons, List.foldl_nil,
    Outline.step, Piece.recordsIdent, hm]

theorem open_of_lparen {p : Piece} (h : p.IsMark Byte.lparen) : p.lexeme = .open := by
  rw [h.lexeme]
  decide

/-- What is in force in an open table scope is another pipeline's. -/
theorem InForce.foreign {n : Nat} {s : TableScope} (h : InForce n s.pieces) : ¬ s.ClosesStep n := by
  rintro ⟨before, c, after, hsteps, hn⟩
  obtain ⟨front, o, body, rest, hps, hn', ho, hbody, hm⟩ := h.closer
  have hown : s.pieces = (s.lead ++ before.flatMap Call.pieces ++ c.arrow ++ [c.name]) ++
      c.opener :: c.body ++ ([c.closer] ++ after.flatMap Call.pieces ++ s.begun) := by
    rw [TableScope.pieces, hsteps]
    simp [Call.pieces]
  have hlen : (front ++ o :: body).length =
      ((s.lead ++ before.flatMap Call.pieces ++ c.arrow ++ [c.name]) ++
        c.opener :: c.body).length := by
    rw [← hn', hn]
    simp only [List.append_assoc, List.cons_append, List.nil_append]
  have hsame := (List.append_inj (hps.symm.trans hown) hlen).1
  have hfront := opener_unique (nesting_of_open ho) (nesting_of_open (open_of_lparen c.opener_eq))
    hbody c.body_balanced hsame
  rw [hfront, lastIdentOf_name _ c.name_eq] at hm
  have hmem : c.method ∈ establishingMethods := by simpa [opensAny] using hm
  exact s.steps_open c (by rw [hsteps]; simp) hmem

/-! ## Column positions -/

/-- The state the lexeme at the end of the stream opens at. -/
def Lexer.opensAt (l : Lexer) : State := if l.state.lexemeKind.isSome then l.anchor else l.state

/-- A value in an argument of a column call, not below an establishing
call and not the operand of a typed comparison. -/
structure AtColumn (schema : Schema) (l : Lexer) (ps : List Piece) : Prop where
  value : l.opensAt ∈ valueStates
  column : InList refMethods ps
  outside : ¬ InList establishingMethods ps
  untyped : (ScopeTracker.new.dispatchAll ps schema).cmpPending = none

theorem openingPosition_eq_column {t : ScopeTracker} {s : State} :
    t.openingPosition s = .column ↔
      s ∈ valueStates ∧ t.cmpPending = none ∧ t.inColumnArg = true := by
  have hvalue : ∀ s' ∈ valueStates, t.openingPosition s' = .column ↔
      t.cmpPending = none ∧ t.inColumnArg = true := by
    intro s' hs'
    simp only [valueStates, List.mem_cons, List.not_mem_nil, or_false] at hs'
    rcases hs' with rfl | rfl
    all_goals
      simp only [openingPosition]
      cases t.cmpPending with
      | some tc => simp
      | none => cases t.inColumnArg <;> simp
  by_cases hs : s ∈ valueStates
  · rw [hvalue s hs]
    exact ⟨fun h => ⟨hs, h⟩, fun h => h.2⟩
  · refine iff_of_false ?_ (fun h => hs h.1)
    intro h
    unfold openingPosition at h
    split at h
    all_goals first | cases h | skip
    · split at h
      · cases h
      · split at h <;> cases h
    all_goals exact hs (by decide)

theorem position_hold (t : ScopeTracker) (l : Lexer) :
    (t.hold l).position l.state = .column ↔ t.openingPosition l.opensAt = .column := by
  have hcarried : t.carriedPosition l.anchor = .column ↔ t.openingPosition l.anchor = .column := by
    unfold carriedPosition
    cases t.openingPosition l.anchor <;> simp
  rw [position, Lexer.opensAt]
  cases hk : l.state.lexemeKind with
  | some k =>
    simp only [Option.isSome_some, if_true, hold, hk, Option.map_some]
    exact hcarried
  | none =>
    simp only [Option.isSome_none, Bool.false_eq_true, if_false]
    exact Iff.rfl

/-- **When a column is narrowed.** -/
theorem position_eq_column_iff {schema : Schema} {toks : List Bytes} {l : Lexer} {ps : List Piece}
    (h : Lexer.start.tokens toks = some (l, ps)) :
    ((ScopeTracker.new.dispatchAll ps schema).hold l).position l.state = .column ↔
      AtColumn schema l ps ∧ ∃ n, InForce n ps := by
  obtain ⟨_, _, hest, href⟩ := outlines schema ps
  have hlist : ∀ names, InList names ps ↔ depthsOf names (openLists ps) ≠ [] := by
    intro names
    rw [InList, Ne, depthsOf_eq_nil, Bool.not_eq_false]
  rw [position_hold, openingPosition_eq_column, ← @inForce_iff schema _ _ (level_tokens h)]
  generalize hu : ScopeTracker.new.dispatchAll ps schema = t at hest href
  have hest' : t.estStack = depthsOf establishingMethods (openLists ps) := hest
  have href' : t.refStack = depthsOf refMethods (openLists ps) := href
  have hcolumn : t.inColumnArg = true ↔
      InList refMethods ps ∧ ¬ InList establishingMethods ps ∧ t.relExplicit = true := by
    rw [hlist, hlist, ← hest', ← href', inColumnArg]
    simp only [Bool.and_eq_true, Bool.not_eq_true', List.isEmpty_iff, not_not, ne_eq,
      List.isEmpty_eq_false_iff]
    tauto
  rw [hcolumn]
  constructor
  · rintro ⟨hvalue, huntyped, href, hest, hflag⟩
    exact ⟨⟨hvalue, href, hest, by rw [hu]; exact huntyped⟩, hflag⟩
  · rintro ⟨⟨hvalue, href, hest, huntyped⟩, hflag⟩
    rw [hu] at huntyped
    exact ⟨hvalue, huntyped, href, hest, hflag⟩

/-- `D->tableReference('s','t')->tableToTDS()->restrict(` after `front`. The
name opens at `source` and closes at `name`. -/
def restrictScope (front : List Piece) (source name : State) : TableScope where
  front := front
  db := [⟨ascii "D", source⟩]
  reference :=
    { method := ascii "tableReference"
      arrow := [⟨ascii "->", name⟩]
      name := ⟨ascii "tableReference", .afterArrow⟩
      opener := ⟨ascii "(", .inIdent⟩
      body := [⟨ascii "'s'", .expectValue⟩, ⟨ascii ",", .inStrLit true⟩,
        ⟨ascii "'t'", .expectValueReq⟩]
      closer := ⟨ascii ")", .inStrLit true⟩
      arrow_eq := ⟨show ascii "->" ++ [] = _ by decide, fun p hp => by
        rw [List.mem_singleton.mp hp]
        exact show ascii "->" ≠ [] by decide⟩
      name_eq := by decide +kernel
      opener_eq := rfl
      body_balanced := by decide +kernel
      closer_eq := rfl }
  toTDS :=
    { method := ascii "tableToTDS"
      arrow := [⟨ascii "->", .inStrLit true⟩]
      name := ⟨ascii "tableToTDS", .afterArrow⟩
      opener := ⟨ascii "(", .inIdent⟩
      body := []
      closer := ⟨ascii ")", .inIdent⟩
      arrow_eq := by decide +kernel
      name_eq := by decide +kernel
      opener_eq := rfl
      body_balanced := rfl
      closer_eq := rfl }
  steps := []
  begun := [⟨ascii "->", .inIdent⟩, ⟨ascii "restrict", .afterArrow⟩, ⟨ascii "(", .inIdent⟩]
  db_ne := by simp
  db_name := by
    intro p hp
    rw [List.mem_singleton.mp hp]
    exact .inl ⟨ascii "D", show classify (ascii "D") = _ by decide +kernel⟩
  reference_eq := rfl
  toTDS_eq := rfl
  toTDS_body := rfl
  steps_open := by simp
  begun_eq := .list [⟨ascii "->", .inIdent⟩] _ _ [] (by decide +kernel) rfl (by decide +kernel)

/-- The table as the argument of a join, after a projection that closed in
the body of a lambda. -/
def tableTokens : List Bytes :=
  [ascii "|A.all()->filter(x|B.all()->project([y|$y.a],['c'])->isEmpty())->join(",
   ascii "D->tableReference('s','t')->tableToTDS()->restrict("]

/-- The pieces of `|A.all()->filter(x|B.all()->project([y|$y.a],['c'])->isEmpty())->join(`. -/
def bodyPieces : List Piece :=
  [⟨ascii "|", .start⟩, ⟨ascii "A", .expectSource⟩, ⟨ascii ".", .inSourceIdent⟩,
   ⟨ascii "all", .afterDot⟩, ⟨ascii "(", .inIdent⟩, ⟨ascii ")", .inIdent⟩,
   ⟨ascii "->", .inIdent⟩, ⟨ascii "filter", .afterArrow⟩, ⟨ascii "(", .inIdent⟩,
   ⟨ascii "x", .expectValue⟩, ⟨ascii "|", .inIdent⟩, ⟨ascii "B", .sawPipe⟩,
   ⟨ascii ".", .inIdent⟩, ⟨ascii "all", .afterDot⟩, ⟨ascii "(", .inIdent⟩,
   ⟨ascii ")", .inIdent⟩, ⟨ascii "->", .inIdent⟩, ⟨ascii "project", .afterArrow⟩,
   ⟨ascii "(", .inIdent⟩, ⟨ascii "[", .inIdent⟩, ⟨ascii "y", .expectValue⟩,
   ⟨ascii "|", .inIdent⟩, ⟨ascii "$", .inIdent⟩, ⟨ascii "y", .afterDollar⟩,
   ⟨ascii ".", .inIdent⟩, ⟨ascii "a", .afterDot⟩, ⟨ascii "]", .inIdent⟩,
   ⟨ascii ",", .inIdent⟩, ⟨ascii "[", .inIdent⟩, ⟨ascii "'c'", .expectValue⟩,
   ⟨ascii "]", .inStrLit true⟩, ⟨ascii ")", .inStrLit true⟩, ⟨ascii "->", .inStrLit true⟩,
   ⟨ascii "isEmpty", .afterArrow⟩, ⟨ascii "(", .inIdent⟩, ⟨ascii ")", .inIdent⟩,
   ⟨ascii ")", .inIdent⟩, ⟨ascii "->", .inIdent⟩, ⟨ascii "join", .afterArrow⟩,
   ⟨ascii "(", .inIdent⟩]

/-- The table as the argument of a join, after a projection. -/
def joinTokens : List Bytes :=
  [ascii "|A.all()->project([x|$x.toB],['b'])->join(",
   ascii "D->tableReference('s','t')->tableToTDS()->restrict("]

/-- The pieces of `|A.all()->project([x|$x.toB],['b'])->join(`. -/
def projectedPieces : List Piece :=
  [⟨ascii "|", .start⟩, ⟨ascii "A", .expectSource⟩, ⟨ascii ".", .inSourceIdent⟩,
   ⟨ascii "all", .afterDot⟩, ⟨ascii "(", .inIdent⟩, ⟨ascii ")", .inIdent⟩,
   ⟨ascii "->", .inIdent⟩, ⟨ascii "project", .afterArrow⟩, ⟨ascii "(", .inIdent⟩,
   ⟨ascii "[", .inIdent⟩, ⟨ascii "x", .expectValue⟩, ⟨ascii "|", .inIdent⟩,
   ⟨ascii "$", .inIdent⟩, ⟨ascii "x", .afterDollar⟩, ⟨ascii ".", .inIdent⟩,
   ⟨ascii "toB", .afterDot⟩, ⟨ascii "]", .inIdent⟩, ⟨ascii ",", .inIdent⟩,
   ⟨ascii "[", .inIdent⟩, ⟨ascii "'b'", .expectValue⟩, ⟨ascii "]", .inStrLit true⟩,
   ⟨ascii ")", .inStrLit true⟩, ⟨ascii "->", .inStrLit true⟩, ⟨ascii "join", .afterArrow⟩,
   ⟨ascii "(", .inIdent⟩]

end PureCard
