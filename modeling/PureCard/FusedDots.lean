/-
PureCard.FusedDots — a dot and its member in one token, or in two.

A vocabulary may hold `.`, `name` and `.name`. For the fused token the
mask foretells the rule behind the dot (`fused_nav_position`); for the two
tokens the tracker takes the dot first (`on_dot`) and the rule is read off
afterwards. Both go by what a dot navigates from, the variable that waits
for one or else the class reached (`ruleAtDot`), and agree on it where no
lexeme is open, behind a variable, and behind a member of something known.

Over any other open lexeme the fused rule says nothing, while the dot goes
on from whatever an earlier term has left in the tracker.
`fused_iff_split` says exactly when this tells the two cuts apart.
-/
import PureCard.NavigationTyping
import PureCard.OpenNames

namespace PureCard

open Pushdown Completion ScopeTracker

namespace ScopeTracker

/-! ## The rule behind a dot -/

/-- The rule a dot would open: of the relation row or the class it
navigates from. -/
def ruleAtDot (t : ScopeTracker) : L2Position :=
  if t.receiverIsRow then .relationColumn
  else match t.receiver with
    | some cls => .member cls
    | none => .none

theorem ruled_ruleAtDot (t : ScopeTracker) : Ruled .afterDot t.ruleAtDot := by
  unfold ruleAtDot
  split
  · exact .row
  · split
    · exact .member _
    · exact .free _

/-- `on_dot` opens it. -/
theorem openingPosition_afterDot {t u : ScopeTracker} (h : t.nav = u.onDot.nav) :
    t.openingPosition .afterDot = u.ruleAtDot := by
  rw [nav_onDot] at h
  have hbase : t.dotBase = u.receiver := congrArg Nav.base h
  have hcolumn : t.dotIsColumn = u.receiverIsRow := congrArg Nav.column h
  cases hreceiver : u.receiver <;> simp [openingPosition, ruleAtDot, hbase, hcolumn, hreceiver]

theorem ruleAtDot_congr {t u : ScopeTracker} (hnav : t.nav = u.nav)
    (hbinding : t.binding = u.binding) : t.ruleAtDot = u.ruleAtDot := by
  have hrefvar : t.pendingRefvar = u.pendingRefvar := congrArg Nav.refvar hnav
  have hcursor : t.navCursor = u.navCursor := congrArg Nav.cursor hnav
  have hclass : ∀ v, t.classOf v = u.classOf v := fun v => by rw [classOf_eq, classOf_eq, hbinding]
  have hrow : ∀ v, v ∈ t.relationRowVars ↔ v ∈ u.relationRowVars := by
    intro v
    have hv := congrArg Binding.row (congrFun hbinding v)
    simpa [binding] using hv
  have hreceiver : t.receiver = u.receiver := by
    unfold receiver
    rw [hrefvar, hcursor]
    cases u.pendingRefvar with
    | none => rfl
    | some v => simp [hrow, hclass]
  have hisRow : t.receiverIsRow = u.receiverIsRow := by
    unfold receiverIsRow
    rw [hrefvar]
    cases u.pendingRefvar with
    | none => rfl
    | some v => simp [hrow]
  rw [ruleAtDot, ruleAtDot, hreceiver, hisRow]

/-- Behind a variable. -/
theorem ruleAtDot_refvar {t : ScopeTracker} {v : Bytes} (h : t.pendingRefvar = some v) :
    t.ruleAtDot = (t.navFromVar v).getD .none := by
  simp only [ruleAtDot, receiver, receiverIsRow, navFromVar, h]
  by_cases hrow : v ∈ t.relationRowVars
  · simp [hrow]
  · cases t.classOf v <;> simp [hrow]

theorem ruleAtDot_cursor {t : ScopeTracker} (h : t.pendingRefvar = none) :
    t.ruleAtDot = (t.navCursor.map L2Position.member).getD .none := by
  simp only [ruleAtDot, receiver, receiverIsRow, h]
  cases t.navCursor <;> rfl

theorem fused_refvar {t : ScopeTracker} {p : Pending} (hp : t.pending = some p)
    (hkind : p.kind = .ident) (hname : IsIdent p.buf) (ha : p.anchor = .afterDollar)
    (schema : Schema) : t.fusedNavPosition schema = t.navFromVar p.buf := by
  rw [fusedNavPosition, hp]
  simp only [hkind, hname.isUtf8, ha, ne_eq, not_true_eq_false, if_false, Bool.not_true,
    Bool.false_eq_true]

theorem fused_member {t : ScopeTracker} {p : Pending} (hp : t.pending = some p)
    (hkind : p.kind = .ident) (hname : IsIdent p.buf) (ha : p.anchor = .afterDot)
    (schema : Schema) : t.fusedNavPosition schema = t.navFromMember p.buf schema := by
  rw [fusedNavPosition, hp]
  simp only [hkind, hname.isUtf8, ha, ne_eq, not_true_eq_false, if_false, Bool.not_true,
    Bool.false_eq_true]

/-- With no lexeme open the fused rule is the one a dot opens. -/
theorem fused_gap {t : ScopeTracker} (h : t.pending = none) (schema : Schema) :
    (t.fusedNavPosition schema).getD .none = t.ruleAtDot := by
  rw [fusedNavPosition, h]
  cases hvar : t.pendingRefvar with
  | some v => exact (ruleAtDot_refvar hvar).symm
  | none => exact (ruleAtDot_cursor hvar).symm

end ScopeTracker

/-! ## The lexeme a dot closes -/

/-- What a lexeme can begin with, and what its first byte leads to where it
is the first byte of an operator or a dot. -/
def openingRow (s : State) (c : ByteClass) (s' : State) : Bool :=
  s.lexemeKind == s'.lexemeKind || s'.lexemeKind.isNone ||
    c == .identStart || c == .identTail || c == .digit || c == .one Byte.colon ||
    c == .one Byte.quote || c == .one Byte.percent ||
    (c == .one Byte.dash && s' == .sawNumSign) || (c == .one Byte.dot && s' == .needFracDigit)

theorem checkEdges_openingRow : checkEdges openingRow = true := by decide +kernel

/-- A number goes on behind its sign, and behind its point, with a digit. -/
def signRow (s : State) (c : ByteClass) (s' : State) : Bool :=
  (s != .sawNumSign || c == .digit || c == .one Byte.dot) &&
    (s != .needFracDigit || (c == .digit && s' == .inNumberFrac))

theorem checkEdges_signRow : checkEdges signRow = true := by decide +kernel

/-- The first byte of a lexeme. -/
theorem first_of_lexeme {s : State} {st : List Frame} {b : UInt8} {c : State × List Frame}
    (h : Pushdown.advance step (s, st) b = some c) {k : LexKind} (hs : s.lexemeKind ≠ some k)
    (hc : c.1.lexemeKind = some k) :
    (b ∉ markBytes ∧ b ∉ [Byte.lt, Byte.gt, Byte.eq, Byte.bang, Byte.dash]) ∨
      (b = Byte.dash ∧ c.1 = .sawNumSign) ∨ (b = Byte.dot ∧ c.1 = .needFracDigit) := by
  obtain ⟨cls, hb, hrow⟩ := advance_check checkEdges_openingRow h
  have hplain : ∀ x ∈ markBytes ++ [Byte.lt, Byte.gt, Byte.eq, Byte.bang, Byte.dash],
      isIdentTail x = false ∧ isAsciiDigit x = false ∧ x ≠ Byte.colon ∧ x ≠ Byte.quote ∧
        x ≠ Byte.percent := by decide +kernel
  by_cases hmem : b ∈ markBytes ++ [Byte.lt, Byte.gt, Byte.eq, Byte.bang, Byte.dash]
  · right
    obtain ⟨htail, hdigit, hcolon, hquote, hpercent⟩ := hplain b hmem
    have hstart : isIdentStart b = false := by
      rw [Bool.eq_false_iff]
      intro hstart
      rw [isIdentTail_of_start hstart] at htail
      cases htail
    simp only [openingRow, hc, beq_eq_false_iff_ne.mpr hs, Option.isNone_some, Bool.false_or,
      Bool.or_eq_true, Bool.and_eq_true, beq_iff_eq] at hrow
    rcases hrow with ((((((rfl | rfl) | rfl) | rfl) | rfl) | rfl) | ⟨rfl, hstate⟩) | ⟨rfl, hstate⟩
    all_goals simp_all [ByteClass.has]
  · left
    simpa [not_or] using hmem

/-- A run whose second byte ends no arrow is no mark and no arrow. -/
theorem plain_of_second {c : UInt8} (hc : c ≠ Byte.gt) (b : UInt8) (u : Bytes) :
    (classify (b :: c :: u)).isMark = false ∧ classify (b :: c :: u) ≠ .arrow := by
  constructor
  · rw [Bool.eq_false_iff]
    intro hmark
    obtain ⟨x, _, htext⟩ := classify_mark hmark
    simp at htext
  · intro harrow
    have hfirst : ∀ v, classifyFirst b v ≠ .arrow := by
      intro v h
      rcases classifyFirst_cases b v with ⟨_, hid⟩ | hother
      · rw [h] at hid
        cases hid
      · rw [h] at hother
        simp at hother
    unfold classify at harrow
    split at harrow
    · cases harrow
    · cases u with
      | nil =>
        simp only [hc, and_false, if_false] at harrow
        split at harrow
        · cases harrow
        · exact hfirst _ harrow
      | cons d u => exact hfirst _ harrow

/-- **A lexeme a dot can close is no mark and no arrow.** -/
theorem plain_of_flying {l : Lexer} {k : LexKind} (h : l.Flying k) (hopens : l.anchor.lexemeKind ≠ some k)
    (hdot : (Pushdown.advance step (l.state, l.stack) Byte.dot).map Prod.fst = some .afterDot) :
    (classify l.seg).isMark = false ∧ classify l.seg ≠ .arrow := by
  obtain ⟨b, u, hseg⟩ := List.exists_cons_of_ne_nil h.nonempty
  have hread := h.read
  rw [hseg] at hread ⊢
  cases hread with
  | @cons _ c _ _ _ hstep hc hrest =>
    rcases first_of_lexeme hstep hopens hc with ⟨hmark, hop⟩ | hsign
    · refine plain_of_first ?_ u
      rw [List.mem_append, not_or]
      exact ⟨hop, hmark⟩
    · -- a number goes on before it can end
      have hstates : c.1 = .sawNumSign ∨ c.1 = .needFracDigit := by
        rcases hsign with ⟨_, hs⟩ | ⟨_, hs⟩ <;> simp [hs]
      generalize hd : (l.state, l.stack) = d at hrest hdot
      cases hrest with
      | nil =>
        obtain ⟨s, st⟩ := c
        rcases hstates with rfl | rfl
        · exact absurd (show some State.needFracDigit = some .afterDot from hdot) (by decide)
        · exact absurd (show none = some State.afterDot from hdot) (by decide)
      | @cons _ e _ x v hnext he _ =>
        refine plain_of_second ?_ b v
        obtain ⟨cls, hx, hrow⟩ := advance_check checkEdges_signRow hnext
        have hclass : cls = .digit ∨ cls = .one Byte.dot := by
          rcases hstates with hs | hs <;> simp_all [signRow]
        rintro rfl
        rcases hclass with rfl | rfl <;> exact absurd hx (by decide)

/-- What opens behind a `$` and a `.`, and how a name goes on. -/
def nameStepRow (s : State) (c : ByteClass) (s' : State) : Bool :=
  (!decide (s ∈ [State.afterDollar, .afterDot]) || s'.lexemeKind.isNone ||
      (c == .identStart && s' == .inIdent) ||
      (s == .afterDot && c == .one Byte.quote && s' == .inStrLit false)) &&
    (s != .inIdent || s'.lexemeKind.isNone || (c == .identTail && s' == .inIdent))

theorem checkEdges_nameStepRow : checkEdges nameStepRow = true := by decide +kernel

theorem tail_of_inIdent {k : LexKind} {c d : State × List Frame} {u : Bytes}
    (h : InLexeme k c u d) (hc : c.1 = .inIdent) : ∀ b ∈ u, isIdentTail b = true := by
  induction h with
  | nil c => simp
  | cons hstep hd _ ih =>
    obtain ⟨cls, hb, hrow⟩ := advance_check checkEdges_nameStepRow hstep
    simp only [nameStepRow, hc, hd, bne_self_eq_false, Option.isNone_some, Bool.false_or,
      Bool.and_eq_true, beq_iff_eq] at hrow
    obtain ⟨_, rfl, hnext⟩ := hrow
    intro x hx
    rcases List.mem_cons.mp hx with rfl | hx
    · exact hb
    · exact ih hnext x hx

/-- Behind a `$` or a `.` there is a name, or a string behind the dot. -/
theorem name_of_flying {l : Lexer} {k : LexKind} (h : l.Flying k)
    (ha : l.anchor ∈ [State.afterDollar, .afterDot]) :
    (k = .ident ∧ IsIdent l.seg) ∨
      (k = .str ∧ l.anchor = .afterDot ∧ ∃ u, l.seg = Byte.quote :: u) := by
  obtain ⟨b, u, hseg⟩ := List.exists_cons_of_ne_nil h.nonempty
  have hread := h.read
  rw [hseg] at hread
  cases hread with
  | cons hstep hc hrest =>
    obtain ⟨cls, hb, hrow⟩ := advance_check checkEdges_nameStepRow hstep
    simp only [nameStepRow, decide_eq_true ha, hc, Bool.not_true, Option.isNone_some,
      Bool.false_or, Bool.and_eq_true, Bool.or_eq_true, beq_iff_eq] at hrow
    rcases hrow.1 with ⟨rfl, hnext⟩ | ⟨⟨hdot, rfl⟩, hnext⟩
    · left
      rw [hnext] at hc
      exact ⟨(Option.some.inj hc).symm, b, u, hseg, hb, tail_of_inIdent hrest hnext⟩
    · right
      rw [hnext] at hc
      have hquote : b = Byte.quote := by simpa [ByteClass.has] using hb
      exact ⟨(Option.some.inj hc).symm, hdot, u, hquote ▸ hseg⟩

/-! ## What a dot finds -/

namespace ScopeTracker

/-- The fused rule sees through the open lexeme: there is none, or it is a
variable, or a member of a relation row or a class. -/
def Foreseen (t : ScopeTracker) : Prop :=
  ∀ p, t.pending = some p → p.kind = .ident ∧
    (p.anchor = .afterDollar ∨ p.anchor = .afterDot ∧ (t.dotIsColumn = true ∨ t.dotBase ≠ none))

/-- The columns a dot finds: those recorded, and the one the open lexeme
names. -/
def columnsAtDot (t : ScopeTracker) : List Bytes :=
  match t.pending with
  | some p => t.emittedColumns ++ t.columnsOf (classify p.buf) p.anchor
  | none => t.emittedColumns

end ScopeTracker

/-- A dot closes the open lexeme and is a piece of its own. -/
theorem dot_token {l : Lexer} (hsettled : l.Settled) {st : List Frame}
    (hdot : Pushdown.advance step (l.state, l.stack) Byte.dot = some (.afterDot, st)) :
    l.token [Byte.dot] =
      some (⟨.afterDot, st, [], .afterDot⟩, l.pieces ++ [⟨[Byte.dot], l.state⟩]) := by
  have hkind : State.afterDot.lexemeKind = none := rfl
  have hone : (⟨.afterDot, st, [Byte.dot], l.state⟩ : Lexer).pieces = [⟨[Byte.dot], l.state⟩] := by
    rw [Reader.pieces_gap hkind]
    exact Reader.gapPieces_singleton (by decide) l.state
  -- the dot is all of the new segment, and in a gap nothing was left to close
  have hread : l.read Byte.dot (.afterDot, st) = ⟨.afterDot, st, [Byte.dot], l.state⟩ ∧
      l.completed (.afterDot, st) = l.pieces := by
    cases hk : l.state.lexemeKind with
    | none =>
      obtain ⟨hseg, hanchor⟩ := hsettled hk
      have hsame : l.state.lexemeKind = State.afterDot.lexemeKind := hk.trans hkind.symm
      rw [Lexer.read_same Byte.dot hsame, Lexer.completed_same hsame, Reader.pieces_gap hk, hseg,
        gapPieces_nil, hanchor]
      exact ⟨rfl, rfl⟩
    | some k =>
      have hne : l.state.lexemeKind ≠ State.afterDot.lexemeKind := by
        rw [hk, hkind]
        simp
      exact ⟨Lexer.read_other Byte.dot hne, Lexer.completed_other hne⟩
  rw [Lexer.token, Lexer.feed, hdot]
  dsimp only
  rw [hread.1, hread.2, Lexer.feed]
  simp [Lexer.cut, Lexer.cutPieces, hkind, hone]

section

variable {schema : Schema} {toks : List Bytes} {l : Lexer} {ps : List Piece}

/-- The columns once the open lexeme is dispatched. -/
theorem emitted_closed (t : ScopeTracker) (hsettled : l.Settled) :
    (t.dispatchAll l.pieces schema).emittedStrings = (t.hold l).columnsAtDot := by
  cases hk : l.state.lexemeKind with
  | none =>
    obtain ⟨hseg, _⟩ := hsettled hk
    rw [Reader.pieces_gap hk, hseg, gapPieces_nil]
    simp [columnsAtDot, hold, hk, emittedColumns]
  | some k =>
    rw [Reader.pieces_lexeme (by simp [hk]), dispatchAll_cons, dispatchAll_nil,
      emitted_dispatchToken]
    simp only [columnsAtDot, hold, hk, Option.map_some]
    rfl

/-- A lexeme is anchored outside its own kind. -/
theorem anchor_of_tokens (h : Lexer.start.tokens toks = some (l, ps)) {k : LexKind}
    (hk : l.state.lexemeKind = some k) : l.anchor.lexemeKind ≠ some k := by
  refine Reader.lexeme_invariant (I := fun l => l.anchor.lexemeKind ≠ some k) ?_ ?_ h hk
  · intro l b c _ hne _
    exact hne
  · intro l b c _ _ _ hI
    exact hI

/-- What the tracker holds behind a dot. -/
theorem nav_behind_dot (hbefore : Reader.Before .afterDot ps) :
    (new.dispatchAll ps schema).pendingRefvar = none ∧
      ((new.dispatchAll ps schema).dotIsColumn = true → (new.dispatchAll ps schema).dotBase = none) := by
  obtain ⟨front, d, rfl, _, hlex⟩ := exists_dot hbefore
  rw [dispatchAll_append, dispatchAll_cons, dispatchAll_nil]
  have hnav := nav_dispatch_dot hlex (new.dispatchAll front schema) schema
  refine ⟨congrArg Nav.refvar hnav, fun hcolumn => (congrArg Nav.base hnav).trans ?_⟩
  have hrow : (new.dispatchAll front schema).receiverIsRow = true :=
    (congrArg Nav.column hnav).symm.trans hcolumn
  cases hreceiver : (new.dispatchAll front schema).receiver with
  | none => rfl
  | some cls =>
    rw [receiverIsRow_eq_false hreceiver] at hrow
    cases hrow

/-- A name leaves the variables as they are. -/
theorem binding_name {text : Bytes} {a : State} (hlex : classify text = .ident text)
    (t : ScopeTracker) : (t.dispatchToken text a schema).binding = t.binding := by
  have hflat : (⟨text, a⟩ : Piece).nesting = .flat := flat_of_ident hlex
  have hundo := asUndo_dispatchToken hflat (by rw [Piece.lexeme, hlex]; simp) t schema
  exact congrArg Scopes.Undo.store hundo

/-- Behind a variable a dot goes on from it. -/
theorem closed_refvar {v : Bytes} (hv : IsIdent v) (t : ScopeTracker) :
    (t.dispatchToken v .afterDollar schema).ruleAtDot = (t.navFromVar v).getD .none := by
  have hlex : (⟨v, .afterDollar⟩ : Piece).lexeme = .ident v := hv.classify_eq
  have hnav := nav_dispatch_ident hlex t schema
  rw [ruleAtDot_refvar (congrArg Nav.refvar hnav)]
  have hbinding := @binding_name schema v .afterDollar hv.classify_eq t
  have hrow : v ∈ (t.dispatchToken v .afterDollar schema).relationRowVars ↔ v ∈ t.relationRowVars := by
    simpa [binding] using congrArg Binding.row (congrFun hbinding v)
  simp only [navFromVar, classOf_eq, hbinding, hrow]

/-- Behind a member a dot goes on from the class it leads to. -/
theorem closed_member {x : Bytes} (hx : IsIdent x) {t : ScopeTracker} (hvar : t.pendingRefvar = none)
    (hknown : t.dotIsColumn = true ∧ t.dotBase = none ∨ t.dotIsColumn = false ∧ t.dotBase ≠ none) :
    (t.dispatchToken x .afterDot schema).ruleAtDot = (t.navFromMember x schema).getD .none := by
  have hlex : (⟨x, .afterDot⟩ : Piece).lexeme = .ident x := hx.classify_eq
  have hnav : (t.dispatchToken x .afterDot schema).nav = t.nav.member schema x :=
    nav_dispatch_ident hlex t schema
  -- the class it leads to is the new cursor, and no variable waits
  have hmember : (t.nav.member schema x).refvar = none ∧
      (t.nav.member schema x).cursor.map L2Position.member = t.navFromMember x schema := by
    rw [Nav.member, navFromMember]
    rcases hknown with ⟨hcol, hnone⟩ | ⟨hcol, hsome⟩
    · rw [if_pos (show t.nav.column = true from hcol), hnone]
      exact ⟨hvar, rfl⟩
    · obtain ⟨base, hsome⟩ := Option.ne_none_iff_exists'.mp hsome
      have hbase : t.nav.base = some base := hsome
      rw [if_neg (show ¬ t.nav.column = true by rw [show t.nav.column = false from hcol]; simp),
        hbase, hsome]
      dsimp only
      cases schema.resolve base x with
      | none => exact ⟨hvar, rfl⟩
      | some r => cases r <;> exact ⟨hvar, rfl⟩
  rw [← hnav] at hmember
  rw [ruleAtDot_cursor hmember.1]
  exact congrArg (Option.getD · L2Position.none) hmember.2

/-- A lexeme in flight that is foreseen is a name. -/
theorem foreseen_name (h : Lexer.start.tokens toks = some (l, ps)) {k : LexKind}
    (hk : l.state.lexemeKind = some k) {t : ScopeTracker} (hforeseen : (t.hold l).Foreseen) :
    k = .ident ∧ IsIdent l.seg ∧ (l.anchor = .afterDollar ∨ l.anchor = .afterDot ∧
      (t.dotIsColumn = true ∨ t.dotBase ≠ none)) := by
  obtain ⟨hident, hanchor⟩ := hforeseen ⟨k, l.seg, l.anchor, t.carriedPosition l.anchor⟩
    (by simp [hold, hk])
  have hplace : l.anchor ∈ [State.afterDollar, .afterDot] := by
    rcases hanchor with ha | ⟨ha, _⟩
    · exact List.mem_cons.mpr (.inl ha)
    · exact List.mem_cons_of_mem _ (List.mem_singleton.mpr ha)
  rcases name_of_flying (Lexer.flying_of_tokens h hk) hplace with ⟨_, hname⟩ | ⟨hstr, _⟩
  · exact ⟨hident, hname, hanchor⟩
  · cases hident.symm.trans hstr

/-- **Foreseen**, the fused rule is the rule the dot opens, and the open
lexeme names no column. -/
theorem foreseen_closed (h : Lexer.start.tokens toks = some (l, ps))
    (hforeseen : ((new.dispatchAll ps schema).hold l).Foreseen) :
    ((new.dispatchAll ps schema).dispatchAll l.pieces schema).ruleAtDot =
        (((new.dispatchAll ps schema).hold l).fusedNavPosition schema).getD .none ∧
      ((new.dispatchAll ps schema).hold l).columnsAtDot =
        ((new.dispatchAll ps schema).hold l).emittedColumns := by
  obtain ⟨_, hbefore⟩ := truthful_of_tokens h
  rw [Lexer.opensAt] at hbefore
  cases hk : l.state.lexemeKind with
  | none =>
    have hnil : l.pieces = [] := by
      rw [Reader.pieces_gap hk, (Lexer.settled_tokens Lexer.settled_start h hk).1, gapPieces_nil]
    have hpending : ((new.dispatchAll ps schema).hold l).pending = none := by simp [hold, hk]
    rw [hnil, dispatchAll_nil, fused_gap hpending, columnsAtDot, hpending]
    exact ⟨ruleAtDot_congr rfl rfl, rfl⟩
  | some k =>
    have hpending : ((new.dispatchAll ps schema).hold l).pending =
        some ⟨k, l.seg, l.anchor, (new.dispatchAll ps schema).carriedPosition l.anchor⟩ := by
      simp [hold, hk]
    obtain ⟨hident, hname, hanchor⟩ := foreseen_name h hk hforeseen
    have hrecords : ∀ t : ScopeTracker, t.recordsColumn l.anchor = false := by
      intro t
      rcases hanchor with ha | ⟨ha, _⟩ <;> simp [recordsColumn, ha]
    refine ⟨?_, by simp [columnsAtDot, hpending, hname.classify_eq, columnsOf, hrecords]⟩
    rw [if_pos (by simp [hk])] at hbefore
    rw [Reader.pieces_lexeme (by simp [hk]), dispatchAll_cons, dispatchAll_nil]
    rcases hanchor with ha | ⟨ha, hknown⟩
    · rw [fused_refvar hpending hident hname ha, ha, closed_refvar hname]
      rfl
    · rw [ha] at hbefore
      obtain ⟨hvar, hexcl⟩ := @nav_behind_dot schema ps hbefore
      rw [fused_member hpending hident hname ha, ha, closed_member hname hvar]
      · rfl
      · cases hcol : (new.dispatchAll ps schema).dotIsColumn with
        | true => exact .inl ⟨rfl, hexcl hcol⟩
        | false =>
          refine .inr ⟨rfl, ?_⟩
          rcases hknown with hcol' | hsome
          · exact absurd (hcol'.symm.trans hcol) (by simp)
          · exact hsome

/-- **Unforeseen**, the fused rule is silent, and the dot goes on from what
was left in the tracker. -/
theorem unforeseen_closed (h : Lexer.start.tokens toks = some (l, ps)) {st : List Frame}
    (hdot : Pushdown.advance step (l.state, l.stack) Byte.dot = some (.afterDot, st))
    (hunforeseen : ¬ ((new.dispatchAll ps schema).hold l).Foreseen) :
    ((new.dispatchAll ps schema).dispatchAll l.pieces schema).ruleAtDot =
        ((new.dispatchAll ps schema).hold l).ruleAtDot ∧
      ((new.dispatchAll ps schema).hold l).fusedNavPosition schema = none := by
  cases hk : l.state.lexemeKind with
  | none =>
    refine absurd (fun p hp => ?_) hunforeseen
    simp [hold, hk] at hp
  | some k =>
    have hpending : ((new.dispatchAll ps schema).hold l).pending =
        some ⟨k, l.seg, l.anchor, (new.dispatchAll ps schema).carriedPosition l.anchor⟩ := by
      simp [hold, hk]
    have hnot : ¬ (k = .ident ∧ (l.anchor = .afterDollar ∨ l.anchor = .afterDot ∧
        ((new.dispatchAll ps schema).dotIsColumn = true ∨
          (new.dispatchAll ps schema).dotBase ≠ none))) := by
      intro hyes
      refine hunforeseen fun p hp => ?_
      rw [hpending] at hp
      cases hp
      exact hyes
    have hflying := Lexer.flying_of_tokens h hk
    obtain ⟨hmark, harrow⟩ := plain_of_flying hflying (anchor_of_tokens h hk) (by rw [hdot]; rfl)
    rw [Reader.pieces_lexeme (by simp [hk]), dispatchAll_cons, dispatchAll_nil]
    by_cases hmember : k = .ident ∧ l.anchor = .afterDot
    · -- a member of something unknown moves nothing
      obtain ⟨rfl, ha⟩ := hmember
      obtain ⟨hcolumn, hbase⟩ : (new.dispatchAll ps schema).dotIsColumn = false ∧
          (new.dispatchAll ps schema).dotBase = none := by simpa [ha] using hnot
      have hx : IsIdent l.seg := by
        rcases name_of_flying hflying (by simp [ha]) with ⟨_, hx⟩ | ⟨hstr, _⟩
        · exact hx
        · cases hstr
      have hlex : (⟨l.seg, .afterDot⟩ : Piece).lexeme = .ident l.seg := hx.classify_eq
      have hnav := nav_dispatch_ident hlex (new.dispatchAll ps schema) schema
      have hstay : (new.dispatchAll ps schema).nav.member schema l.seg =
          (new.dispatchAll ps schema).nav := by
        rw [Nav.member]
        simp [nav, hcolumn, hbase]
      rw [ha]
      constructor
      · refine ruleAtDot_congr (hnav.trans hstay) ?_
        exact binding_name hx.classify_eq _
      · rw [fused_member hpending rfl hx ha, navFromMember]
        simp [hold, hbase]
    · have hplace : ∀ text, classify l.seg = .ident text →
          l.anchor ≠ .afterDollar ∧ l.anchor ≠ .afterDot := by
        intro text htext
        rw [← not_or]
        intro ha
        rcases name_of_flying hflying (by simpa using ha) with ⟨hident, _⟩ | ⟨_, _, u, hseg⟩
        · rcases ha with ha | ha
          · exact hnot ⟨hident, .inl ha⟩
          · exact hmember ⟨hident, ha⟩
        · obtain ⟨_, b, v, hcons, hb⟩ := classify_ident htext
          obtain ⟨rfl, _⟩ := List.cons.inj (hseg.symm.trans hcons)
          revert hb
          decide
      constructor
      · obtain ⟨hnav, hundo⟩ := @plain_dispatch schema ⟨l.seg, l.anchor⟩ hmark harrow hplace
          (new.dispatchAll ps schema)
        exact ruleAtDot_congr hnav (congrArg Scopes.Undo.store hundo)
      · rw [fusedNavPosition, hpending]
        dsimp only
        split
        · rfl
        · rename_i hident
          have hident : k = .ident := not_not.mp hident
          split
          · rfl
          · split
            · exact absurd ⟨hident, .inl ‹_›⟩ hnot
            · exact absurd ⟨hident, ‹_›⟩ hmember
            · rfl

end

/-! ## What the rules say of the two cuts -/

section

variable {schema : Schema} {columns : List Bytes}

/-- The fused rule looks at what is behind the dot, as the rule itself does
behind an accepted dot. -/
theorem legalFused_dot {pos : L2Position} (hpos : Ruled .afterDot pos) {b : UInt8}
    (hb : isIdentStart b = true) (rest : Bytes) :
    legalFused schema pos columns (Byte.dot :: b :: rest) =
      legalAt schema pos [] columns (b :: rest) := by
  have hkeeps : ∀ trie : Trie, keepsFused trie (Byte.dot :: b :: rest) =
      keepsFrom trie .ident [] (b :: rest) := by
    intro trie
    simp [keepsFused, fusedPostDot, hb, keepsFrom, walk, keepsTrie, isCandidate,
      isIdentTail_of_start hb]
  generalize hs : State.afterDot = s at hpos
  cases hpos with
  | source h => exact absurd (hs ▸ h) (by decide)
  | member cls => exact hkeeps _
  | row => exact hkeeps _
  | operand h tc => exact absurd (hs ▸ h) (by decide)
  | column h => exact absurd (hs ▸ h) (by decide)
  | free s => rfl

/-- Behind a dot the rule keeps a name that does not run off its own. -/
theorem legalAt_behind_dot {pos : L2Position} (hpos : Ruled .afterDot pos) {b : UInt8}
    (hb : isIdentStart b = true) (rest : Bytes) :
    legalAt schema pos [] columns (b :: rest) = false ↔
      ∃ names, pos.rule schema columns = some (.ident, names) ∧
        verdict {n | n ∈ names} EndsIdent [] (b :: rest) = .off := by
  have hcand : isCandidate (b :: rest) .ident false = true := isIdentTail_of_start hb
  have hrule : ∀ names, pos.rule schema columns = some (.ident, names) →
      (legalAt schema pos [] columns (b :: rest) = false ↔
        verdict {n | n ∈ names} EndsIdent [] (b :: rest) = .off) := by
    intro names hrule
    rw [legalAt_rule hrule, ← Bool.not_eq_true, keepsFrom_iff]
    simp [hcand]
  generalize hs : State.afterDot = s at hpos
  cases hpos with
  | source h => exact absurd (hs ▸ h) (by decide)
  | member cls => simp [hrule _ rule_member, rule_member]
  | row => simp [hrule _ rule_relationColumn, rule_relationColumn]
  | operand h tc => exact absurd (hs ▸ h) (by decide)
  | column h => exact absurd (hs ▸ h) (by decide)
  | free s => simp [legalAt, L2Position.rule]

/-- The gap states a dot leaves for a member have no rule of their own. -/
def dotGapRow (s : State) (c : ByteClass) (s' : State) : Bool :=
  c == .ws || s' != .afterDot || !decide (s ∈ .afterDot :: sourceStates ++ valueStates)

theorem checkEdges_dotGapRow : checkEdges dotGapRow = true := by decide +kernel

/-- The first half of a string a column continues. -/
def CutShort (columns : List Bytes) (pos : L2Position) (pfx : Bytes) : Prop :=
  pos = .column ∧ Live {n | n ∈ columns.map quote} pfx ∧ pfx ∉ columns.map quote

/-- **The rule in front of a dot** looks at the dot only: it masks it, and
every token that begins with it, where the open string is cut short. -/
theorem legalAt_dot {l : Lexer} {k : LexKind} (hflying : l.Flying k) {st : List Frame}
    (hdot : Pushdown.advance step (l.state, l.stack) Byte.dot = some (.afterDot, st))
    {pos : L2Position} (hpos : Ruled l.anchor pos) (hvalue : ∀ tc, pos ≠ .reValue tc) (u : Bytes) :
    legalAt schema pos l.seg columns (Byte.dot :: u) = true ↔ ¬ CutShort columns pos l.seg := by
  have hident : ∀ names, pos.rule schema columns = some (.ident, names) →
      legalAt schema pos l.seg columns (Byte.dot :: u) = true :=
    fun names hrule => keeps_of_not_tail hrule l.seg (by decide) u
  generalize hs : l.anchor = s at hpos
  cases hpos with
  | source _ => simp [hident _ rule_sourceIdent, CutShort]
  | member cls => simp [hident _ rule_member, CutShort]
  | row => simp [hident _ rule_relationColumn, CutShort]
  | operand _ tc => exact absurd rfl (hvalue tc)
  | free s => simp [legalAt, CutShort]
  | column h =>
    -- the dot ends the lexeme, and no quoted column is left inside itself
    have hoff : ¬ Live {n | n ∈ columns.map quote} (l.seg ++ [Byte.dot]) := by
      rintro ⟨n, hn, v, hv⟩
      obtain ⟨c, _, rfl⟩ := List.mem_map.mp hn
      have hread := quote_read c h l.stack
      rw [← hv] at hread
      obtain ⟨e, hfront, _⟩ := hread.split
      have hlast := hfront.last (by simp)
      have hrun := hfront.run_eq
      rw [run_concat, ← hs, hflying.read.run_eq, Option.bind_some, hdot] at hrun
      cases hrun
      cases hlast
    have hcand : isCandidate (Byte.dot :: u) .str true = true := by simp [isCandidate]
    have hends : EndsIdent Byte.dot := by
      show isIdentTail Byte.dot = false
      decide
    have hne : decide (l.seg ≠ []) = true := by simp [hflying.nonempty]
    rw [legalAt_rule rule_column, keepsFrom_iff, hne, hcand, verdict, if_neg hoff]
    by_cases hmem : l.seg ∈ columns.map quote
    · rw [if_pos ⟨hmem, hends⟩]
      simp [CutShort, hmem]
    · rw [if_neg fun h => hmem h.1]
      simp only [CutShort, hflying.nonempty, false_or, true_and, forall_const, ne_eq,
        not_true_eq_false, imp_false, hmem, not_false_eq_true, and_true]

/-- The same for a tracker at a dot, in a lexeme or not. -/
theorem legalAt_dot_hold {toks : List Bytes} {l : Lexer} {ps : List Piece}
    (h : Lexer.start.tokens toks = some (l, ps)) {st : List Frame}
    (hdot : Pushdown.advance step (l.state, l.stack) Byte.dot = some (.afterDot, st))
    (t : ScopeTracker) (u : Bytes) :
    legalAt schema ((t.hold l).position l.state) (t.hold l).narrowPrefix columns (Byte.dot :: u) =
        true ↔
      ¬ CutShort columns ((t.hold l).position l.state) (t.hold l).narrowPrefix := by
  cases hk : l.state.lexemeKind with
  | some k =>
    obtain ⟨hpos, hpfx⟩ := position_flying t hk
    obtain ⟨hruled, hvalue⟩ := ruled_carriedPosition t l.anchor
    rw [hpos, hpfx]
    exact legalAt_dot (Lexer.flying_of_tokens h hk) hdot hruled hvalue u
  | none =>
    obtain ⟨hpos, hpfx⟩ := position_gap t hk
    obtain ⟨cls, hb, hrow⟩ := advance_check checkEdges_dotGapRow hdot
    have hfree : t.openingPosition l.state = .none := by
      have hnot : l.state ∉ State.afterDot :: sourceStates ++ valueStates := by
        have hws : cls ≠ .ws := by
          rintro rfl
          revert hb
          decide
        simpa [dotGapRow, hws] using hrow
      have hruled := ruled_openingPosition t l.state
      generalize t.openingPosition l.state = pos at hruled
      generalize l.state = s at hnot hruled
      cases hruled with
      | free s => rfl
      | source hs => exact absurd (by simp [hs]) hnot
      | member cls => exact absurd (by simp) hnot
      | row => exact absurd (by simp) hnot
      | operand hs tc => exact absurd (by simp [hs]) hnot
      | column hs => exact absurd (by simp [hs]) hnot
    rw [hpos, hpfx, hfree]
    simp [legalAt, CutShort]

end

/-! ## The two cuts -/

/-- The tracker behind an accepted dot. -/
theorem behind_dot {schema : Schema} {toks : List Bytes} {l : Lexer} {ps : List Piece}
    (h : Lexer.start.tokens toks = some (l, ps)) {st : List Frame}
    (hdot : Pushdown.advance step (l.state, l.stack) Byte.dot = some (.afterDot, st)) :
    ∃ t, drive schema freshStart (toks ++ [[Byte.dot]]) = some (⟨.afterDot, st⟩, t) ∧
      t.position .afterDot =
        ((new.dispatchAll ps schema).dispatchAll l.pieces schema).ruleAtDot ∧
      t.narrowPrefix = [] ∧
      t.emittedColumns = ((new.dispatchAll ps schema).hold l).columnsAtDot := by
  have hsettled := Lexer.settled_tokens Lexer.settled_start h
  have htoks := Lexer.tokens_concat h (dot_token hsettled hdot)
  have hdrive := @drive_eq schema new rfl _ _ Lexer.settled_start _ _ htoks
  have hlex : classify [Byte.dot] = .dot := by decide
  refine ⟨_, hdrive, ?_⟩
  rw [← List.append_assoc, dispatchAll_append, dispatchAll_append, dispatchAll_cons,
    dispatchAll_nil]
  have hcolumns := @emitted_closed schema l (new.dispatchAll ps schema) hsettled
  generalize (new.dispatchAll ps schema).dispatchAll l.pieces schema = u at hcolumns ⊢
  obtain ⟨hpos, hpfx⟩ := @position_gap (u.dispatchToken [Byte.dot] l.state schema)
    ⟨.afterDot, st, [], .afterDot⟩ rfl
  refine ⟨hpos.trans ?_, hpfx, ?_⟩
  · have hdotPiece : (⟨[Byte.dot], l.state⟩ : Piece).lexeme = .dot := hlex
    exact openingPosition_afterDot ((nav_dispatch_dot hdotPiece u schema).trans u.nav_onDot.symm)
  · rw [← hcolumns]
    show (u.dispatchToken [Byte.dot] l.state schema).emittedStrings = u.emittedStrings
    rw [emitted_dispatchToken, hlex]
    exact List.append_nil _

namespace Session

/-- The two halves are masked and the fused token is not: the fused rule
does not see through the open lexeme, and the word leaves every name of
what an earlier term left to navigate from. -/
structure Astray (s : Session) (schema : Schema) (word : Bytes) : Prop where
  unforeseen : ¬ s.tracker.Foreseen
  off : ∃ names, s.tracker.ruleAtDot.rule schema s.tracker.columnsAtDot = some (.ident, names) ∧
    verdict {n | n ∈ names} EndsIdent [] word = .off
  /-- The automaton takes the dot and the word. -/
  admitted : s.pda.admits (Byte.dot :: word) = true
  /-- The dot is not masked to begin with. -/
  dotKept : ¬ CutShort s.tracker.emittedColumns (s.tracker.position s.pda.state)
    s.tracker.narrowPrefix

theorem allows_token {s : Session} (h : s.MemoValid) {id : Nat} (hid : id < s.grammar.eosBit)
    {bytes : Bytes} (hbytes : s.grammar.vocab.bytesOrEmpty id = bytes) :
    s.allows id = true ↔ s.pda.admits bytes = true ∧ s.legal bytes = true := by
  rw [allows_iff h, hbytes]
  simp [hid, Nat.ne_of_lt hid]

/-- A token that is no fused navigation stands under the rule of its
position alone. -/
theorem legal_of_ne_dot {s : Session} {schema : Schema} (hschema : s.schema = some schema)
    {bytes : Bytes} (h : ∀ b rest, bytes = Byte.dot :: b :: rest → isIdentStart b = false) :
    s.legal bytes = legalAt schema (s.tracker.position s.pda.state) s.tracker.narrowPrefix
      s.tracker.emittedColumns bytes := by
  simp only [legal, hschema]
  cases s.tracker.fusedNavPosition schema with
  | none => simp
  | some pos => simp [legalFused_of_ne_dot pos h]

/-- A fused navigation stands under the fused rule as well. -/
theorem legal_fused {s : Session} {schema : Schema} (hschema : s.schema = some schema)
    {b : UInt8} (hb : isIdentStart b = true) (rest : Bytes)
    (hruled : Ruled .afterDot ((s.tracker.fusedNavPosition schema).getD .none)) :
    s.legal (Byte.dot :: b :: rest) =
      (legalAt schema (s.tracker.position s.pda.state) s.tracker.narrowPrefix
          s.tracker.emittedColumns (Byte.dot :: b :: rest) &&
        legalAt schema ((s.tracker.fusedNavPosition schema).getD .none) []
          s.tracker.emittedColumns (b :: rest)) := by
  simp only [legal, hschema]
  cases hfused : s.tracker.fusedNavPosition schema with
  | none => simp [legalAt]
  | some pos =>
    rw [hfused, Option.getD_some] at hruled
    simp only [legalFused_dot hruled hb rest, Option.getD_some]

/-- **When the two cuts of a navigation agree.** Let a dot be admissible
and navigate. The fused token is allowed exactly when the dot is and,
behind it, the word, unless the session is astray. -/
theorem fused_iff_split (g : CompiledGrammar) (schema : Schema) (calls : List Call) {s : Session}
    (hs : s = ((build g (some schema)).runCalls calls).1) {st : List Frame}
    (hdot : Pushdown.advance step s.pda.config Byte.dot = some (.afterDot, st))
    {dot word fused : Nat} {b : UInt8} {rest : Bytes} (hb : isIdentStart b = true)
    (hids : dot < s.grammar.eosBit ∧ word < s.grammar.eosBit ∧ fused < s.grammar.eosBit)
    (hdotBytes : s.grammar.vocab.bytesOrEmpty dot = [Byte.dot])
    (hwordBytes : s.grammar.vocab.bytesOrEmpty word = b :: rest)
    (hfusedBytes : s.grammar.vocab.bytesOrEmpty fused = Byte.dot :: b :: rest) :
    (s.allows fused = true ↔
        s.allows dot = true ∧ ∃ s', s.acceptToken dot = .ok s' ∧ s'.allows word = true) ↔
      ¬ s.Astray schema (b :: rest) := by
  have hmemo : s.MemoValid := hs ▸ memoValid_runCalls g schema calls
  have hafter : s.AfterTokens schema _ := hs ▸ (afterTokens_build g schema).runCalls calls
  generalize (build g (some schema)).stream [] calls = toks at hafter
  obtain ⟨l, ps, htoks, hsettled, hpda, htracker⟩ := pieces_of_drive hafter.driven
  have hdot' : Pushdown.advance step (l.state, l.stack) Byte.dot = some (.afterDot, st) := by
    rw [hpda] at hdot
    exact hdot
  -- the dot is accepted
  have hadvance : s.pda.advanceAll [Byte.dot] = .ok ⟨.afterDot, st⟩ := by
    rw [Pda.advanceAll_eq_ok, run_cons, hdot]
    rfl
  have haccept : s.acceptToken dot = .ok (s.commit [Byte.dot] ⟨.afterDot, st⟩) := by
    rw [acceptToken, if_neg (Nat.ne_of_lt hids.1), Vocab.bytes_of_lt hids.1, hdotBytes]
    simp only [hadvance]
  have hsplit : (∃ s', s.acceptToken dot = .ok s' ∧ s'.allows word = true) ↔
      (s.commit [Byte.dot] ⟨.afterDot, st⟩).allows word = true := by
    rw [haccept]
    simp
  -- and then the word stands under the rule of what it goes on from
  have hnext := (hafter.commit hadvance).driven
  obtain ⟨t, hdrive, hpos, hpfx, hcolumns⟩ := @behind_dot schema _ _ _ htoks _ hdot'
  rw [hdrive] at hnext
  have htracker' : (s.commit [Byte.dot] ⟨.afterDot, st⟩).tracker = t :=
    (congrArg Prod.snd (Option.some.inj hnext)).symm
  have hword : (s.commit [Byte.dot] ⟨.afterDot, st⟩).allows word = true ↔
      s.pda.admits (Byte.dot :: b :: rest) = true ∧
        legalAt schema ((new.dispatchAll ps schema).dispatchAll l.pieces schema).ruleAtDot []
          s.tracker.columnsAtDot (b :: rest) = true := by
    have hne : ∀ c u, b :: rest = Byte.dot :: c :: u → isIdentStart c = false := by
      intro c u heq
      obtain ⟨rfl, _⟩ := List.cons.inj heq
      exact absurd hb (by decide)
    have hadmits : Pda.admits ⟨.afterDot, st⟩ (b :: rest) = s.pda.admits (Byte.dot :: b :: rest) := by
      rw [Pda.admits, Pda.admits, run_cons step s.pda.config, hdot]
      rfl
    rw [allows_token (hmemo.commit _ _) hids.2.1 hwordBytes,
      legal_of_ne_dot (hafter.commit hadvance).schema_eq hne, htracker']
    show Pda.admits ⟨.afterDot, st⟩ (b :: rest) = true ∧
      legalAt schema (t.position .afterDot) t.narrowPrefix t.emittedColumns (b :: rest) = true ↔ _
    rw [hadmits, hpos, hpfx, hcolumns, htracker]
  -- in front of the dot both tokens stand under one rule
  have hfront : ∀ u, legalAt schema (s.tracker.position s.pda.state) s.tracker.narrowPrefix
      s.tracker.emittedColumns (Byte.dot :: u) = true ↔
        ¬ CutShort s.tracker.emittedColumns (s.tracker.position s.pda.state)
          s.tracker.narrowPrefix := by
    intro u
    rw [htracker, hpda]
    exact legalAt_dot_hold htoks hdot' _ u
  have hdotAllowed : s.allows dot = true ↔
      ¬ CutShort s.tracker.emittedColumns (s.tracker.position s.pda.state)
        s.tracker.narrowPrefix := by
    rw [allows_token hmemo hids.1 hdotBytes, legal_of_ne_dot hafter.schema_eq (by simp), hfront,
      Pda.admits_iff]
    exact ⟨fun h => h.2, fun h => ⟨⟨_, hadvance⟩, h⟩⟩
  rw [hsplit, hword, hdotAllowed]
  by_cases hforeseen : s.tracker.Foreseen
  · -- the fused rule is the rule the dot opens
    have hagree : ¬ s.Astray schema (b :: rest) := fun h => h.unforeseen hforeseen
    rw [htracker] at hforeseen
    obtain ⟨hrule, hsame⟩ := foreseen_closed htoks hforeseen
    rw [← htracker] at hrule hsame
    have hruled := ruled_ruleAtDot
      ((new.dispatchAll ps schema).dispatchAll l.pieces schema)
    rw [hrule] at hruled
    rw [allows_token hmemo hids.2.2 hfusedBytes, legal_fused hafter.schema_eq hb rest hruled,
      Bool.and_eq_true, hfront, hrule, hsame]
    exact iff_of_true ⟨fun h => ⟨h.2.1, h.1, h.2.2⟩, fun h => ⟨h.2.1, h.1, h.2.2⟩⟩ hagree
  · -- the fused rule is silent
    have hunforeseen := hforeseen
    rw [htracker] at hunforeseen
    obtain ⟨hrule, hnone⟩ := unforeseen_closed htoks hdot' hunforeseen
    rw [← htracker] at hrule hnone
    have hsilent : (s.tracker.fusedNavPosition schema).getD .none = .none := by rw [hnone]; rfl
    have hfree : ∀ cols, legalAt schema .none [] cols (b :: rest) = true := fun _ => rfl
    rw [allows_token hmemo hids.2.2 hfusedBytes,
      legal_fused hafter.schema_eq hb rest (by rw [hsilent]; exact .free _), hsilent, hfree, Bool.and_true,
      hfront, hrule]
    have hoff := @legalAt_behind_dot schema s.tracker.columnsAtDot _ (ruled_ruleAtDot s.tracker) _
      hb rest
    constructor
    · rintro h ⟨_, hoff', hadm, hkept⟩
      have := (h.mp ⟨hadm, hkept⟩).2.2
      rw [hoff.mpr hoff'] at this
      cases this
    · intro h
      refine ⟨fun hfused => ⟨hfused.2, hfused.1, ?_⟩, fun hsplit => ⟨hsplit.2.1, hsplit.1⟩⟩
      rw [← Bool.not_eq_false, hoff]
      exact fun hoff' => h ⟨hforeseen, hoff', hfused.1, hfused.2⟩

/-! ### A variable and a string -/

/-- Two streams that a dot can follow, the dot, a name no class has, and
both in one. -/
def dotVocab : Vocab :=
  ⟨[ascii "|A.all()->filter(x|$x", ascii "|A.all()->filter(x|$x == 'b'", ascii ".", ascii "zzz",
    ascii ".zzz"], 5⟩

/-- The session at a variable. -/
def atVariable : Session := ((build (.compile dotVocab) (some .sample)).runCalls [.accept 0]).1

/-- The session at a string the variable is compared with. -/
def atString : Session := ((build (.compile dotVocab) (some .sample)).runCalls [.accept 1]).1

theorem atVariable_foreseen : atVariable.tracker.Foreseen := by
  have hpending : atVariable.tracker.pending = some ⟨.ident, ascii "x", .afterDollar, .none⟩ := by
    decide +kernel
  intro p hp
  rw [hpending] at hp
  cases hp
  exact ⟨rfl, .inl rfl⟩

theorem fused_iff_split_variable : atVariable.allows 4 = true ↔
    atVariable.allows 2 = true ∧
      ∃ s', atVariable.acceptToken 2 = .ok s' ∧ s'.allows 3 = true := by
  have hdot : Pushdown.advance step atVariable.pda.config Byte.dot = some (.afterDot, [.paren]) := by
    decide +kernel
  have hids : 2 < atVariable.grammar.eosBit ∧ 3 < atVariable.grammar.eosBit ∧
      4 < atVariable.grammar.eosBit := by decide +kernel
  have hword : atVariable.grammar.vocab.bytesOrEmpty 3 = 122 :: ascii "zz" := by decide +kernel
  have hfused : atVariable.grammar.vocab.bytesOrEmpty 4 = Byte.dot :: 122 :: ascii "zz" := by
    decide +kernel
  exact (fused_iff_split (.compile dotVocab) .sample [.accept 0] rfl hdot (by decide) hids
    (by decide +kernel) hword hfused).mpr fun h => h.unforeseen atVariable_foreseen

/-- At the string the fused token is allowed, the dot is, and the name
behind it is not: it is looked up in the class of the variable. -/
theorem fused_split_differ :
    Pushdown.advance step atString.pda.config Byte.dot = some (.afterDot, [.paren]) ∧
      atString.allows 4 = true ∧ atString.allows 2 = true ∧
      ∀ s', atString.acceptToken 2 = .ok s' → s'.allows 3 = false := by
  refine ⟨by decide +kernel, by decide +kernel, by decide +kernel, fun s' hs' => ?_⟩
  have hcall : (atString.callAcceptToken 2).1 = s' := by
    rw [callAcceptToken_eq, hs']
  have hmasked : (atString.callAcceptToken 2).1.allows 3 = false := by decide +kernel
  rwa [hcall] at hmasked

end Session

end PureCard
