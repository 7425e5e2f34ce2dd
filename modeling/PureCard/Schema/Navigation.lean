/-
PureCard.Schema.Navigation — the fields that carry a navigation.

`$v.p.q` is read over several pieces, and the class reached so far is kept
in five fields of the tracker. `Nav` is those five. Four kinds of pieces
touch them, a variable after `$`, a name after a dot, a dot and an arrow,
and one lemma for each says how; `nav_dispatch_other` says that nothing
else does: no operator, comma or delimiter clears what a navigation left.

`receiver` is the class the next dot would navigate from.
-/
import PureCard.Schema.Scoping

namespace PureCard

open Scopes

/-- The fields a navigation is carried in. -/
structure Nav where
  refvar : Option Bytes
  base : Option Bytes
  cursor : Option Bytes
  last : Option Bytes
  column : Bool
  deriving DecidableEq, Repr

namespace ScopeTracker

def nav (t : ScopeTracker) : Nav :=
  ⟨t.pendingRefvar, t.dotBase, t.navCursor, t.lastNavClass, t.dotIsColumn⟩

/-- The class the next dot navigates from. -/
def receiver (t : ScopeTracker) : Option Bytes :=
  match t.pendingRefvar with
  | some v => if v ∈ t.relationRowVars then none else t.classOf v
  | none => t.navCursor

/-- Whether the next dot is a column access on a relation row. -/
def receiverIsRow (t : ScopeTracker) : Bool :=
  match t.pendingRefvar with
  | some v => decide (v ∈ t.relationRowVars)
  | none => false

end ScopeTracker

/-- A member read after a dot. -/
def Nav.member (n : Nav) (schema : Schema) (ident : Bytes) : Nav :=
  if n.column then { n with column := false, cursor := none, last := none }
  else
    match n.base with
    | none => n
    | some base =>
      match schema.resolve base ident with
      | some (.cls path _) => { n with base := none, cursor := some path, last := some path }
      | _ => { n with base := none, cursor := none, last := none }

namespace ScopeTracker

theorem nav_resolveMember (t : ScopeTracker) (ident : Bytes) (schema : Schema) :
    (t.resolveMember ident schema).1.nav = t.nav.member schema ident := by
  unfold resolveMember Nav.member nav
  by_cases hcol : t.dotIsColumn = true
  · simp only [hcol, if_true]
  · simp only [if_neg hcol]
    cases hbase : t.dotBase with
    | none => simp only [hbase]
    | some base =>
      dsimp only
      cases hres : schema.resolve base ident with
      | none => simp only
      | some r => cases r <;> simp only

/-- Whether a piece is one of the four kinds that touch the navigation. -/
def navigates (p : Piece) : Bool :=
  match p.lexeme with
  | .ident _ => p.anchor = .afterDollar || p.anchor = .afterDot
  | .dot | .arrow => true
  | _ => false

theorem nav_openMethod (t : ScopeTracker) (name : Bytes) : (t.openMethod name).nav = t.nav := by
  unfold openMethod
  dsimp only
  repeat' split
  all_goals rfl

theorem nav_onOpen (t : ScopeTracker) (preState : State) : (t.onOpen preState).nav = t.nav := by
  unfold onOpen
  dsimp only
  cases t.lastIdent with
  | none => rfl
  | some name => exact nav_openMethod _ name

theorem nav_onPipe (t : ScopeTracker) (preState : State) : (t.onPipe preState).nav = t.nav := by
  unfold onPipe bindLambda
  dsimp only
  repeat' split
  all_goals rfl

theorem nav_onClose (t : ScopeTracker) : t.onClose.nav = t.nav := by
  rw [onClose_eq, restoreScopes_eq, restoreBinders_eq]
  dsimp only
  split <;> rfl

theorem nav_onIdent (t : ScopeTracker) (text : Bytes) (preState : State) (schema : Schema) :
    (t.onIdent text preState schema).1.nav =
      match preState with
      | .afterDollar => { t.nav with refvar := some text }
      | .afterDot => t.nav.member schema text
      | _ => t.nav := by
  have hbind : ∀ u : ScopeTracker, (u.bindIdent text preState schema).1.nav =
      match preState with
      | .afterDollar => { u.nav with refvar := some text }
      | .afterDot => u.nav.member schema text
      | _ => u.nav := by
    intro u
    unfold bindIdent
    cases preState with
    | afterDot => exact u.nav_resolveMember text schema
    | afterColon =>
      dsimp only
      split <;> rfl
    | afterColonWs =>
      dsimp only
      split <;> rfl
    | _ => rfl
  rw [onIdent_eq]
  exact hbind (t.sawClass text schema)

theorem nav_onDot (t : ScopeTracker) : t.onDot.nav =
    { t.nav with refvar := none, base := t.receiver, column := t.receiverIsRow } := by
  unfold onDot receiver receiverIsRow nav
  dsimp only
  cases hvar : t.pendingRefvar with
  | none =>
    dsimp only
    cases t.navCursor with
    | none => simp only
    | some cursor => simp only
  | some v =>
    dsimp only
    by_cases hrow : v ∈ t.relationRowVars
    · simp only [hrow, if_true, decide_true]
    · simp only [hrow, if_false, decide_false]
      rfl

/-- The bookkeeping around a handler does not touch the navigation. -/
theorem nav_dispatchToken {t : ScopeTracker} {p : Piece} (hws : p.lexeme ≠ .ws)
    (schema : Schema) : (t.dispatchToken p.text p.anchor schema).nav =
      (t.dispatchLexeme p.lexeme p.anchor schema).1.nav := by
  rw [dispatchToken_eq rfl hws]
  rfl

theorem nav_dispatch_ident {p : Piece} {text : Bytes} (hp : p.lexeme = .ident text)
    (t : ScopeTracker) (schema : Schema) : (t.dispatchToken p.text p.anchor schema).nav =
      match p.anchor with
      | .afterDollar => { t.nav with refvar := some text }
      | .afterDot => t.nav.member schema text
      | _ => t.nav := by
  rw [nav_dispatchToken (by rw [hp]; simp), hp]
  exact t.nav_onIdent text p.anchor schema

theorem nav_dispatch_dot {p : Piece} (hp : p.lexeme = .dot) (t : ScopeTracker)
    (schema : Schema) : (t.dispatchToken p.text p.anchor schema).nav =
      { t.nav with refvar := none, base := t.receiver, column := t.receiverIsRow } := by
  rw [nav_dispatchToken (by rw [hp]; simp), hp]
  exact t.nav_onDot

theorem nav_dispatch_arrow {p : Piece} (hp : p.lexeme = .arrow) (t : ScopeTracker)
    (schema : Schema) : (t.dispatchToken p.text p.anchor schema).nav =
      { t.nav with refvar := none, cursor := none, last := none } := by
  rw [nav_dispatchToken (by rw [hp]; simp), hp]
  rfl

/-- **Nothing else touches a navigation.** -/
theorem nav_dispatch_other {p : Piece} (hp : navigates p = false) (t : ScopeTracker)
    (schema : Schema) : (t.dispatchToken p.text p.anchor schema).nav = t.nav := by
  by_cases hws : p.lexeme = .ws
  · rw [dispatchToken_ws hws]
  · rw [nav_dispatchToken hws]
    unfold navigates at hp
    cases hlex : p.lexeme with
    | ident text =>
      rw [hlex] at hp
      simp only [Bool.or_eq_false_iff, decide_eq_false_iff_not] at hp
      have h := t.nav_onIdent text p.anchor schema
      rw [dispatchLexeme, h]
      split <;> simp_all
    | dot =>
      rw [hlex] at hp
      cases hp
    | arrow =>
      rw [hlex] at hp
      cases hp
    | pipe => exact t.nav_onPipe p.anchor
    | «open» => exact t.nav_onOpen p.anchor
    | close => exact t.nav_onClose
    | cmp =>
      rw [dispatchLexeme]
      cases t.lastResolved <;> rfl
    | _ => rfl

/-- A receiver is a class, so the dot after it is no column access. -/
theorem receiverIsRow_eq_false {t : ScopeTracker} {cls : Bytes} (h : t.receiver = some cls) :
    t.receiverIsRow = false := by
  unfold receiver at h
  unfold receiverIsRow
  cases hvar : t.pendingRefvar with
  | none => rfl
  | some v =>
    rw [hvar] at h
    by_cases hrow : v ∈ t.relationRowVars
    · simp only [hrow, if_true, reduceCtorEq] at h
    · simp only [hrow, decide_false]

/-! ## The receiver of a method's lambda -/

/-- What an identifier leaves to the delimiter machinery. -/
theorem parens_onIdent (t : ScopeTracker) (text : Bytes) (preState : State) (schema : Schema) :
    (t.onIdent text preState schema).1.pendingArrowReceiver = t.pendingArrowReceiver ∧
      (t.onIdent text preState schema).1.parenReceiver = t.parenReceiver := by
  have hmember : ∀ u : ScopeTracker,
      (u.resolveMember text schema).1.pendingArrowReceiver = u.pendingArrowReceiver ∧
        (u.resolveMember text schema).1.parenReceiver = u.parenReceiver := by
    intro u
    unfold resolveMember
    repeat' split
    all_goals exact ⟨rfl, rfl⟩
  have hbind : ∀ u : ScopeTracker,
      (u.bindIdent text preState schema).1.pendingArrowReceiver = u.pendingArrowReceiver ∧
        (u.bindIdent text preState schema).1.parenReceiver = u.parenReceiver := by
    intro u
    unfold bindIdent
    repeat' split
    all_goals first | exact ⟨rfl, rfl⟩ | exact hmember u
  rw [onIdent_eq]
  exact hbind (t.sawClass text schema)

theorem parenReceiver_onOpen (t : ScopeTracker) (preState : State) :
    (t.onOpen preState).parenReceiver =
      t.pendingArrowReceiver.getD t.curClass :: t.parenReceiver := by
  have hmethod : ∀ (u : ScopeTracker) (name : Bytes),
      (u.openMethod name).pendingArrowReceiver = u.pendingArrowReceiver ∧
        (u.openMethod name).curClass = u.curClass ∧
        (u.openMethod name).parenReceiver = u.parenReceiver := by
    intro u name
    unfold openMethod
    dsimp only
    repeat' split
    all_goals exact ⟨rfl, rfl, rfl⟩
  unfold onOpen
  dsimp only
  cases t.lastIdent with
  | none => rfl
  | some name =>
    dsimp only
    obtain ⟨h1, h2, h3⟩ := hmethod _ name
    rw [h1, h2, h3]

/-- The receiver that waits for a list, and those of the open lists. -/
def parens (t : ScopeTracker) : Option (Option Bytes) × List (Option Bytes) :=
  (t.pendingArrowReceiver, t.parenReceiver)

theorem parens_dispatchToken {p : Piece} (hws : p.lexeme ≠ .ws) (t : ScopeTracker)
    (schema : Schema) : (t.dispatchToken p.text p.anchor schema).parens =
      (t.dispatchLexeme p.lexeme p.anchor schema).1.parens := by
  rw [dispatchToken_eq rfl hws]
  rfl

/-- An arrow captures the class a navigation left, or else that of the
pipeline. -/
theorem pending_arrow {p : Piece} (hp : p.lexeme = .arrow) (t : ScopeTracker) (schema : Schema) :
    (t.dispatchToken p.text p.anchor schema).pendingArrowReceiver =
      some (t.lastNavClass.or t.curClass) := by
  have hparens := parens_dispatchToken (by rw [hp]; simp) t schema
  rw [hp] at hparens
  exact congrArg Prod.fst hparens

/-- An opener takes what waits, and with nothing waiting the class of the
pipeline. -/
theorem parens_open {p : Piece} (hp : p.lexeme = .open) (t : ScopeTracker) (schema : Schema) :
    (t.dispatchToken p.text p.anchor schema).parens =
      (none, t.pendingArrowReceiver.getD t.curClass :: t.parenReceiver) := by
  have hparens := parens_dispatchToken (by rw [hp]; simp) t schema
  rw [hp] at hparens
  rw [hparens, dispatchLexeme]
  exact Prod.ext rfl (t.parenReceiver_onOpen p.anchor)

theorem pending_close {p : Piece} (hp : p.lexeme = .close) (t : ScopeTracker) (schema : Schema) :
    (t.dispatchToken p.text p.anchor schema).pendingArrowReceiver = none := by
  have hparens := parens_dispatchToken (by rw [hp]; simp) t schema
  rw [hp] at hparens
  exact congrArg Prod.fst hparens

/-- Nothing else touches them. -/
theorem parens_other {p : Piece} (harrow : p.lexeme ≠ .arrow) (hflat : p.nesting = .flat)
    (t : ScopeTracker) (schema : Schema) :
    (t.dispatchToken p.text p.anchor schema).parens = t.parens := by
  by_cases hws : p.lexeme = .ws
  · rw [dispatchToken_ws hws]
  · rw [parens_dispatchToken hws]
    rw [Piece.nesting] at hflat
    cases hlex : p.lexeme with
    | ident text =>
      obtain ⟨hpending, hparen⟩ := parens_onIdent t text p.anchor schema
      exact Prod.ext hpending hparen
    | arrow => exact absurd hlex harrow
    | «open» =>
      rw [hlex] at hflat
      cases hflat
    | close =>
      rw [hlex] at hflat
      cases hflat
    | dot =>
      rw [dispatchLexeme]
      unfold onDot
      dsimp only
      repeat' split
      all_goals rfl
    | pipe =>
      rw [dispatchLexeme]
      unfold onPipe bindLambda
      dsimp only
      repeat' split
      all_goals rfl
    | cmp =>
      rw [dispatchLexeme]
      cases t.lastResolved <;> rfl
    | _ => rfl

theorem pending_other {p : Piece} (harrow : p.lexeme ≠ .arrow) (hflat : p.nesting = .flat)
    (t : ScopeTracker) (schema : Schema) :
    (t.dispatchToken p.text p.anchor schema).pendingArrowReceiver = t.pendingArrowReceiver :=
  congrArg Prod.fst (parens_other harrow hflat t schema)

/-- In a list that opens here, up to its first identifier, the receiver is
what waited, or else the class of the pipeline. -/
theorem parenReceiver_list {o b : Piece} {v : Bytes} (ho : o.lexeme = .open)
    (hb : b.lexeme = .ident v) (t : ScopeTracker) (schema : Schema) :
    (t.dispatchAll [o, b] schema).parenReceiver.head? =
      some (t.pendingArrowReceiver.getD t.curClass) := by
  have hflat : b.nesting = .flat := by
    rw [Piece.nesting, hb]
    rfl
  rw [dispatchAll_cons, dispatchAll_cons, dispatchAll_nil]
  have hopen := parens_open ho t schema
  have hname := parens_other (by simp [hb]) hflat (t.dispatchToken o.text o.anchor schema) schema
  rw [hopen] at hname
  have hstack := congrArg Prod.snd hname
  simp only [parens] at hstack
  rw [hstack]
  rfl

end ScopeTracker

end PureCard
