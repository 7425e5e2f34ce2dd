/-
PureCard.Schema.Scoping — the lexical environment behind the tracker.

The tracker keeps one class map and one set of relation rows for the whole
stream, and a stack of what every lambda binder shadowed. This module
gives that its meaning. `scopes` is the environment of a list of pieces:
a frame for each open delimiter, and in it what the lambda pipes of that
delimiter bound. `scopes_refines` says that the tracker's map is the
lookup in those frames and its save stack their undo log, so what a
variable stands for is what its innermost open header bound it to.
-/
import PureCard.Lib.Scopes
import PureCard.Schema.Lexing

namespace PureCard

open Scopes

/-! ## One dispatch -/

/-- What a piece does to the delimiter depth. -/
def Lexeme.nesting : Lexeme → Nesting
  | .open => .opens
  | .close => .closes
  | _ => .flat

def Piece.nesting (p : Piece) : Nesting := p.lexeme.nesting

theorem nesting_of_open {p : Piece} (h : p.lexeme = .open) : p.nesting = .opens := by
  rw [Piece.nesting, h]
  rfl

theorem nesting_of_close {p : Piece} (h : p.lexeme = .close) : p.nesting = .closes := by
  rw [Piece.nesting, h]
  rfl

theorem lexeme_of_closes {p : Piece} (h : p.nesting = .closes) : p.lexeme = .close := by
  rw [Piece.nesting] at h
  cases hlex : p.lexeme with
  | close => rfl
  | _ =>
    rw [hlex] at h
    cases h

theorem lexeme_of_opens {p : Piece} (h : p.nesting = .opens) : p.lexeme = .open := by
  rw [Piece.nesting] at h
  cases hlex : p.lexeme with
  | «open» => rfl
  | _ =>
    rw [hlex] at h
    cases h

namespace ScopeTracker

/-- A dispatched piece that is not whitespace: its handler, then the
bookkeeping of the operand rule. -/
theorem dispatchToken_eq {bytes : Bytes} {lex : Lexeme} (hlex : classify bytes = lex)
    (hws : lex ≠ .ws) (t : ScopeTracker) (preState : State) (schema : Schema) :
    t.dispatchToken bytes preState schema =
      { (t.dispatchLexeme lex preState schema).1 with
        lastResolved := (t.dispatchLexeme lex preState schema).2
        cmpPending := if lex = .cmp then (t.dispatchLexeme lex preState schema).1.cmpPending
          else none } := by
  unfold dispatchToken
  simp only [hlex, if_neg hws]
  by_cases hcmp : lex = .cmp
  · simp only [hcmp, if_true]
  · simp only [if_neg hcmp]

theorem dispatchToken_ws {bytes : Bytes} (hlex : classify bytes = .ws) (t : ScopeTracker)
    (preState : State) (schema : Schema) : t.dispatchToken bytes preState schema = t := by
  unfold dispatchToken
  simp only [hlex, if_true]

/-- The tracker once an identifier has been compared with the class paths. -/
def sawClass (t : ScopeTracker) (text : Bytes) (schema : Schema) : ScopeTracker :=
  { t with curClass := if schema.hasClass text then some text else t.curClass }

/-- What `on_ident` does, with the column recording in its field. -/
theorem onIdent_eq (t : ScopeTracker) (text : Bytes) (preState : State) (schema : Schema) :
    t.onIdent text preState schema =
      let r := (t.sawClass text schema).bindIdent text preState schema
      ({ r.1 with
          emittedStrings := if r.1.recordsColumn preState then r.1.emittedStrings ++ [text]
            else r.1.emittedStrings
          lastIdent := some text }, r.2) := by
  have hclass : (if schema.hasClass text then { t with curClass := some text } else t) =
      t.sawClass text schema := by
    unfold sawClass
    split <;> rfl
  unfold onIdent
  dsimp only
  rw [hclass]
  split <;> rfl

end ScopeTracker

/-! ## Bindings -/

/-- What a lambda variable stands for: its entry in the class map and
whether it is a relation row. -/
structure Binding where
  entry : Option (Option Bytes)
  row : Bool
  deriving DecidableEq, Repr

namespace Binding

/-- A name no lambda has bound. -/
def free : Binding := ⟨none, false⟩

/-- A name bound to a pipeline element of class `cls`, if known. -/
def element (cls : Option Bytes) : Binding := ⟨some cls, false⟩

/-- A name bound to the row of a named relation. -/
def relationRow : Binding := ⟨none, true⟩

/-- The constraint `$v.` puts on the identifier after it. -/
def position (b : Binding) : Option L2Position :=
  if b.row then some .relationColumn else b.entry.join.map .member

@[simp] theorem position_free : free.position = none := rfl

@[simp] theorem position_element (cls : Option Bytes) :
    (element cls).position = cls.map .member := rfl

@[simp] theorem position_relationRow : relationRow.position = some .relationColumn := rfl

end Binding

namespace ScopeTracker

/-- What the tracker has a variable stand for. -/
def binding (t : ScopeTracker) (v : Bytes) : Binding :=
  ⟨t.varClass.lookup v, decide (v ∈ t.relationRowVars)⟩

theorem navFromVar_eq (t : ScopeTracker) (v : Bytes) :
    t.navFromVar v = (t.binding v).position := by
  simp only [navFromVar, Binding.position, binding, decide_eq_true_eq, classOf]

theorem classOf_eq (t : ScopeTracker) (v : Bytes) : t.classOf v = (t.binding v).entry.join := rfl

/-- The constraint on the identifier after `$v.`, were it to come next. -/
def constraintOn (t : ScopeTracker) (v : Bytes) (schema : Schema) : L2Position :=
  (((t.dispatchToken [Byte.dollar] .expectValue schema).dispatchToken v .afterDollar
    schema).dispatchToken [Byte.dot] .inIdent schema).openingPosition .afterDot

theorem constraintOn_eq {v : Bytes} (hv : classify v = .ident v) (t : ScopeTracker)
    (schema : Schema) : t.constraintOn v schema = (t.binding v).position.getD .none := by
  have hdollar : classify [Byte.dollar] = .dollar := by decide
  have hdot : classify [Byte.dot] = .dot := by decide
  unfold constraintOn
  rw [dispatchToken_eq hdollar (by decide), dispatchToken_eq hv (by simp),
    dispatchToken_eq hdot (by decide)]
  simp only [dispatchLexeme, onIdent_eq, bindIdent, onDot, sawClass]
  rw [← navFromVar_eq, navFromVar]
  by_cases hrow : v ∈ t.relationRowVars
  · simp only [hrow, if_true, openingPosition, Option.getD_some]
  · simp only [hrow, if_false, openingPosition, classOf]
    cases (t.varClass.lookup v).join <;> rfl

/-- What a lambda pipe binds its name to: a relation row, or an element of
the receiver of the enclosing list. -/
def receiverBinding (t : ScopeTracker) : Binding :=
  if t.parenReceiver.head?.join.isNone && t.relExplicit && t.sawTildeBracket then .relationRow
  else .element t.parenReceiver.head?.join

/-- What the lambda pipe at `preState` binds, if it binds. -/
def header (t : ScopeTracker) (preState : State) : Option (Bytes × Binding) :=
  if preState = .start ∨ preState = .expectSource then none
  else
    match t.lambdaFirstIdent with
    | none => none
    | some name =>
      if name.isEmpty then none else some (name, t.receiverBinding)

/-- The tracker's map, depth and save stack, as a store with an undo
log. -/
def asUndo (t : ScopeTracker) : Undo Bytes Binding where
  store := t.binding
  depth := t.depth
  log := t.binderSaves.map fun save => (save.depth, save.name,
    ⟨save.prevClass, save.prevRelationRow⟩)

theorem asUndo_bindLambda (t : ScopeTracker) (name : Bytes) :
    (t.bindLambda name).asUndo = t.asUndo.bind name t.receiverBinding := by
  have hstore : (t.bindLambda name).binding =
      Function.update t.binding name t.receiverBinding := by
    funext v
    unfold bindLambda receiverBinding
    dsimp only
    by_cases hv : v = name
    · subst hv
      rw [Function.update_self]
      split
      · simp [binding, Binding.relationRow]
      · simp [binding, Binding.element]
    · rw [Function.update_of_ne hv]
      split <;> simp [binding, hv, Finmap.lookup_insert_of_ne, Finmap.lookup_erase_ne]
  have hlog : (t.bindLambda name).asUndo.log =
      (t.depth, name, t.binding name) :: t.asUndo.log := by
    unfold asUndo bindLambda
    dsimp only
    split <;> rfl
  have hdepth : (t.bindLambda name).depth = t.depth := by
    unfold bindLambda
    dsimp only
    split <;> rfl
  rw [Undo.bind]
  exact Undo.mk.injEq .. |>.mpr ⟨hstore, hdepth, hlog⟩

theorem asUndo_onPipe (t : ScopeTracker) (preState : State) :
    (t.onPipe preState).asUndo = match t.header preState with
      | some (name, b) => t.asUndo.bind name b
      | none => t.asUndo := by
  unfold onPipe header
  by_cases hstart : preState = .start ∨ preState = .expectSource
  · simp only [if_pos hstart]
  · simp only [if_neg hstart]
    cases hname : t.lambdaFirstIdent with
    | none => rfl
    | some name =>
      dsimp only
      by_cases hempty : name.isEmpty = true
      · rw [if_pos hempty, if_pos hempty]
        rfl
      · rw [if_neg hempty, if_neg hempty]
        exact asUndo_bindLambda _ name

theorem asUndo_onOpen (t : ScopeTracker) (preState : State) :
    (t.onOpen preState).asUndo = t.asUndo.enter := by
  have hmethod : ∀ (u : ScopeTracker) (name : Bytes), (u.openMethod name).asUndo = u.asUndo := by
    intro u name
    unfold openMethod
    dsimp only
    repeat' split
    all_goals rfl
  unfold onOpen
  dsimp only
  cases t.lastIdent with
  | none => rfl
  | some name => exact hmethod _ name

/-- Putting a saved binding back. -/
theorem binding_restoreBinder (t : ScopeTracker) (save : BinderSave) :
    (t.restoreBinder save).binding =
      Undo.putBack t.binding (save.depth, save.name, ⟨save.prevClass, save.prevRelationRow⟩) := by
  funext v
  rw [Undo.putBack]
  by_cases hv : v = save.name
  · subst hv
    rw [Function.update_self, binding, restoreBinder]
    cases save.prevClass <;> cases save.prevRelationRow <;> simp
  · rw [Function.update_of_ne hv, binding, restoreBinder, binding]
    cases save.prevClass <;> cases save.prevRelationRow <;>
      simp [hv, Finmap.lookup_insert_of_ne, Finmap.lookup_erase_ne]

theorem binding_foldl_restoreBinder (saves : List BinderSave) (t : ScopeTracker) :
    (saves.foldl restoreBinder t).binding = (saves.map fun save =>
      (save.depth, save.name, (⟨save.prevClass, save.prevRelationRow⟩ : Binding))).foldl
        Undo.putBack t.binding := by
  induction saves generalizing t with
  | nil => rfl
  | cons save saves ih => rw [List.foldl_cons, ih, binding_restoreBinder, List.map_cons,
      List.foldl_cons]

/-- The binder restore loop touches the map, the rows and its own stack. -/
theorem restoreBinders_eq (t : ScopeTracker) : t.restoreBinders = { t with
    varClass := t.restoreBinders.varClass
    relationRowVars := t.restoreBinders.relationRowVars
    binderSaves := t.binderSaves.dropWhile (·.depth == t.depth) } := by
  have hfold : ∀ (saves : List BinderSave) (u : ScopeTracker),
      saves.foldl restoreBinder u = { u with
        varClass := (saves.foldl restoreBinder u).varClass
        relationRowVars := (saves.foldl restoreBinder u).relationRowVars } := by
    intro saves
    induction saves with
    | nil => exact fun u => rfl
    | cons save saves ih =>
      intro u
      rw [List.foldl_cons, ih]
      rfl
  exact hfold ..

theorem binding_restoreBinders (t : ScopeTracker) :
    t.restoreBinders.binding = t.asUndo.leave.store := by
  rw [restoreBinders, binding_foldl_restoreBinder, Undo.leave, asUndo, List.takeWhile_map]
  rfl

/-- The scope restore loop leaves what the oldest save of the closing depth
recorded. -/
theorem restoreScopes_eq (t : ScopeTracker) : t.restoreScopes =
    match (t.scopeSaves.takeWhile (·.depth == t.depth)).getLast? with
    | some save => { t with
        scopeSaves := t.scopeSaves.dropWhile (·.depth == t.depth)
        curClass := save.prevCurClass
        relExplicit := save.prevRelExplicit
        sawTildeBracket := save.prevSawTildeBracket }
    | none => { t with scopeSaves := t.scopeSaves.dropWhile (·.depth == t.depth) } := by
  have hfold : ∀ (saves : List ScopeSave) (u : ScopeTracker),
      saves.foldl restoreScope u = match saves.getLast? with
        | some save => u.restoreScope save
        | none => u := by
    intro saves
    induction saves with
    | nil => exact fun u => rfl
    | cons save saves ih =>
      intro u
      rw [List.foldl_cons, ih]
      cases saves with
      | nil => rfl
      | cons next rest =>
        rw [List.getLast?_cons_cons]
        cases h : (next :: rest).getLast? with
        | none => simp at h
        | some last => rfl
  exact hfold ..

/-- What `on_close` does after its two loops. -/
theorem onClose_eq (t : ScopeTracker) : t.onClose =
    let u := t.restoreBinders.restoreScopes
    let est : Bool := t.estStack.head? = some t.depth
    { u with
      tildeOpen := t.tildeOpen.tail
      refStack := if t.refStack.head? = some t.depth then t.refStack.tail else t.refStack
      estStack := if est then t.estStack.tail else t.estStack
      relExplicit := if est then true else u.relExplicit
      curClass := if est then none else u.curClass
      parenReceiver := t.parenReceiver.tail
      depth := t.depth - 1
      pendingArrowReceiver := none } := by
  have h : ∀ u : ScopeTracker, u = t.restoreBinders.restoreScopes → u.tildeOpen = t.tildeOpen ∧
      u.refStack = t.refStack ∧ u.estStack = t.estStack ∧ u.parenReceiver = t.parenReceiver ∧
      u.depth = t.depth := by
    intro u hu
    rw [hu, restoreScopes_eq, restoreBinders_eq]
    split <;> exact ⟨rfl, rfl, rfl, rfl, rfl⟩
  unfold onClose
  dsimp only
  generalize hu : t.restoreBinders.restoreScopes = u
  obtain ⟨htilde, href, hest, hparen, hdepth⟩ := h u hu.symm
  rw [← htilde, ← href, ← hest, ← hparen, ← hdepth]
  by_cases h1 : u.refStack.head? = some u.depth <;> by_cases h2 : u.estStack.head? = some u.depth
  all_goals simp [h1, h2]

theorem asUndo_restoreScopes (t : ScopeTracker) : t.restoreScopes.asUndo = t.asUndo := by
  rw [restoreScopes_eq]
  split <;> rfl

theorem asUndo_onClose (t : ScopeTracker) : t.onClose.asUndo = t.asUndo.leave := by
  have hscopes := t.restoreBinders.asUndo_restoreScopes
  have hstore : t.onClose.binding = t.restoreBinders.binding := by
    rw [onClose_eq]
    exact congrArg Undo.store hscopes
  have hsaves : t.onClose.asUndo.log = t.restoreBinders.asUndo.log := by
    have h := congrArg Undo.log hscopes
    rw [onClose_eq]
    exact h
  have hdepth : t.onClose.depth = t.depth - 1 := by rw [onClose_eq]
  have hlog : t.restoreBinders.asUndo.log = t.asUndo.leave.log := by
    rw [restoreBinders_eq]
    simp only [asUndo, Undo.leave, List.dropWhile_map]
    rfl
  exact (Undo.mk.injEq ..).mpr ⟨hstore.trans t.binding_restoreBinders, hdepth, hsaves.trans hlog⟩

/-- Identifiers bind nothing by themselves. -/
theorem asUndo_onIdent (t : ScopeTracker) (text : Bytes) (preState : State) (schema : Schema) :
    (t.onIdent text preState schema).1.asUndo = t.asUndo := by
  have hmember : ∀ u : ScopeTracker, (u.resolveMember text schema).1.asUndo = u.asUndo := by
    intro u
    unfold resolveMember
    repeat' split
    all_goals rfl
  have hbind : ∀ u : ScopeTracker, (u.bindIdent text preState schema).1.asUndo = u.asUndo := by
    intro u
    unfold bindIdent
    repeat' split
    all_goals first | rfl | exact hmember u
  rw [onIdent_eq]
  exact hbind (t.sawClass text schema)

theorem asUndo_onDot (t : ScopeTracker) : t.onDot.asUndo = t.asUndo := by
  unfold onDot
  dsimp only
  repeat' split
  all_goals rfl

end ScopeTracker

/-! ## The lexical environment -/

/-- What a piece does to the environment, read with the tracker before
it: a delimiter opens or closes a frame, a lambda pipe binds in the
innermost one. -/
def ScopeTracker.scopeStep (t : ScopeTracker) (p : Piece) (fr : Frames Bytes Binding) :
    Frames Bytes Binding :=
  match p.lexeme with
  | .open => fr.enter
  | .close => fr.leave
  | .pipe =>
    match t.header p.anchor with
    | some (name, b) => fr.bind name b
    | none => fr
  | _ => fr

/-- The environment after the pieces `ps`, from the environment `fr`. -/
def scopesFrom (schema : Schema) (t : ScopeTracker) (fr : Frames Bytes Binding) :
    List Piece → Frames Bytes Binding
  | [] => fr
  | p :: ps => scopesFrom schema (t.dispatchToken p.text p.anchor schema) (t.scopeStep p fr) ps

/-- The environment of a stream of pieces. -/
def scopes (schema : Schema) (ps : List Piece) : Frames Bytes Binding :=
  scopesFrom schema .new [[]] ps

theorem scopesFrom_append (schema : Schema) (t : ScopeTracker) (fr : Frames Bytes Binding)
    (ps qs : List Piece) : scopesFrom schema t fr (ps ++ qs) =
      scopesFrom schema (t.dispatchAll ps schema) (scopesFrom schema t fr ps) qs := by
  induction ps generalizing t fr with
  | nil => rfl
  | cons p ps ih => exact ih ..

theorem scopes_append (schema : Schema) (ps qs : List Piece) : scopes schema (ps ++ qs) =
    scopesFrom schema (ScopeTracker.new.dispatchAll ps schema) (scopes schema ps) qs :=
  scopesFrom_append ..

namespace ScopeTracker

/-- Every name is free at the start. -/
def freeStore : Bytes → Binding := fun _ => .free

/-- A piece that neither opens nor closes a delimiter and is no pipe leaves
every variable as it is. -/
theorem asUndo_dispatchToken {p : Piece} (hflat : p.nesting = .flat) (hpipe : p.lexeme ≠ .pipe)
    (t : ScopeTracker) (schema : Schema) :
    (t.dispatchToken p.text p.anchor schema).asUndo = t.asUndo := by
  by_cases hws : p.lexeme = .ws
  · rw [dispatchToken_ws hws]
  · have hundo : (t.dispatchToken p.text p.anchor schema).asUndo =
        (t.dispatchLexeme p.lexeme p.anchor schema).1.asUndo := by
      rw [dispatchToken_eq rfl hws]
      rfl
    rw [hundo]
    unfold Piece.nesting at hflat
    cases hlex : p.lexeme with
    | «open» =>
      rw [hlex] at hflat
      cases hflat
    | close =>
      rw [hlex] at hflat
      cases hflat
    | pipe => exact absurd hlex hpipe
    | ident text => exact t.asUndo_onIdent text p.anchor schema
    | dot => exact t.asUndo_onDot
    | cmp =>
      rw [dispatchLexeme]
      cases t.lastResolved <;> rfl
    | _ => rfl

/-- A piece does to the map what it does to the environment. -/
theorem refines_dispatchToken {t : ScopeTracker} {fr : Frames Bytes Binding}
    (h : Refines freeStore fr t.asUndo) (p : Piece) (schema : Schema) :
    Refines freeStore (t.scopeStep p fr) (t.dispatchToken p.text p.anchor schema).asUndo := by
  have hhandler : p.lexeme ≠ .ws → (t.dispatchToken p.text p.anchor schema).asUndo =
      (t.dispatchLexeme p.lexeme p.anchor schema).1.asUndo := by
    intro hws
    rw [dispatchToken_eq rfl hws]
    rfl
  rw [scopeStep]
  cases hlex : p.lexeme with
  | «open» =>
    rw [hhandler (by simp [hlex]), hlex, dispatchLexeme, asUndo_onOpen]
    exact h.enter
  | close =>
    rw [hhandler (by simp [hlex]), hlex, dispatchLexeme, asUndo_onClose]
    exact h.leave
  | pipe =>
    rw [hhandler (by simp [hlex]), hlex, dispatchLexeme, asUndo_onPipe]
    cases t.header p.anchor with
    | none => exact h
    | some b => exact h.bind b.1 b.2
  | _ =>
    rw [asUndo_dispatchToken (by rw [Piece.nesting, hlex]; rfl) (by simp [hlex])]
    exact h

theorem refines_scopesFrom {t : ScopeTracker} {fr : Frames Bytes Binding}
    (h : Refines freeStore fr t.asUndo) (ps : List Piece) (schema : Schema) :
    Refines freeStore (scopesFrom schema t fr ps) (t.dispatchAll ps schema).asUndo := by
  induction ps generalizing t fr with
  | nil => exact h
  | cons p ps ih => exact ih (refines_dispatchToken h p schema)

/-- **The tracker's map is the lookup in the lexical environment.** -/
theorem scopes_refines (schema : Schema) (ps : List Piece) :
    Refines freeStore (scopes schema ps) (new.dispatchAll ps schema).asUndo := by
  have hnew : new.asUndo = ⟨freeStore, 0, []⟩ := by
    have hstore : new.binding = freeStore := by
      funext v
      simp [binding, new, freeStore, Binding.free]
    rw [asUndo, hstore]
    rfl
  exact refines_scopesFrom (hnew ▸ .start freeStore) ps schema

/-- What a variable stands for after a stream of pieces. -/
theorem binding_dispatchAll (schema : Schema) (ps : List Piece) :
    (new.dispatchAll ps schema).binding = (scopes schema ps).lookup freeStore :=
  (scopes_refines schema ps).store

end ScopeTracker

/-! ## Inside a delimiter -/

/-- Pieces that stay inside the delimiter around them only add to its
frame, and put frames above it. -/
theorem within_scopesFrom {schema : Schema} {outer : Frames Bytes Binding} {body : List Piece}
    {n m : Nat} (h : level Piece.nesting n body = some m) (t : ScopeTracker)
    {up fr : Frames Bytes Binding} {more : List (Bytes × Binding)} (hup : up.length = n)
    (hin : Frames.Within outer up more fr) :
    ∃ up' more', up'.length = m ∧ Frames.Within outer up' more' (scopesFrom schema t fr body) := by
  induction body generalizing n t up fr more with
  | nil =>
    cases h
    exact ⟨up, more, hup, hin⟩
  | cons p body ih =>
    rw [scopesFrom]
    cases hp : p.nesting with
    | opens =>
      have hlex := lexeme_of_opens hp
      rw [level_opens hp] at h
      have hstep : t.scopeStep p fr = fr.enter := by rw [ScopeTracker.scopeStep, hlex]
      rw [hstep]
      exact ih h _ (by simp [hup]) hin.enter
    | closes =>
      have hlex := lexeme_of_closes hp
      have hstep : t.scopeStep p fr = fr.leave := by rw [ScopeTracker.scopeStep, hlex]
      rw [hstep]
      cases n with
      | zero =>
        rw [level_closes_zero hp] at h
        cases h
      | succ n =>
        rw [level_closes hp] at h
        cases up with
        | nil => cases hup
        | cons f up => exact ih h _ (by simpa using hup) hin.leave
    | flat =>
      rw [level_flat hp] at h
      have hopen : p.lexeme ≠ .open := fun hlex => by simp [nesting_of_open hlex] at hp
      have hclose : p.lexeme ≠ .close := fun hlex => by simp [nesting_of_close hlex] at hp
      have hstep : t.scopeStep p fr = fr ∨ ∃ k b, t.scopeStep p fr = fr.bind k b := by
        unfold ScopeTracker.scopeStep
        split
        · contradiction
        · contradiction
        · cases t.header p.anchor with
          | none => exact .inl rfl
          | some b => exact .inr ⟨b.1, b.2, rfl⟩
        · exact .inl rfl
      rcases hstep with hstep | ⟨k, b, hstep⟩
      · rw [hstep]
        exact ih h _ hup hin
      · rw [hstep]
        cases up with
        | nil => exact ih h _ hup (hin.bind_top k b)
        | cons f up => exact ih h _ (by simpa using hup) (hin.bind_up k b)

theorem within_inside {schema : Schema} (ps : List Piece) {body : List Piece}
    (hbody : Inside Piece.nesting body) :
    ∃ up more, Frames.Within (scopes schema ps) up more (scopes schema (ps ++ body)) := by
  obtain ⟨m, hm⟩ := Option.isSome_iff_exists.mp hbody
  obtain ⟨up, more, _, hin⟩ := within_scopesFrom hm (ScopeTracker.new.dispatchAll ps schema) rfl
    (Frames.Within.start (ScopeTracker.scopes_refines schema ps).ne_nil)
  exact ⟨up, more, by rw [scopes_append]; exact hin⟩

/-- A delimiter pair leaves the environment as it was. -/
theorem scopesFrom_pair {schema : Schema} {o c : Piece} {body : List Piece} (ho : o.lexeme = .open)
    (hc : c.lexeme = .close) (hbody : Balanced Piece.nesting body) (t : ScopeTracker)
    {fr : Frames Bytes Binding} (hfr : fr ≠ []) :
    scopesFrom schema t fr (o :: body ++ [c]) = fr := by
  have hopen : t.scopeStep o fr = fr.enter := by rw [ScopeTracker.scopeStep, ho]
  rw [List.cons_append, scopesFrom, hopen, scopesFrom_append]
  -- inside the pair only its own frame has grown
  have hstart : Frames.Within fr.enter [] [] fr.enter := .start (List.cons_ne_nil _ _)
  obtain ⟨up, more, hup, hin⟩ := within_scopesFrom hbody (t.dispatchToken o.text o.anchor schema)
    rfl hstart
  obtain rfl := List.length_eq_zero_iff.mp hup
  obtain ⟨f, rest, hframes, hall⟩ := hin
  obtain ⟨rfl, rfl⟩ := List.cons.inj hframes
  rw [hall, scopesFrom, scopesFrom, ScopeTracker.scopeStep, hc]
  cases fr with
  | nil => exact absurd rfl hfr
  | cons f rest => rfl

/-! ## The recorded binder -/

/-- What a piece does to the identifier recorded as the next binder. -/
def Piece.recordsBinder (schema : Schema) (cand : Option Bytes) (p : Piece) : Option Bytes :=
  match p.lexeme with
  | .ident text =>
    match p.anchor with
    | .expectValue | .expectValueReq => some text
    | .afterColon | .afterColonWs => if schema.hasClass text then cand else some text
    | _ => cand
  | .open | .comma => none
  | .pipe => if p.anchor = .start ∨ p.anchor = .expectSource then cand else none
  | _ => cand

namespace ScopeTracker

theorem lambdaFirstIdent_resolveMember (t : ScopeTracker) (text : Bytes) (schema : Schema) :
    (t.resolveMember text schema).1.lambdaFirstIdent = t.lambdaFirstIdent := by
  unfold resolveMember
  repeat' split
  all_goals rfl

theorem lambdaFirstIdent_onPipe (t : ScopeTracker) (preState : State) :
    (t.onPipe preState).lambdaFirstIdent =
      if preState = .start ∨ preState = .expectSource then t.lambdaFirstIdent else none := by
  unfold onPipe bindLambda
  dsimp only
  repeat' split
  all_goals simp_all

theorem lambdaFirstIdent_onClose (t : ScopeTracker) :
    t.onClose.lambdaFirstIdent = t.lambdaFirstIdent := by
  rw [onClose_eq, restoreScopes_eq, restoreBinders_eq]
  dsimp only
  split <;> rfl

theorem lambdaFirstIdent_onIdent (t : ScopeTracker) (text : Bytes) (preState : State)
    (schema : Schema) : (t.onIdent text preState schema).1.lambdaFirstIdent =
      match preState with
      | .expectValue | .expectValueReq => some text
      | .afterColon | .afterColonWs =>
        if schema.hasClass text then t.lambdaFirstIdent else some text
      | _ => t.lambdaFirstIdent := by
  have hbind : ∀ u : ScopeTracker, (u.bindIdent text preState schema).1.lambdaFirstIdent =
      match preState with
      | .expectValue | .expectValueReq => some text
      | .afterColon | .afterColonWs =>
        if schema.hasClass text then u.lambdaFirstIdent else some text
      | _ => u.lambdaFirstIdent := by
    intro u
    unfold bindIdent
    cases preState with
    | afterDot => exact u.lambdaFirstIdent_resolveMember text schema
    | afterColon =>
      dsimp only
      split <;> rfl
    | afterColonWs =>
      dsimp only
      split <;> rfl
    | _ => rfl
  rw [onIdent_eq]
  exact hbind (t.sawClass text schema)

theorem lambdaFirstIdent_dispatchToken (t : ScopeTracker) (p : Piece) (schema : Schema) :
    (t.dispatchToken p.text p.anchor schema).lambdaFirstIdent =
      p.recordsBinder schema t.lambdaFirstIdent := by
  by_cases hws : p.lexeme = .ws
  · rw [dispatchToken_ws hws, Piece.recordsBinder, hws]
  · rw [dispatchToken_eq rfl hws, Piece.recordsBinder]
    change (t.dispatchLexeme p.lexeme p.anchor schema).1.lambdaFirstIdent = _
    cases hlex : p.lexeme with
    | ident text => exact t.lambdaFirstIdent_onIdent text p.anchor schema
    | pipe => exact t.lambdaFirstIdent_onPipe p.anchor
    | close => exact t.lambdaFirstIdent_onClose
    | dot =>
      simp only [dispatchLexeme]
      unfold onDot
      dsimp only
      repeat' split
      all_goals rfl
    | cmp =>
      simp only [dispatchLexeme]
      cases t.lastResolved <;> rfl
    | _ => rfl

theorem lambdaFirstIdent_dispatchAll (t : ScopeTracker) (ps : List Piece) (schema : Schema) :
    (t.dispatchAll ps schema).lambdaFirstIdent =
      ps.foldl (Piece.recordsBinder schema) t.lambdaFirstIdent := by
  induction ps generalizing t with
  | nil => rfl
  | cons p ps ih => rw [dispatchAll_cons, ih, lambdaFirstIdent_dispatchToken]; rfl

end ScopeTracker

end PureCard
