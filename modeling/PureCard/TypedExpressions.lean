/-
PureCard.TypedExpressions — the rules let every well-typed expression
through.

`Ready` ties the tracker to the typing: the pipeline's class is the scope's
element, the columns are on record and every variable in scope stands for
what its type says. `Typed.sound` takes an expression from there, by
induction on its derivation: each of its lexemes is one that its position
admits, and behind it the tracker is as it was (`Kept`) but for the member
it ends in. Lists keep that because a closer takes back what its list has
bound (`kept_of_close`).

Each form of expression has its own kind of ending (`Form.Sound`): a
navigation leaves the class it has reached, an operand the class of its
value, an argument the variable its lambda has bound. `Refs.sound` is the
same for lists that refer to columns.
-/
import PureCard.Passages

namespace PureCard

open Scopes ScopeTracker Item

/-! ## The tracker between expressions -/

/-- The classes the tracker may hold the element to be of. -/
def Elem.Fits : Elem → Option Bytes → Prop
  | .element cls, c => c = some cls
  | .row, c => c = none
  | .other, _ => True

/-- No navigation and no arrow is waiting, and the last name opens no list
of its own kind. -/
structure Idle (t : ScopeTracker) : Prop where
  cursor : t.navCursor = none
  last : t.lastNavClass = none
  receiver : t.pendingArrowReceiver = none
  name : ∀ m, t.lastIdent = some m → m ∉ knownMethods

/-- The tracker is as the types say. -/
structure Ready (schema : Schema) (scope : Scope) (env : Env) (t : ScopeTracker) : Prop where
  grounded : t.Grounded
  element : scope.elem.Fits t.curClass
  tilde : t.sawTildeBracket = false
  refs : t.refStack = []
  columns : ∀ c ∈ scope.columns, c ∈ t.emittedStrings
  vars : ∀ v elem, env v = some elem →
    schema.Plain v ∧ ∃ cls, elem.Fits cls ∧ t.binding v = .element cls

section

variable {schema : Schema} {scope : Scope} {env env' : Env} {t t' : ScopeTracker}

theorem Ready.within (h : Ready schema scope env t) (hw : t.Within t')
    (hvars : ∀ v elem, env' v = some elem →
      schema.Plain v ∧ ∃ cls, elem.Fits cls ∧ t'.binding v = .element cls) :
    Ready schema scope env' t' where
  grounded := hw.grounded h.grounded
  element := by
    have hcls : t'.curClass = t.curClass := congrArg Pipeline.cls hw.pipeline
    rw [hcls]
    exact h.element
  tilde := (congrArg Pipeline.tilde hw.pipeline).trans h.tilde
  refs := (congrArg Footing.ref hw.footing).trans h.refs
  columns := fun c hc => hw.emitted.subset (h.columns c hc)
  vars := hvars

theorem Ready.kept (h : Ready schema scope env t) (hk : t.Kept t') : Ready schema scope env t' := by
  refine h.within hk.within ?_
  intro v elem hv
  have hbinding : t'.binding = t.binding := congrArg Undo.store hk.undo
  rw [hbinding]
  exact h.vars v elem hv

/-- A name that opens no list of its own kind. -/
theorem opens_plain (h : ∀ m, t.lastIdent = some m → m ∉ knownMethods) :
    opensAny establishingMethods t.lastIdent = false ∧ opensAny refMethods t.lastIdent = false ∧
      t.lastIdent ≠ some sourceMethod := by
  cases hlast : t.lastIdent with
  | none => exact ⟨rfl, rfl, by simp⟩
  | some m =>
    have hm := h m hlast
    simp only [knownMethods, List.mem_append, List.mem_cons, not_or] at hm
    refine ⟨?_, ?_, fun heq => hm.1.1 (Option.some.inj heq)⟩
    · simp [opensAny, hm.1.2]
    · simp [opensAny, hm.2]

theorem Idle.behind (h : Idle t) : t.behind = t := by
  rw [ScopeTracker.behind, (opens_plain h.name).1]
  rfl

/-- Inside a list that refers to no column nothing else has changed. -/
theorem Ready.opened (h : Ready schema scope env t)
    (href : opensAny refMethods t.lastIdent = false) : Ready schema scope env t.opened where
  grounded := h.grounded.opened
  element := h.element
  tilde := h.tilde
  refs := by
    change (if _ then _ else _) = []
    rw [href]
    exact h.refs
  columns := h.columns
  vars := h.vars

theorem Idle.opened (h : t.navCursor = none) (hlast : t.lastNavClass = none) : Idle t.opened :=
  ⟨h, hlast, rfl, by simp [ScopeTracker.opened]⟩

end

/-! ### A whole list -/

/-- Behind the closer of a list that was opened at `p` and read up to
`inner`. -/
structure Closed (p inner q : Point) : Prop where
  state : q.state = .afterValue
  stack : q.stack = p.stack
  kept : p.tracker.behind.Kept q.tracker
  emitted : q.tracker.emittedStrings = inner.tracker.emittedStrings
  nav : q.tracker.nav = inner.tracker.nav
  name : q.tracker.lastIdent = inner.tracker.lastIdent
  receiver : q.tracker.pendingArrowReceiver = none
  resolved : q.tracker.lastResolved = none
  compared : q.tracker.cmpPending = none

theorem Closed.idle {p inner q : Point} (h : Closed p inner q) (hinner : Idle inner.tracker) :
    Idle q.tracker := by
  refine ⟨?_, ?_, h.receiver, ?_⟩
  · exact (congrArg Nav.cursor h.nav).trans hinner.cursor
  · exact (congrArg Nav.last h.nav).trans hinner.last
  · rw [h.name]
    exact hinner.name

theorem Goes.list_of {schema : Schema} {m : Bytes} (hm : m ∈ openers) {p inner : Point}
    (hs : p.state ∈ .inIdent :: startStates) (hg : p.tracker.Grounded)
    (hsource : p.tracker.lastIdent = some sourceMethod → p.tracker.depth = 0) {a : List Item}
    (hgoes : Goes schema ⟨.expectValue, frameOf m :: p.stack, p.tracker.opened⟩ a inner)
    (hstate : inner.state ∈ .expectValue :: valuedStates)
    (hstack : inner.stack = frameOf m :: p.stack) (hwithin : p.tracker.opened.Within inner.tracker) :
    ∃ q, Goes schema p (.mark m :: a ++ [.mark (closerText m)]) q ∧ Closed p inner q := by
  have htilde : p.state ≠ .sawTilde := by
    intro heq
    rw [heq] at hs
    revert hs
    decide
  have hopen : Goes schema p [.mark m] ⟨.expectValue, frameOf m :: p.stack, p.tracker.opened⟩ := by
    have h : Goes schema p [.mark m] _ := .opener hm hs
    rwa [dispatch_open hm htilde hsource] at h
  have hclosers : closerText m ∈ closers := by
    have hall : ∀ m ∈ openers, closerText m ∈ closers := by decide
    exact hall m hm
  have hkept := kept_of_close hg hwithin hclosers inner.state schema
  refine ⟨_, (hopen.cons hgoes).append (.closer hm hstate hstack), rfl, rfl, hkept,
    ?_, ?_, ?_, ?_, ?_, ?_⟩
  all_goals
    dsimp only
    rw [dispatch_close hclosers]
  · exact inner.tracker.emittedStrings_onClose
  · exact inner.tracker.nav_onClose
  · exact congrArg Ledger.last inner.tracker.ledger_onClose
  · rw [onClose_eq]

/-! ## Columns -/

/-- Where a list refers to columns. -/
structure Referring (columns : List Bytes) (p : Point) : Prop where
  state : p.state ∈ valueStates
  stack : p.stack ≠ []
  grounded : p.tracker.Grounded
  columns : ∀ c ∈ columns, c ∈ p.tracker.emittedStrings
  idle : Idle p.tracker
  refvar : p.tracker.pendingRefvar = none
  name : p.tracker.lastIdent = none
  compared : p.tracker.cmpPending = none

/-- Behind one of its arguments. -/
structure Referred (p q : Point) : Prop where
  state : q.state ∈ valuedStates
  stack : q.stack = p.stack
  kept : p.tracker.Kept q.tracker
  idle : Idle q.tracker
  refvar : q.tracker.pendingRefvar = none

theorem isIdent_of_row {w : Bytes}
    (h : (w.head?.any isIdentStart && w.tail.all isIdentTail) = true) : IsIdent w := by
  cases w with
  | nil => cases h
  | cons b u => simpa [IsIdent] using h

theorem isIdent_known {m : Bytes} (hm : m ∈ knownMethods) : IsIdent m := by
  have hall : (knownMethods.all fun w => w.head?.any isIdentStart && w.tail.all isIdentTail) = true := by
    decide +kernel
  exact isIdent_of_row (List.all_eq_true.mp hall m hm)

theorem mem_known_of_ref {m : Bytes} (hm : m ∈ refMethods) : m ∈ knownMethods :=
  List.mem_append_right _ hm

/-- A method that refers to columns establishes none. -/
theorem opens_ref {t : ScopeTracker} {f : Bytes} (hf : f ∈ refMethods) (hlast : t.lastIdent = some f) :
    t.behind = t ∧ t.lastIdent ≠ some sourceMethod := by
  have hall : ∀ f ∈ refMethods, f ∉ establishingMethods ∧ f ≠ sourceMethod := by decide +kernel
  obtain ⟨hest, hsource⟩ := hall f hf
  refine ⟨?_, ?_⟩
  · simp [ScopeTracker.behind, opensAny, hlast, hest]
  · rw [hlast]
    exact fun heq => hsource (Option.some.inj heq)

theorem value_expectValue : State.expectValue ∈ valueStates := by decide

theorem value_expectValueReq : State.expectValueReq ∈ valueStates := by decide

theorem valued_afterValue : State.afterValue ∈ valuedStates := by decide

/-- In a list that refers to columns. -/
theorem referring_opened {columns : List Bytes} {t : ScopeTracker} (f : Frame) (st : List Frame)
    (hg : t.Grounded) (hcolumns : ∀ c ∈ columns, c ∈ t.emittedStrings)
    (hcursor : t.navCursor = none) (hlast : t.lastNavClass = none)
    (hrefvar : t.pendingRefvar = none) : Referring columns ⟨.expectValue, f :: st, t.opened⟩ :=
  ⟨value_expectValue, by simp, hg.opened, hcolumns, .opened hcursor hlast, hrefvar, rfl, rfl⟩

section

variable {schema : Schema} {columns : List Bytes}

/-- A list of references, behind the name `f` or where a value begins. -/
theorem Referred.list {m : Bytes} (hm : m ∈ openers) {p q : Point} {a : List Item}
    (hs : p.state ∈ .inIdent :: startStates) (hg : p.tracker.Grounded)
    (hbehind : p.tracker.behind = p.tracker) (hsource : p.tracker.lastIdent ≠ some sourceMethod)
    (hgoes : Goes schema ⟨.expectValue, frameOf m :: p.stack, p.tracker.opened⟩ a q)
    (hq : Referred ⟨.expectValue, frameOf m :: p.stack, p.tracker.opened⟩ q) :
    ∃ r, Goes schema p (.mark m :: a ++ [.mark (closerText m)]) r ∧ r.state = .afterValue ∧
      Referred p r ∧ r.tracker.cmpPending = none ∧ r.tracker.lastResolved = none := by
  obtain ⟨r, hr, hclosed⟩ := Goes.list_of hm hs hg (fun h => absurd h hsource) hgoes
    (List.mem_cons_of_mem _ hq.state) hq.stack hq.kept.within
  have hkept := hclosed.kept
  rw [hbehind] at hkept
  refine ⟨r, hr, hclosed.state, ⟨?_, hclosed.stack, hkept, hclosed.idle hq.idle, ?_⟩, hclosed.compared,
    hclosed.resolved⟩
  · rw [hclosed.state]
    exact valued_afterValue
  · exact (congrArg Nav.refvar hclosed.nav).trans hq.refvar

/-- **References go through.** -/
theorem Refs.sound {a : List Item} (h : Refs schema columns a) {p : Point}
    (hp : Referring columns p) : ∃ q, Goes schema p a q ∧ Referred p q := by
  induction h generalizing p with
  | @column c hc =>
    have hadm : Admits schema p.tracker p.state (quote c) :=
      admits_column hp.state hp.compared (.inr (hp.columns c hc))
    exact ⟨_, .quoted hp.state hadm, (by decide : State.inStrLit true ∈ valuedStates), rfl,
      kept_quoted .., ⟨hp.idle.cursor, hp.idle.last, hp.idle.receiver, by simp [quoted, cleared]⟩,
      hp.refvar⟩
  | @constant d e hd he =>
    obtain ⟨cs, hfirst⟩ := Goes.leading hd.ident hd.noClass hp.state
    have hreceiver : (p.tracker.leading d cs).receiver = none := by
      simp [receiver, ScopeTracker.leading, named, hp.refvar, hp.idle.cursor]
    have hrow : (p.tracker.leading d cs).receiverIsRow = false := by
      simp [receiverIsRow, ScopeTracker.leading, named, hp.refvar]
    have hdot : Goes schema ⟨.inIdent, p.stack, p.tracker.leading d cs⟩ [dot] _ :=
      .dot (by simp [primaryStates])
    have hlast : Goes schema ⟨.afterDot, p.stack, (p.tracker.leading d cs).dotted⟩ [.word e] _ :=
      .free he.ident he.noClass rfl hrow hreceiver
    refine ⟨_, hfirst.cons (hdot.cons hlast), (by decide : State.inIdent ∈ valuedStates), rfl, ?_, ?_, rfl⟩
    · exact (kept_leading ..).trans ((kept_dotted _).trans (kept_named ..))
    · exact ⟨hp.idle.cursor, hp.idle.last, hp.idle.receiver, by simp [named, he.unknown]⟩
  | @apply f a hf hclass _ ih =>
    obtain ⟨cs, hname⟩ := Goes.leading (isIdent_known (mem_known_of_ref hf)) hclass hp.state
    have hkept := kept_leading p.tracker f cs
    have hground := hkept.within.grounded hp.grounded
    obtain ⟨hbehind, hsource⟩ := opens_ref (t := p.tracker.leading f cs) hf rfl
    obtain ⟨q, hgoes, hq⟩ := ih (referring_opened (frameOf [Byte.lparen]) p.stack hground
      (fun c hc => hkept.emitted.subset (hp.columns c hc)) hp.idle.cursor hp.idle.last hp.refvar)
    obtain ⟨r, hr, -, hrefers, -⟩ := Referred.list (p := ⟨.inIdent, p.stack, p.tracker.leading f cs⟩)
      (m := [Byte.lparen]) (by decide) (by simp) hground hbehind hsource hgoes hq
    exact ⟨r, hname.cons hr, hrefers.state, hrefers.stack, hkept.trans hrefers.kept, hrefers.idle,
      hrefers.refvar⟩
  | @list a _ ih =>
    obtain ⟨q, hgoes, hq⟩ := ih (referring_opened (frameOf [Byte.lbracket]) p.stack hp.grounded
      hp.columns hp.idle.cursor hp.idle.last hp.refvar)
    have hs : p.state ∈ .inIdent :: startStates := List.mem_cons_of_mem _ (start_of_value hp.state)
    obtain ⟨r, hr, -, hrefers, -⟩ :=
      hq.list (by decide) hs hp.grounded hp.idle.behind (by simp [hp.name]) hgoes
    exact ⟨r, hr, hrefers⟩
  | @more a b _ _ iha ihb =>
    obtain ⟨q, hgoes, hq⟩ := iha hp
    have hstack : q.stack ≠ [] := by
      rw [hq.stack]
      exact hp.stack
    have hparted := hq.kept.trans (kept_parted q.tracker)
    obtain ⟨r, hrest, hr⟩ := ihb (p := ⟨.expectValueReq, q.stack, q.tracker.parted⟩)
      ⟨value_expectValueReq, hstack, hparted.within.grounded hp.grounded,
        fun c hc => hparted.emitted.subset (hp.columns c hc),
        ⟨hq.idle.cursor, hq.idle.last, hq.idle.receiver, by simp [parted, cleared]⟩, hq.refvar, rfl, rfl⟩
    exact ⟨r, hgoes.append ((Goes.comma hq.state hstack).cons hrest), hr.state,
      hr.stack.trans hq.stack, hparted.trans hr.kept, hr.idle, hr.refvar⟩
  | @lead w a hw _ ih =>
    obtain ⟨s', hs', hlead⟩ := Goes.lead hw (start_of_value hp.state)
    obtain ⟨q, hgoes, hq⟩ := ih (p := ⟨s', p.stack, p.tracker⟩)
      ⟨hs', hp.stack, hp.grounded, hp.columns, hp.idle, hp.refvar, hp.name, hp.compared⟩
    exact ⟨q, hlead.cons hgoes, hq.state, hq.stack, hq.kept, hq.idle, hq.refvar⟩
  | @pad w a _ hw ih =>
    obtain ⟨q, hgoes, hq⟩ := ih hp
    exact ⟨_, hgoes.append (.pad hw hq.state), valued_afterValue, hq.stack, hq.kept, hq.idle, hq.refvar⟩

end

/-! ## Expressions -/

/-- Where a value may begin. -/
structure Begins (schema : Schema) (scope : Scope) (env : Env) (p : Point) : Prop where
  state : p.state ∈ startStates
  ready : Ready schema scope env p.tracker
  idle : Idle p.tracker

/-- Behind an expression that began at `p`. -/
structure Ends (p q : Point) (states : List State) : Prop where
  state : q.state ∈ states
  stack : q.stack = p.stack
  kept : p.tracker.Kept q.tracker
  idle : Idle q.tracker
  compared : q.tracker.cmpPending = none

/-- What the tracker holds of the member just read. -/
def Reached.Held : Reached → ScopeTracker → Prop
  | .element cls, t =>
    t.navCursor = some cls ∧ t.lastNavClass = some cls ∧ t.lastResolved = none
  | .value c, t => t.navCursor = none ∧ t.lastNavClass = none ∧ t.lastResolved = c

/-- Behind a navigation that began at `p`. -/
structure Navigates (reached : Reached) (p q : Point) : Prop where
  state : q.state = .inIdent
  stack : q.stack = p.stack
  kept : p.tracker.Kept q.tracker
  held : reached.Held q.tracker
  refvar : q.tracker.pendingRefvar = none
  receiver : q.tracker.pendingArrowReceiver = none
  name : ∀ m, q.tracker.lastIdent = some m → m ∉ knownMethods
  compared : q.tracker.cmpPending = none

/-- The value an expression has left is of class `c`, if it is known. -/
def Resolves (c : Option TypeClass) (t : ScopeTracker) : Prop :=
  ∀ tc, t.lastResolved = some tc → c = some tc

/-- In a list whose lambdas are over `recv`, at an argument. -/
structure Lists (schema : Schema) (scope : Scope) (env : Env) (recv : Elem) (p : Point) : Prop where
  state : p.state ∈ valueStates
  stack : p.stack ≠ []
  ready : Ready schema scope env p.tracker
  idle : Idle p.tracker
  fits : recv.Fits p.tracker.parenReceiver.head?.join
  leading : p.tracker.lambdaFirstIdent = none
  name : p.tracker.lastIdent = none
  compared : p.tracker.cmpPending = none

/-- Behind arguments that began at `p`. -/
structure Listed (p q : Point) (states : List State) : Prop where
  state : q.state ∈ states
  stack : q.stack = p.stack
  within : p.tracker.Within q.tracker
  idle : Idle q.tracker

/-- What its form says of an expression: the rules let it through, and it
leaves what it should. -/
def Form.Sound (schema : Schema) (scope : Scope) (env : Env) : Form → List Item → Prop
  | .nav reached, e => ∀ p, Begins schema scope env p → ∃ q, Goes schema p e q ∧ Navigates reached p q
  | .primary c, e => ∀ p, Begins schema scope env p →
      ∃ q, Goes schema p e q ∧ Ends p q primaryStates ∧ Resolves c q.tracker
  | .operand c, e => ∀ p, Begins schema scope env p →
      (∀ tc, p.tracker.cmpPending = some tc → c = some tc) →
      ∃ q, Goes schema p e q ∧ Ends p q valuedStates ∧ Resolves c q.tracker
  | .cond, e => ∀ p, Begins schema scope env p → p.tracker.cmpPending = none →
      ∃ q, Goes schema p e q ∧ Ends p q valuedStates
  | .args recv, a => ∀ p, Lists schema scope env recv p → p.state = .expectValue →
      ∃ q, Goes schema p a q ∧ Listed p q (.expectValue :: valuedStates)
  | .list recv, a => ∀ p, Lists schema scope env recv p →
      ∃ q, Goes schema p a q ∧ Listed p q valuedStates
  | .arg recv bound, a => ∀ p, Lists schema scope env recv p →
      ∃ q, Goes schema p a q ∧ Listed p q valuedStates ∧
        ∀ v, some v ≠ bound → q.tracker.binding v = p.tracker.binding v

section

variable {schema : Schema} {scope : Scope} {env : Env}

/-! ### Navigations -/

/-- A member of the class behind the dot. -/
theorem Goes.member {p : Point} {w base : Bytes} {reached : Reached} (hs : p.state = .afterDot)
    (hw : schema.Plain w) (hcolumn : p.tracker.dotIsColumn = false)
    (hbase : p.tracker.dotBase = some base) (hlead : schema.Leads base w reached) :
    ∃ t, Goes schema p [.word w] ⟨.inIdent, p.stack, t⟩ ∧ p.tracker.Kept t ∧ reached.Held t ∧
      t.pendingRefvar = p.tracker.pendingRefvar ∧
      t.pendingArrowReceiver = p.tracker.pendingArrowReceiver ∧ t.lastIdent = some w ∧
      t.cmpPending = none := by
  obtain ⟨r, hr, hreached⟩ := hlead
  have hmem : w ∈ schema.memberNames base := by
    rw [← Schema.isSome_resolve, hr]
    rfl
  have hgoes : Goes schema p [.word w] _ := .name hw.ident (by rw [hs]; decide)
    (hs ▸ admits_member hcolumn (.inr ⟨base, hbase, hmem⟩))
  rw [hs, dispatch_member p.tracker hw.ident.classify_eq hw.noClass hcolumn hbase hr] at hgoes
  cases r with
  | cls path mult =>
    cases hreached
    exact ⟨_, hgoes, ⟨rfl, rfl, rfl, List.prefix_rfl⟩, ⟨rfl, rfl, rfl⟩, rfl, rfl, rfl, rfl⟩
  | primitive prim mult =>
    cases hreached
    exact ⟨_, hgoes, ⟨rfl, rfl, rfl, List.prefix_rfl⟩, ⟨rfl, rfl, rfl⟩, rfl, rfl, rfl, rfl⟩
  | enum path mult =>
    cases hreached
    exact ⟨_, hgoes, ⟨rfl, rfl, rfl, List.prefix_rfl⟩, ⟨rfl, rfl, rfl⟩, rfl, rfl, rfl, rfl⟩

/-- A variable in scope, behind its `$`. -/
theorem Begins.variable {p : Point} {v : Bytes} {elem : Elem} (hp : Begins schema scope env p)
    (hv : env v = some elem) : Goes schema p [dollar, .word v]
      ⟨.inIdent, p.stack, p.tracker.cleared.referring v⟩ := by
  obtain ⟨hplain, -⟩ := hp.ready.vars v elem hv
  exact (Goes.dollar hp.state).cons (.variable hplain.ident hplain.noClass rfl)

/-- What the dot behind it navigates from. -/
theorem receiver_var {t : ScopeTracker} {v : Bytes} {elem : Elem} (h : Ready schema scope env t)
    (hv : env v = some elem) : (t.cleared.referring v).receiverIsRow = false ∧
      elem.Fits (t.cleared.referring v).receiver := by
  obtain ⟨-, cls, hfits, hbinding⟩ := h.vars v elem hv
  have hrow : v ∉ t.relationRowVars := by
    have h := congrArg Binding.row hbinding
    simpa [binding, Binding.element] using h
  have hclass : t.classOf v = cls := by
    rw [classOf_eq, hbinding]
    rfl
  have hreceiver : (t.cleared.referring v).receiver = t.classOf v := if_neg hrow
  refine ⟨?_, ?_⟩
  · simp [receiverIsRow, referring, named, cleared, hrow]
  · rw [hreceiver, hclass]
    exact hfits

theorem Sound.step {v w cls : Bytes} {reached : Reached} (hv : env v = some (.element cls))
    (hw : schema.Plain w) (hlead : schema.Leads cls w reached) :
    Form.Sound schema scope env (.nav reached) [dollar, .word v, dot, .word w] := by
  intro p hp
  have hvar := hp.variable hv
  obtain ⟨hrow, hreceiver⟩ := receiver_var hp.ready hv
  have hdot : Goes schema ⟨.inIdent, p.stack, p.tracker.cleared.referring v⟩ [dot] _ :=
    .dot (by simp [primaryStates])
  obtain ⟨t, hmember, hkept, hheld, hrefvar, harrow, hname, hcompared⟩ :=
    Goes.member (p := ⟨.afterDot, p.stack, (p.tracker.cleared.referring v).dotted⟩) rfl hw hrow
      hreceiver hlead
  refine ⟨⟨.inIdent, p.stack, t⟩, hvar.append (hdot.cons hmember), rfl, rfl, ?_, hheld, hrefvar,
    harrow.trans hp.idle.receiver, ?_, hcompared⟩
  · exact (kept_cleared _).trans ((kept_referring ..).trans ((kept_dotted _).trans hkept))
  · simp [hname, hw.unknown]

theorem Sound.chain {e : List Item} {w cls : Bytes} {reached : Reached}
    (he : Form.Sound schema scope env (.nav (.element cls)) e) (hw : schema.Plain w)
    (hlead : schema.Leads cls w reached) :
    Form.Sound schema scope env (.nav reached) (e ++ [dot, .word w]) := by
  intro p hp
  obtain ⟨q, hgoes, hq⟩ := he p hp
  have hdot : Goes schema q [dot] _ := .dot (by simp [hq.state, primaryStates])
  have hreceiver : q.tracker.receiver = some cls := by simp [receiver, hq.refvar, hq.held.1]
  have hrow : q.tracker.receiverIsRow = false := by simp [receiverIsRow, hq.refvar]
  obtain ⟨t, hmember, hkept, hheld, hrefvar, harrow, hname, hcompared⟩ :=
    Goes.member (p := ⟨.afterDot, q.stack, q.tracker.dotted⟩) rfl hw hrow hreceiver hlead
  refine ⟨⟨.inIdent, q.stack, t⟩, hgoes.append (hdot.cons hmember), rfl, hq.stack, ?_, hheld, hrefvar,
    harrow.trans hq.receiver, ?_, hcompared⟩
  · exact hq.kept.trans ((kept_dotted _).trans hkept)
  · simp [hname, hw.unknown]

/-! ### Names, lists and calls -/

theorem Begins.name {p : Point} (hp : Begins schema scope env p) {w : Bytes} (hw : schema.Plain w) :
    ∃ t, Goes schema p [.word w] ⟨.inIdent, p.stack, t⟩ ∧ Ends p ⟨.inIdent, p.stack, t⟩ primaryStates ∧
      t.lastResolved = none := by
  obtain ⟨t, hgoes, ht⟩ := Goes.plain hw.ident hw.noClass hp.state
  refine ⟨t, hgoes, ?_⟩
  rcases ht with rfl | ⟨cs, rfl⟩
  · exact ⟨⟨by simp [primaryStates], rfl, kept_named .., ⟨hp.idle.cursor, hp.idle.last, hp.idle.receiver,
      by simp [named, hw.unknown]⟩, rfl⟩, rfl⟩
  · exact ⟨⟨by simp [primaryStates], rfl, kept_leading .., ⟨hp.idle.cursor, hp.idle.last,
      hp.idle.receiver, by simp [ScopeTracker.leading, named, hw.unknown]⟩, rfl⟩, rfl⟩

/-- In a list that refers to no column. -/
theorem lists_opened {t : ScopeTracker} (h : Ready schema scope env t)
    (href : opensAny refMethods t.lastIdent = false) (hcursor : t.navCursor = none)
    (hlast : t.lastNavClass = none) {recv : Elem}
    (hfits : recv.Fits (t.pendingArrowReceiver.getD t.curClass)) (f : Frame) (st : List Frame) :
    Lists schema scope env recv ⟨.expectValue, f :: st, t.opened⟩ :=
  ⟨value_expectValue, by simp, h.opened href, .opened hcursor hlast, hfits, rfl, rfl, rfl⟩

/-- A list behind a plain name, or where a value begins. -/
theorem Goes.enclosed {m : Bytes} (hm : m ∈ openers) {p inner : Point}
    (hs : p.state ∈ .inIdent :: startStates) (hg : p.tracker.Grounded)
    (hname : ∀ m, p.tracker.lastIdent = some m → m ∉ knownMethods) {a : List Item}
    (hgoes : Goes schema ⟨.expectValue, frameOf m :: p.stack, p.tracker.opened⟩ a inner)
    (hinner : Listed ⟨.expectValue, frameOf m :: p.stack, p.tracker.opened⟩ inner
      (.expectValue :: valuedStates)) :
    ∃ q, Goes schema p (.mark m :: a ++ [.mark (closerText m)]) q ∧ Ends p q primaryStates ∧
      q.tracker.lastResolved = none := by
  obtain ⟨hest, -, hsource⟩ := opens_plain hname
  obtain ⟨q, hq, hclosed⟩ := Goes.list_of hm hs hg (fun h => absurd h hsource) hgoes hinner.state
    hinner.stack hinner.within
  have hkept := hclosed.kept
  rw [ScopeTracker.behind, hest] at hkept
  exact ⟨q, hq, ⟨by simp [hclosed.state, primaryStates], hclosed.stack, hkept, hclosed.idle hinner.idle,
    hclosed.compared⟩, hclosed.resolved⟩

theorem Ends.listed {p q : Point} {states states' : List State} (h : Ends p q states)
    (hsub : states ⊆ states') : Listed p q states' :=
  ⟨hsub h.state, h.stack, h.kept.within, h.idle⟩

theorem Ends.trans {p q r : Point} {states states' : List State} (h : Ends p q states)
    (h' : Ends q r states') : Ends p r states' :=
  ⟨h'.state, h'.stack.trans h.stack, h.kept.trans h'.kept, h'.idle, h'.compared⟩

theorem Ends.ready {p q : Point} {states : List State} (h : Ends p q states)
    (hready : Ready schema scope env p.tracker) : Ready schema scope env q.tracker :=
  hready.kept h.kept

/-- A method call behind a primary. -/
theorem Goes.call {p : Point} (hs : p.state ∈ primaryStates) (hready : Ready schema scope env p.tracker)
    {m : Bytes} (hm : schema.Plain m) {recv : Elem}
    (hfits : recv.Fits (p.tracker.lastNavClass.or p.tracker.curClass)) {a : List Item}
    (ha : Form.Sound schema scope env (.args recv) a) :
    ∃ q, Goes schema p ([Item.arrow, .word m] ++ parens a) q ∧ Ends p q primaryStates ∧
      q.tracker.lastResolved = none := by
  have harrow : Goes schema p [Item.arrow] _ := .arrow hs
  have hmethod : Goes schema ⟨.afterArrow, p.stack, p.tracker.arrowed⟩ [.word m] _ :=
    .method hm.ident hm.noClass rfl
  have hkept : p.tracker.Kept (p.tracker.arrowed.named m) := (kept_arrowed _).trans (kept_named ..)
  have hready' := hready.kept hkept
  have hname : ∀ m', (p.tracker.arrowed.named m).lastIdent = some m' → m' ∉ knownMethods := by
    simp [named, hm.unknown]
  obtain ⟨inner, hgoes, hinner⟩ := ha _ (lists_opened hready' (opens_plain hname).2.1 rfl rfl
    hfits (frameOf [Byte.lparen]) p.stack) rfl
  obtain ⟨q, hlist, hq, hresolved⟩ := Goes.enclosed (m := [Byte.lparen]) (by decide)
    (p := ⟨.inIdent, p.stack, p.tracker.arrowed.named m⟩) (by simp) hready'.grounded hname hgoes hinner
  exact ⟨q, harrow.cons (hmethod.cons hlist), ⟨hq.state, hq.stack, hkept.trans hq.kept, hq.idle,
    hq.compared⟩, hresolved⟩

/-! ### Primaries -/

theorem Resolves.of_none {c : Option TypeClass} {t : ScopeTracker} (h : t.lastResolved = none) :
    Resolves c t := by
  intro tc htc
  rw [h] at htc
  cases htc

theorem Sound.navValue {e : List Item} {c : Option TypeClass}
    (he : Form.Sound schema scope env (.nav (.value c)) e) :
    Form.Sound schema scope env (.primary c) e := by
  intro p hp
  obtain ⟨q, hgoes, hq⟩ := he p hp
  obtain ⟨hcursor, hlast, hresolved⟩ := hq.held
  refine ⟨q, hgoes, ⟨by simp [hq.state, primaryStates], hq.stack, hq.kept,
    ⟨hcursor, hlast, hq.receiver, hq.name⟩, hq.compared⟩, fun tc htc => ?_⟩
  rw [← hresolved]
  exact htc

theorem Sound.var {v : Bytes} {elem : Elem} (hv : env v = some elem) :
    Form.Sound schema scope env (.primary none) [dollar, .word v] := by
  intro p hp
  obtain ⟨hplain, -⟩ := hp.ready.vars v elem hv
  refine ⟨_, hp.variable hv, ⟨by simp [primaryStates], rfl, (kept_cleared _).trans (kept_referring ..),
    ⟨hp.idle.cursor, hp.idle.last, hp.idle.receiver, ?_⟩, rfl⟩, .of_none rfl⟩
  simp [referring, named, hplain.unknown]

theorem Sound.constant {w : Bytes} (hw : schema.Plain w) (c : Option TypeClass) :
    Form.Sound schema scope env (.primary c) [.word w] := by
  intro p hp
  obtain ⟨t, hgoes, hends, hresolved⟩ := hp.name hw
  exact ⟨_, hgoes, hends, .of_none hresolved⟩

theorem Sound.column {v g : Bytes} {a : List Item} (hv : env v = some .row) (hg : g ∈ refMethods)
    (hclass : schema.hasClass g = false) (ha : Refs schema scope.columns a) (c : Option TypeClass) :
    Form.Sound schema scope env (.primary c) ([dollar, .word v, dot, .word g] ++ parens a) := by
  intro p hp
  have hvar := hp.variable hv
  obtain ⟨hrow, hreceiver⟩ := receiver_var hp.ready hv
  have hdot : Goes schema ⟨.inIdent, p.stack, p.tracker.cleared.referring v⟩ [dot] _ :=
    .dot (by simp [primaryStates])
  have hgetter : Goes schema ⟨.afterDot, p.stack, (p.tracker.cleared.referring v).dotted⟩ [.word g] _ :=
    .free (isIdent_known (mem_known_of_ref hg)) hclass rfl hrow hreceiver
  have hkept : p.tracker.Kept ((p.tracker.cleared.referring v).dotted.named g) :=
    (kept_cleared _).trans ((kept_referring ..).trans ((kept_dotted _).trans (kept_named ..)))
  have hready := hp.ready.kept hkept
  obtain ⟨hbehind, hsource⟩ :=
    opens_ref (t := (p.tracker.cleared.referring v).dotted.named g) hg rfl
  obtain ⟨inner, hgoes, hinner⟩ := ha.sound (referring_opened (frameOf [Byte.lparen]) p.stack
    hready.grounded hready.columns hp.idle.cursor hp.idle.last rfl)
  obtain ⟨q, hlist, hstate, hrefers, hcompared, hresolved⟩ := Referred.list (m := [Byte.lparen])
    (p := ⟨.inIdent, p.stack, (p.tracker.cleared.referring v).dotted.named g⟩) (by decide) (by simp)
    hready.grounded hbehind hsource hgoes hinner
  exact ⟨q, (hvar.append (hdot.cons hgetter)).append hlist, ⟨by simp [hstate, primaryStates],
    hrefers.stack, hkept.trans hrefers.kept, hrefers.idle, hcompared⟩, .of_none hresolved⟩

theorem Sound.call {e a : List Item} {m : Bytes} {c : Option TypeClass}
    (he : Form.Sound schema scope env (.primary c) e) (hm : schema.Plain m)
    (ha : Form.Sound schema scope env (.args .other) a) (result : Option TypeClass) :
    Form.Sound schema scope env (.primary result) (e ++ [arrow, .word m] ++ parens a) := by
  intro p hp
  obtain ⟨q, hgoes, hq, -⟩ := he p hp
  have hfits : Elem.other.Fits (q.tracker.lastNavClass.or q.tracker.curClass) := trivial
  obtain ⟨r, hcall, hr, hresolved⟩ := Goes.call hq.state (hq.ready hp.ready) hm hfits ha
  rw [List.append_assoc]
  exact ⟨r, hgoes.append hcall, hq.trans hr, .of_none hresolved⟩

theorem Sound.navCall {e a : List Item} {m cls : Bytes}
    (he : Form.Sound schema scope env (.nav (.element cls)) e) (hm : schema.Plain m)
    (ha : Form.Sound schema scope env (.args (.element cls)) a) (result : Option TypeClass) :
    Form.Sound schema scope env (.primary result) (e ++ [arrow, .word m] ++ parens a) := by
  intro p hp
  obtain ⟨q, hgoes, hq⟩ := he p hp
  have hfits : (Elem.element cls).Fits (q.tracker.lastNavClass.or q.tracker.curClass) := by
    rw [hq.held.2.1]
    rfl
  obtain ⟨r, hcall, hr, hresolved⟩ := Goes.call (by simp [hq.state, primaryStates])
    (hp.ready.kept hq.kept) hm hfits ha
  rw [List.append_assoc]
  exact ⟨r, hgoes.append hcall, ⟨hr.state, hr.stack.trans hq.stack, hq.kept.trans hr.kept, hr.idle,
    hr.compared⟩, .of_none hresolved⟩

theorem Sound.apply {f : Bytes} {a : List Item} (hf : schema.Plain f)
    (ha : Form.Sound schema scope env (.args scope.elem) a) (result : Option TypeClass) :
    Form.Sound schema scope env (.primary result) (.word f :: parens a) := by
  intro p hp
  obtain ⟨t, hname, hends, -⟩ := hp.name hf
  have hready := hends.ready hp.ready
  have hfits : scope.elem.Fits (t.pendingArrowReceiver.getD t.curClass) := by
    rw [hends.idle.receiver]
    exact hready.element
  obtain ⟨inner, hgoes, hinner⟩ := ha _ (lists_opened hready (opens_plain hends.idle.name).2.1
    hends.idle.cursor hends.idle.last hfits (frameOf [Byte.lparen]) p.stack) rfl
  obtain ⟨q, hlist, hq, hresolved⟩ := Goes.enclosed (m := [Byte.lparen]) (p := ⟨.inIdent, p.stack, t⟩)
    (by decide) (by simp) hready.grounded hends.idle.name hgoes hinner
  exact ⟨q, hname.cons hlist, hends.trans hq, .of_none hresolved⟩

/-- An expression in parentheses. -/
theorem Begins.group {p : Point} (hp : Begins schema scope env p) {e : List Item}
    (he : ∃ inner,
      Goes schema ⟨.expectValue, frameOf [Byte.lparen] :: p.stack, p.tracker.opened⟩ e inner ∧
      Ends ⟨.expectValue, frameOf [Byte.lparen] :: p.stack, p.tracker.opened⟩ inner valuedStates)
    (c : Option TypeClass) :
    ∃ q, Goes schema p (parens e) q ∧ Ends p q primaryStates ∧ Resolves c q.tracker := by
  obtain ⟨inner, hgoes, hinner⟩ := he
  obtain ⟨q, hlist, hq, hresolved⟩ := Goes.enclosed (m := [Byte.lparen]) (by decide)
    (List.mem_cons_of_mem _ hp.state) hp.ready.grounded hp.idle.name hgoes
    (hinner.listed (List.subset_cons_self ..))
  exact ⟨q, hlist, hq, .of_none hresolved⟩

theorem Begins.opened {p : Point} (hp : Begins schema scope env p) :
    Begins schema scope env ⟨.expectValue, frameOf [Byte.lparen] :: p.stack, p.tracker.opened⟩ :=
  ⟨start_of_value value_expectValue, hp.ready.opened (opens_plain hp.idle.name).2.1,
    .opened hp.idle.cursor hp.idle.last⟩

theorem Sound.group {e : List Item} (he : Form.Sound schema scope env .cond e)
    (c : Option TypeClass) : Form.Sound schema scope env (.primary c) (parens e) := by
  intro p hp
  exact hp.group (he _ hp.opened rfl) c

theorem Sound.groupOperand {e : List Item} {c : Option TypeClass}
    (he : Form.Sound schema scope env (.operand c) e) :
    Form.Sound schema scope env (.primary c) (parens e) := by
  intro p hp
  obtain ⟨inner, hgoes, hinner, -⟩ := he _ hp.opened (fun tc h => by cases h)
  exact hp.group ⟨inner, hgoes, hinner⟩ c

/-- Whitespace behind a value changes nothing. -/
theorem Ends.pad {p q : Point} {w : Bytes} (h : Ends p q valuedStates) (hw : IsBlank w) :
    Goes schema q [.blank w] ⟨.afterValue, q.stack, q.tracker⟩ ∧
      Ends p ⟨.afterValue, q.stack, q.tracker⟩ primaryStates :=
  ⟨.pad hw h.state, by simp [primaryStates], h.stack, h.kept, h.idle, h.compared⟩

theorem Ends.valued {p q : Point} (h : Ends p q primaryStates) : Ends p q valuedStates :=
  ⟨valued_of_primary h.state, h.stack, h.kept, h.idle, h.compared⟩

/-- Whitespace in front of a value changes nothing. -/
theorem Begins.lead {p : Point} {w : Bytes} (hp : Begins schema scope env p) (hw : IsBlank w) :
    ∃ s ∈ valueStates, Goes schema p [.blank w] ⟨s, p.stack, p.tracker⟩ ∧
      Begins schema scope env ⟨s, p.stack, p.tracker⟩ := by
  obtain ⟨s, hs, hgoes⟩ := Goes.lead hw hp.state
  exact ⟨s, hs, hgoes, start_of_value hs, hp.ready, hp.idle⟩

theorem Ends.of_lead {p q : Point} {s : State} {states : List State}
    (h : Ends ⟨s, p.stack, p.tracker⟩ q states) : Ends p q states :=
  ⟨h.state, h.stack, h.kept, h.idle, h.compared⟩

/-! ### Operands and conditions -/

theorem Sound.literal {tc : TypeClass} {w : Bytes} (hw : IsLiteral tc w) :
    Form.Sound schema scope env (.operand (some tc)) [.word w] := by
  intro p hp hcmp
  have hadm : Admits schema p.tracker p.state w :=
    admits_literal hw hp.state (fun lhs h => (Option.some.inj (hcmp lhs h)).symm) hp.ready.refs
  obtain ⟨s, hs, hgoes⟩ := Goes.literal hw hp.state hadm
  refine ⟨_, hgoes, ?_⟩
  have hdispatch : p.tracker.dispatchToken w p.state schema = p.tracker.cleared ∨
      ∃ content, p.tracker.dispatchToken w p.state schema = p.tracker.quoted content :=
    dispatch_literal hw p.tracker p.state
  rcases hdispatch with ht | ⟨content, ht⟩
  · rw [ht]
    exact ⟨⟨hs, rfl, kept_cleared _, ⟨hp.idle.cursor, hp.idle.last, hp.idle.receiver,
      by simp [cleared]⟩, rfl⟩, .of_none rfl⟩
  · rw [ht]
    exact ⟨⟨hs, rfl, kept_quoted .., ⟨hp.idle.cursor, hp.idle.last, hp.idle.receiver,
      by simp [quoted, cleared]⟩, rfl⟩, .of_none rfl⟩

/-- Behind an operator that is no comparison the next operand begins. -/
theorem Ends.operation {p q : Point} {op : Bytes} (h : Ends p q valuedStates)
    (hp : Begins schema scope env p) (hop : op ∈ arithmeticOps ++ logicalOps) :
    ∃ s, Goes schema q [.mark op] ⟨s, q.stack, q.tracker.cleared⟩ ∧
      Begins schema scope env ⟨s, q.stack, q.tracker.cleared⟩ ∧
      p.tracker.Kept q.tracker.cleared := by
  obtain ⟨s, hs, hgoes⟩ := Goes.operation hop h.state
  have hkept := h.kept.trans (kept_cleared q.tracker)
  exact ⟨s, hgoes, ⟨hs, hp.ready.kept hkept, ⟨h.idle.cursor, h.idle.last, h.idle.receiver,
    by simp [cleared]⟩⟩, hkept⟩

theorem Ends.behind {p q r : Point} {s : State} {t : ScopeTracker} {states states' : List State}
    (h : Ends p q states) (hkept : p.tracker.Kept t) (h' : Ends ⟨s, q.stack, t⟩ r states') :
    Ends p r states' :=
  ⟨h'.state, h'.stack.trans h.stack, hkept.trans h'.kept, h'.idle, h'.compared⟩

theorem Sound.arith {a b : List Item} {op : Bytes} {c : Option TypeClass}
    (ha : Form.Sound schema scope env (.operand c) a) (hop : op ∈ arithmeticOps)
    (hb : Form.Sound schema scope env (.operand c) b) :
    Form.Sound schema scope env (.operand c) (a ++ .mark op :: b) := by
  intro p hp hcmp
  obtain ⟨q, hleft, hq, -⟩ := ha p hp hcmp
  obtain ⟨s, hmark, hbegins, hkept⟩ := hq.operation hp (List.mem_append_left _ hop)
  obtain ⟨r, hright, hr, hresolves⟩ := hb _ hbegins (fun tc h => by cases h)
  exact ⟨r, hleft.append (hmark.cons hright), hq.behind hkept hr, hresolves⟩

theorem Sound.compare {a b : List Item} {op : Bytes} {c d : Option TypeClass}
    (ha : Form.Sound schema scope env (.operand c) a) (hop : op ∈ comparisonOps)
    (hcd : ∀ tc, c = some tc → d = some tc) (hb : Form.Sound schema scope env (.operand d) b) :
    Form.Sound schema scope env .cond (a ++ .mark op :: b) := by
  intro p hp hcmp
  obtain ⟨q, hleft, hq, hresolves⟩ := ha p hp (fun tc h => by rw [hcmp] at h; cases h)
  obtain ⟨s, hs, hmark⟩ : ∃ s ∈ startStates,
      Goes schema q [.mark op] ⟨s, q.stack, q.tracker.comparing⟩ := Goes.comparison hop hq.state
  have hkept := hq.kept.trans (kept_comparing q.tracker)
  have hbegins : Begins schema scope env ⟨s, q.stack, q.tracker.comparing⟩ :=
    ⟨hs, hp.ready.kept hkept, hq.idle.cursor, hq.idle.last, hq.idle.receiver, hq.idle.name⟩
  -- the rule waits for the class of the operand just read
  have hwaits : ∀ lhs, q.tracker.comparing.cmpPending = some lhs → d = some lhs := by
    intro lhs hlhs
    simp only [comparing, hq.compared, Option.or_none] at hlhs
    exact hcd lhs (hresolves lhs hlhs)
  obtain ⟨r, hright, hr, -⟩ := hb _ hbegins hwaits
  exact ⟨r, hleft.append (hmark.cons hright), hq.behind hkept hr⟩

theorem Sound.connect {a b : List Item} {op : Bytes} (ha : Form.Sound schema scope env .cond a)
    (hop : op ∈ logicalOps) (hb : Form.Sound schema scope env .cond b) :
    Form.Sound schema scope env .cond (a ++ .mark op :: b) := by
  intro p hp hcmp
  obtain ⟨q, hleft, hq⟩ := ha p hp hcmp
  obtain ⟨s, hmark, hbegins, hkept⟩ := hq.operation hp (List.mem_append_right _ hop)
  obtain ⟨r, hright, hr⟩ := hb _ hbegins rfl
  exact ⟨r, hleft.append (hmark.cons hright), hq.behind hkept hr⟩

theorem Sound.not {e : List Item} (he : Form.Sound schema scope env .cond e) :
    Form.Sound schema scope env .cond (bang :: e) := by
  intro p hp _
  have hkept := kept_cleared p.tracker
  have hbegins : Begins schema scope env ⟨.expectValueReq, p.stack, p.tracker.cleared⟩ :=
    ⟨start_of_value value_expectValueReq, hp.ready.kept hkept, hp.idle.cursor, hp.idle.last,
      hp.idle.receiver, by simp [cleared]⟩
  obtain ⟨q, hgoes, hq⟩ := he _ hbegins rfl
  exact ⟨q, (Goes.bang hp.state).cons hgoes, hq.state, hq.stack, hkept.trans hq.kept, hq.idle,
    hq.compared⟩

/-! ### Arguments -/

theorem Lists.begins {recv : Elem} {p : Point} (h : Lists schema scope env recv p) :
    Begins schema scope env p := ⟨start_of_value h.state, h.ready, h.idle⟩

/-- Behind a comma the next argument begins, with the variable of the last
one gone. -/
theorem Lists.next {recv : Elem} {bound : Option Bytes} {p q : Point}
    (hp : Lists schema scope env recv p) (hq : Listed p q valuedStates)
    (hbound : ∀ v, some v ≠ bound → q.tracker.binding v = p.tracker.binding v) :
    Goes schema q [comma] ⟨.expectValueReq, q.stack, q.tracker.parted⟩ ∧
      Lists schema scope (env.without bound) recv ⟨.expectValueReq, q.stack, q.tracker.parted⟩ ∧
      p.tracker.Within q.tracker.parted := by
  have hstack : q.stack ≠ [] := by
    rw [hq.stack]
    exact hp.stack
  have hwithin : p.tracker.Within q.tracker.parted := hq.within.trans (kept_parted _).within
  refine ⟨.comma hq.state hstack, ⟨value_expectValueReq, hstack, ?_, ⟨hq.idle.cursor, hq.idle.last,
    hq.idle.receiver, by simp [parted, cleared]⟩, ?_, rfl, rfl, rfl⟩, hwithin⟩
  · refine hp.ready.within hwithin fun v elem hv => ?_
    have hout : some v ≠ bound ∧ env v = some elem := by
      cases bound with
      | none => exact ⟨by simp, hv⟩
      | some w =>
        by_cases hvw : v = w
        · subst hvw
          simp [Env.without] at hv
        · rw [Env.without, Function.update_of_ne hvw] at hv
          exact ⟨by simpa using hvw, hv⟩
    have hbinding : q.tracker.parted.binding v = p.tracker.binding v := hbound v hout.1
    rw [hbinding]
    exact hp.ready.vars v elem hout.2
  · have hreceivers : q.tracker.parenReceiver = p.tracker.parenReceiver :=
      congrArg Footing.receivers hq.within.footing
    change recv.Fits q.tracker.parenReceiver.head?.join
    rw [hreceivers]
    exact hp.fits

theorem Sound.moreArgs {a b : List Item} {recv : Elem} {bound : Option Bytes}
    (ha : Form.Sound schema scope env (.arg recv bound) a)
    (hb : Form.Sound schema scope (env.without bound) (.list recv) b) :
    Form.Sound schema scope env (.list recv) (a ++ comma :: b) := by
  intro p hp
  obtain ⟨q, hfirst, hq, hbound⟩ := ha p hp
  obtain ⟨hcomma, hnext, hwithin⟩ := hp.next hq hbound
  obtain ⟨r, hrest, hr⟩ := hb _ hnext
  exact ⟨r, hfirst.append (hcomma.cons hrest), hr.state, hr.stack.trans hq.stack,
    hwithin.trans hr.within, hr.idle⟩

theorem Sound.argValue {e : List Item} (he : Form.Sound schema scope env .cond e) (recv : Elem) :
    Form.Sound schema scope env (.arg recv none) e := by
  intro p hp
  obtain ⟨q, hgoes, hq⟩ := he p hp.begins hp.compared
  refine ⟨q, hgoes, hq.listed (fun _ h => h), fun v _ => ?_⟩
  have hbinding : q.tracker.binding = p.tracker.binding := congrArg Undo.store hq.kept.undo
  rw [hbinding]

theorem Sound.argLambda {w : Bytes} {e : List Item} {recv : Elem} (hw : schema.Plain w)
    (he : Form.Sound schema scope (env.bind w recv) .cond e) :
    Form.Sound schema scope env (.arg recv (some w)) (.word w :: bar :: e) := by
  intro p hp
  obtain ⟨cs, hname⟩ := Goes.leading hw.ident hw.noClass hp.state
  have hbar : Goes schema ⟨.inIdent, p.stack, p.tracker.leading w cs⟩ [bar] _ := .lambda_bar rfl
  have hne : w ≠ [] := by
    obtain ⟨b, u, rfl, _⟩ := hw.ident
    simp
  have hs : State.inIdent ∉ [State.start, State.expectSource] := by decide
  have hundo := asUndo_lambda (t := p.tracker.leading w cs) hs schema hne rfl hp.ready.tilde
  have hwithin : p.tracker.Within _ := (kept_leading p.tracker w cs).within.trans
    (within_lambda (t := p.tracker.leading w cs) hs schema hne rfl hp.ready.tilde)
  have hfields := dispatch_lambda (t := p.tracker.leading w cs) hs schema hne rfl hp.ready.tilde
  generalize (p.tracker.leading w cs).dispatchToken [Byte.pipe] .inIdent schema = t
    at hbar hundo hwithin hfields
  have hbinding : t.binding = Function.update p.tracker.binding w
      (.element p.tracker.parenReceiver.head?.join) := congrArg Undo.store hundo
  have hready : Ready schema scope (env.bind w recv) t := by
    refine hp.ready.within hwithin fun v elem hv => ?_
    rw [hbinding]
    by_cases hvw : v = w
    · subst hvw
      rw [Env.bind, Function.update_self] at hv
      cases hv
      rw [Function.update_self]
      exact ⟨hw, _, hp.fits, rfl⟩
    · rw [Env.bind, Function.update_of_ne hvw] at hv
      rw [Function.update_of_ne hvw]
      exact hp.ready.vars v elem hv
  have hidle : Idle t := by
    rw [hfields]
    exact ⟨hp.idle.cursor, hp.idle.last, hp.idle.receiver,
      by simp [ScopeTracker.leading, named, hw.unknown]⟩
  obtain ⟨q, hgoes, hq⟩ := he ⟨.sawPipe, p.stack, t⟩ ⟨by simp [startStates], hready, hidle⟩
    (by rw [hfields])
  refine ⟨q, hname.cons (hbar.cons hgoes), ⟨hq.state, hq.stack, hwithin.trans hq.kept.within, hq.idle⟩,
    fun v hv => ?_⟩
  have hsame : q.tracker.binding = t.binding := congrArg Undo.store hq.kept.undo
  rw [hsame, hbinding, Function.update_of_ne (fun h => hv (congrArg some h))]

theorem Sound.argThunk {e : List Item} (he : Form.Sound schema scope env .cond e) (recv : Elem) :
    Form.Sound schema scope env (.arg recv none) (bar :: e) := by
  intro p hp
  have hs : p.state ∉ [State.start, State.expectSource] := by
    have hall : ∀ s ∈ valueStates, s ∉ [State.start, State.expectSource] := by decide
    exact hall p.state hp.state
  have hbar : Goes schema p [bar] _ := .thunk_bar hp.state
  have hwithin := within_thunk hs schema hp.leading
  rw [dispatch_thunk hs schema hp.leading] at hbar hwithin
  have hready := hp.ready.within hwithin hp.ready.vars
  obtain ⟨q, hgoes, hq⟩ := he ⟨.expectValueReq, p.stack, p.tracker.thunked⟩
    ⟨start_of_value value_expectValueReq, hready, hp.idle.cursor, hp.idle.last, hp.idle.receiver,
      hp.idle.name⟩ rfl
  refine ⟨q, hbar.cons hgoes, ⟨hq.state, hq.stack, hwithin.trans hq.kept.within, hq.idle⟩, fun v _ => ?_⟩
  have hbinding : q.tracker.binding = p.tracker.binding := congrArg Undo.store hq.kept.undo
  rw [hbinding]

theorem Sound.argList {a : List Item} (ha : Form.Sound schema scope env (.args scope.elem) a)
    (recv : Elem) : Form.Sound schema scope env (.arg recv none) (brackets a) := by
  intro p hp
  have hfits : scope.elem.Fits (p.tracker.pendingArrowReceiver.getD p.tracker.curClass) := by
    rw [hp.idle.receiver]
    exact hp.ready.element
  obtain ⟨inner, hgoes, hinner⟩ := ha _ (lists_opened hp.ready (opens_plain hp.idle.name).2.1
    hp.idle.cursor hp.idle.last hfits (frameOf [Byte.lbracket]) p.stack) rfl
  obtain ⟨q, hlist, hq, -⟩ := Goes.enclosed (m := [Byte.lbracket]) (by decide)
    (List.mem_cons_of_mem _ (start_of_value hp.state)) hp.ready.grounded hp.idle.name hgoes hinner
  refine ⟨q, hlist, hq.valued.listed (fun _ h => h), fun v _ => ?_⟩
  have hbinding : q.tracker.binding = p.tracker.binding := congrArg Undo.store hq.kept.undo
  rw [hbinding]

theorem Sound.argLead {a : List Item} {w : Bytes} {recv : Elem} {bound : Option Bytes}
    (hw : IsBlank w) (ha : Form.Sound schema scope env (.arg recv bound) a) :
    Form.Sound schema scope env (.arg recv bound) (.blank w :: a) := by
  intro p hp
  obtain ⟨s, hs, hlead, -⟩ := hp.begins.lead hw
  obtain ⟨q, hgoes, hq, hbound⟩ := ha ⟨s, p.stack, p.tracker⟩
    ⟨hs, hp.stack, hp.ready, hp.idle, hp.fits, hp.leading, hp.name, hp.compared⟩
  exact ⟨q, hlead.cons hgoes, ⟨hq.state, hq.stack, hq.within, hq.idle⟩, hbound⟩

theorem Sound.argPad {a : List Item} {w : Bytes} {recv : Elem} {bound : Option Bytes}
    (ha : Form.Sound schema scope env (.arg recv bound) a) (hw : IsBlank w) :
    Form.Sound schema scope env (.arg recv bound) (a ++ [.blank w]) := by
  intro p hp
  obtain ⟨q, hgoes, hq, hbound⟩ := ha p hp
  exact ⟨_, hgoes.append (.pad hw hq.state), ⟨valued_afterValue, hq.stack, hq.within, hq.idle⟩, hbound⟩

/-- **Well-typed expressions are sound.** -/
theorem Typed.sound {form : Form} {items : List Item} (h : Typed schema scope env form items) :
    form.Sound schema scope env items := by
  induction h with
  | step hv hw hlead => exact Sound.step hv hw hlead
  | chain _ hw hlead ih => exact Sound.chain ih hw hlead
  | navValue _ ih => exact Sound.navValue ih
  | var hv => exact Sound.var hv
  | constant _ hplain => exact Sound.constant hplain _
  | column _ hv hg hclass ha c => exact Sound.column hv hg hclass ha c
  | call _ hm _ result ihe iha => exact Sound.call ihe hm iha result
  | navCall _ hm _ result ihe iha => exact Sound.navCall ihe hm iha result
  | apply hf _ result ih => exact Sound.apply hf ih result
  | group _ ih => exact Sound.group ih _
  | groupOperand _ ih => exact Sound.groupOperand ih
  | primaryPad _ hw ih =>
    intro p hp
    obtain ⟨q, hgoes, hq, hresolves⟩ := ih p hp
    obtain ⟨hpad, hends⟩ := hq.valued.pad hw
    exact ⟨_, hgoes.append hpad, hends, hresolves⟩
  | value _ ih =>
    intro p hp _
    obtain ⟨q, hgoes, hq, hresolves⟩ := ih p hp
    exact ⟨q, hgoes, hq.valued, hresolves⟩
  | literal hw => exact Sound.literal hw
  | arith _ hop _ iha ihb => exact Sound.arith iha hop ihb
  | operandLead hw _ ih =>
    intro p hp hcmp
    obtain ⟨s, _, hlead, hbegins⟩ := hp.lead hw
    obtain ⟨q, hgoes, hq, hresolves⟩ := ih _ hbegins hcmp
    exact ⟨q, hlead.cons hgoes, hq.of_lead, hresolves⟩
  | operandPad _ hw ih =>
    intro p hp hcmp
    obtain ⟨q, hgoes, hq, hresolves⟩ := ih p hp hcmp
    obtain ⟨hpad, hends⟩ := hq.pad hw
    exact ⟨_, hgoes.append hpad, hends.valued, hresolves⟩
  | truth _ ih =>
    intro p hp hcmp
    obtain ⟨q, hgoes, hq, -⟩ := ih p hp (fun tc h => by rw [hcmp] at h; cases h)
    exact ⟨q, hgoes, hq⟩
  | compare _ hop hcd _ iha ihb => exact Sound.compare iha hop hcd ihb
  | connect _ hop _ iha ihb => exact Sound.connect iha hop ihb
  | not _ ih => exact Sound.not ih
  | condLead hw _ ih =>
    intro p hp hcmp
    obtain ⟨s, _, hlead, hbegins⟩ := hp.lead hw
    obtain ⟨q, hgoes, hq⟩ := ih _ hbegins hcmp
    exact ⟨q, hlead.cons hgoes, hq.of_lead⟩
  | noArgs recv =>
    intro p hp hs
    exact ⟨p, .nil p, by simp [hs], rfl, (Kept.refl _).within, hp.idle⟩
  | someArgs _ ih =>
    intro p hp _
    obtain ⟨q, hgoes, hq⟩ := ih p hp
    exact ⟨q, hgoes, List.mem_cons_of_mem _ hq.state, hq.stack, hq.within, hq.idle⟩
  | oneArg _ ih =>
    intro p hp
    obtain ⟨q, hgoes, hq, -⟩ := ih p hp
    exact ⟨q, hgoes, hq⟩
  | moreArgs _ _ iha ihb => exact Sound.moreArgs iha ihb
  | argValue _ recv ih => exact Sound.argValue ih recv
  | argLambda hw _ ih => exact Sound.argLambda hw ih
  | argThunk _ recv ih => exact Sound.argThunk ih recv
  | argList _ recv ih => exact Sound.argList ih recv
  | argLead hw _ ih => exact Sound.argLead hw ih
  | argPad _ hw ih => exact Sound.argPad ih hw

end

end PureCard
