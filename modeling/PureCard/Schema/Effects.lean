/-
PureCard.Schema.Effects — what one lexeme of a query does to the tracker.

A handler writes a few fields and leaves the rest. Here that is said
lexeme by lexeme, for identifiers that are no class path and for lists no
known method opens (`knownMethods`), which is what most of a query is made
of.

`Kept` says that a finished expression leaves the lists, the pipeline and
the variables as they were. Inside a list they are only added to
(`Within`), and `kept_of_close` is what the closer makes of that: the saves
of the list put everything back.
-/
import PureCard.Schema.Pipelines
import PureCard.Schema.Columns
import PureCard.Schema.Navigation
import PureCard.RestoredBindings

namespace PureCard

open Scopes

/-- The methods that the tracker knows by name. -/
def knownMethods : List Bytes := sourceMethod :: establishingMethods ++ refMethods

namespace ScopeTracker

/-! ## Single lexemes -/

section

variable (t : ScopeTracker) (s : State) (schema : Schema)

/-- Most lexemes forget the last name and the comparison. -/
def cleared : ScopeTracker := { t with lastIdent := none, lastResolved := none, cmpPending := none }

/-- Behind a comma. -/
def parted : ScopeTracker := { t.cleared with lambdaFirstIdent := none }

/-- Behind an arrow. -/
def arrowed : ScopeTracker := { t.cleared with
  lastNavClass := none
  pendingArrowReceiver := some (t.lastNavClass.or t.curClass)
  pendingRefvar := none
  navCursor := none }

/-- Behind a dot. -/
def dotted : ScopeTracker := { t with
  dotIsColumn := t.receiverIsRow
  pendingRefvar := none
  dotBase := t.receiver
  lastResolved := none
  cmpPending := none }

/-- A name is remembered, and forgets the comparison. -/
def named (name : Bytes) : ScopeTracker :=
  { t with lastIdent := some name, lastResolved := none, cmpPending := none }

/-- A name where a value begins, and the columns it may be. -/
def leading (name : Bytes) (columns : List Bytes) : ScopeTracker := { t.named name with
  lambdaFirstIdent := some name
  emittedStrings := t.emittedStrings ++ columns }

/-- A class path in front of its pipeline. -/
def sourced (path : Bytes) : ScopeTracker := { t.named path with curClass := some path }

/-- A variable behind its `$`. -/
def referring (name : Bytes) : ScopeTracker := { t.named name with pendingRefvar := some name }

/-- Behind a comparison operator. -/
def comparing : ScopeTracker :=
  { t with lastResolved := none, cmpPending := t.lastResolved.or t.cmpPending }

/-- Behind a pipe that binds nothing: its scope is saved. -/
def thunked : ScopeTracker :=
  { t with scopeSaves := t.ledger.save :: t.scopeSaves, lastResolved := none, cmpPending := none }

/-- A string. -/
def quoted (content : Bytes) : ScopeTracker :=
  { t.cleared with emittedStrings := t.emittedStrings ++ [content] }

theorem dispatch_clears {bytes : Bytes} (h : classify bytes ∈ [.dollar, .number, .date, .other]) :
    t.dispatchToken bytes s schema = t.cleared := by
  simp only [List.mem_cons, List.not_mem_nil, or_false] at h
  rcases h with h | h | h | h
  all_goals
    rw [dispatchToken_eq h (by simp)]
    rfl

theorem dispatch_str {bytes content : Bytes} (h : classify bytes = .str content) :
    t.dispatchToken bytes s schema = t.quoted content := by
  rw [dispatchToken_eq h (by simp)]
  rfl

theorem dispatch_comma {bytes : Bytes} (h : classify bytes = .comma) :
    t.dispatchToken bytes s schema = t.parted := by
  rw [dispatchToken_eq h (by simp)]
  rfl

theorem dispatch_cmp {bytes : Bytes} (h : classify bytes = .cmp) :
    t.dispatchToken bytes s schema = t.comparing := by
  rw [dispatchToken_eq h (by simp)]
  simp only [dispatchLexeme, comparing]
  cases t.lastResolved <;> rfl

theorem dispatch_arrow {bytes : Bytes} (h : classify bytes = .arrow) :
    t.dispatchToken bytes s schema = t.arrowed := by
  rw [dispatchToken_eq h (by simp)]
  rfl

theorem dispatch_dot {bytes : Bytes} (h : classify bytes = .dot) :
    t.dispatchToken bytes s schema = t.dotted := by
  rw [dispatchToken_eq h (by simp)]
  have hdot : t.onDot = { t with
      dotIsColumn := t.receiverIsRow
      pendingRefvar := none
      dotBase := t.receiver } := by
    unfold onDot receiver receiverIsRow
    dsimp only
    cases hvar : t.pendingRefvar with
    | none =>
      dsimp only
      cases t.navCursor <;> rfl
    | some v =>
      dsimp only
      by_cases hrow : v ∈ t.relationRowVars
      · simp only [hrow, if_true, decide_true]
      · simp only [hrow, if_false, decide_false]
        rfl
  simp only [dispatchLexeme, hdot]
  rfl

/-- The pipe a query begins with. -/
theorem dispatch_source_bar : new.dispatchToken [Byte.pipe] .start schema = new := by
  have hlex : classify [Byte.pipe] = .pipe := by decide +kernel
  rw [dispatchToken_eq hlex (by simp)]
  rfl

theorem dispatch_source {path : Bytes} (hpath : classify path = .ident path)
    (hclass : schema.hasClass path = true) :
    t.dispatchToken path .expectSource schema = t.sourced path := by
  rw [dispatchToken_eq hpath (by simp)]
  simp [dispatchLexeme, onIdent, hclass, bindIdent, recordsColumn, sourced, named]

variable {schema} {name : Bytes} (hname : classify name = .ident name)
  (hclass : schema.hasClass name = false)

include hname hclass

theorem dispatch_refvar : t.dispatchToken name .afterDollar schema = t.referring name := by
  rw [dispatchToken_eq hname (by simp)]
  simp [dispatchLexeme, onIdent, hclass, bindIdent, recordsColumn, referring, named]

theorem dispatch_method : t.dispatchToken name .afterArrow schema = t.named name := by
  rw [dispatchToken_eq hname (by simp)]
  simp [dispatchLexeme, onIdent, hclass, bindIdent, recordsColumn, named]

/-- A name right behind an operator that may be longer binds nothing. -/
theorem dispatch_quiet (hs : s ∈ [.sawPipe, .sawGt, .sawLt]) :
    t.dispatchToken name s schema = t.named name := by
  simp only [List.mem_cons, List.not_mem_nil, or_false] at hs
  rw [dispatchToken_eq hname (by simp)]
  rcases hs with rfl | rfl | rfl <;>
    simp [dispatchLexeme, onIdent, hclass, bindIdent, recordsColumn, named]

/-- A name where a value begins may turn out to be a lambda's variable. -/
theorem dispatch_value (hs : s ∈ valueStates) :
    ∃ columns, t.dispatchToken name s schema = t.leading name columns := by
  simp only [valueStates, List.mem_cons, List.not_mem_nil, or_false] at hs
  rw [dispatchToken_eq hname (by simp)]
  by_cases htilde : t.tildeOpen.head? = some true
  · refine ⟨[name], ?_⟩
    rcases hs with rfl | rfl <;>
      simp [dispatchLexeme, onIdent, hclass, bindIdent, recordsColumn, leading, named, htilde]
  · refine ⟨[], ?_⟩
    rcases hs with rfl | rfl <;>
      simp [dispatchLexeme, onIdent, hclass, bindIdent, recordsColumn, leading, named, htilde]

/-- Behind a dot with no class to look in. -/
theorem dispatch_member_free (hcolumn : t.dotIsColumn = false) (hbase : t.dotBase = none) :
    t.dispatchToken name .afterDot schema = t.named name := by
  rw [dispatchToken_eq hname (by simp)]
  simp [dispatchLexeme, onIdent, hclass, bindIdent, resolveMember, hcolumn, hbase, recordsColumn,
    named]

/-- A member of the class behind a dot. -/
theorem dispatch_member (hcolumn : t.dotIsColumn = false) {base : Bytes}
    (hbase : t.dotBase = some base) {r : Resolved} (hr : schema.resolve base name = some r) :
    t.dispatchToken name .afterDot schema =
      match r with
      | .cls path _ =>
        { t.named name with dotBase := none, navCursor := some path, lastNavClass := some path }
      | .primitive prim _ => { t.named name with
          dotBase := none, navCursor := none, lastNavClass := none
          lastResolved := some prim.typeClass }
      | .enum _ _ => { t.named name with dotBase := none, navCursor := none, lastNavClass := none } := by
  rw [dispatchToken_eq hname (by simp)]
  cases r <;> simp [dispatchLexeme, onIdent, hclass, bindIdent, resolveMember, hcolumn, hbase, hr,
    recordsColumn, named]

end

/-! ## Lists -/

/-- What a list inherits. -/
structure Footing where
  pipeline : Pipeline
  est : List Nat
  ref : List Nat
  receivers : List (Option Bytes)
  deriving DecidableEq

def footing (t : ScopeTracker) : Footing := ⟨t.pipeline, t.estStack, t.refStack, t.parenReceiver⟩

/-- A finished expression has left everything but the columns as it was. -/
structure Kept (t t' : ScopeTracker) : Prop where
  footing : t'.footing = t.footing
  undo : t'.asUndo = t.asUndo
  saves : t'.scopeSaves = t.scopeSaves
  emitted : t.emittedStrings <+: t'.emittedStrings

/-- Inside a list: what was bound and saved since is to be put back. -/
structure Within (t t' : ScopeTracker) : Prop where
  footing : t'.footing = t.footing
  undo : ∃ bs, t'.asUndo = t.asUndo.binds bs
  saves : ∃ own, (∀ save ∈ own, save = t.ledger.save) ∧ t'.scopeSaves = own ++ t.scopeSaves
  emitted : t.emittedStrings <+: t'.emittedStrings

section

variable {t t' t'' : ScopeTracker}

theorem Kept.refl (t : ScopeTracker) : t.Kept t := ⟨rfl, rfl, rfl, List.prefix_rfl⟩

theorem Kept.trans (h : t.Kept t') (h' : t'.Kept t'') : t.Kept t'' :=
  ⟨h'.footing.trans h.footing, h'.undo.trans h.undo, h'.saves.trans h.saves,
    h.emitted.trans h'.emitted⟩

theorem kept_cleared (t : ScopeTracker) : t.Kept t.cleared := ⟨rfl, rfl, rfl, List.prefix_rfl⟩

theorem kept_parted (t : ScopeTracker) : t.Kept t.parted := ⟨rfl, rfl, rfl, List.prefix_rfl⟩

theorem kept_arrowed (t : ScopeTracker) : t.Kept t.arrowed := ⟨rfl, rfl, rfl, List.prefix_rfl⟩

theorem kept_dotted (t : ScopeTracker) : t.Kept t.dotted := ⟨rfl, rfl, rfl, List.prefix_rfl⟩

theorem kept_named (t : ScopeTracker) (name : Bytes) : t.Kept (t.named name) :=
  ⟨rfl, rfl, rfl, List.prefix_rfl⟩

theorem kept_referring (t : ScopeTracker) (name : Bytes) : t.Kept (t.referring name) :=
  ⟨rfl, rfl, rfl, List.prefix_rfl⟩

theorem kept_comparing (t : ScopeTracker) : t.Kept t.comparing := ⟨rfl, rfl, rfl, List.prefix_rfl⟩

theorem kept_leading (t : ScopeTracker) (name : Bytes) (columns : List Bytes) :
    t.Kept (t.leading name columns) := ⟨rfl, rfl, rfl, List.prefix_append ..⟩

theorem kept_quoted (t : ScopeTracker) (content : Bytes) : t.Kept (t.quoted content) :=
  ⟨rfl, rfl, rfl, List.prefix_append ..⟩

theorem Kept.within (h : t.Kept t') : t.Within t' :=
  ⟨h.footing, ⟨[], h.undo⟩, ⟨[], by simp, h.saves⟩, h.emitted⟩

theorem Within.depth (h : t.Within t') : t'.depth = t.depth := by
  obtain ⟨bs, hundo⟩ := h.undo
  exact (congrArg Undo.depth hundo).trans (t.asUndo.depth_binds bs)

theorem Within.pipeline (h : t.Within t') : t'.pipeline = t.pipeline := congrArg Footing.pipeline h.footing

theorem Within.trans (h : t.Within t') (h' : t'.Within t'') : t.Within t'' := by
  obtain ⟨bs, hbs⟩ := h.undo
  obtain ⟨cs, hcs⟩ := h'.undo
  obtain ⟨own, hown, hsaves⟩ := h.saves
  obtain ⟨own', hown', hsaves'⟩ := h'.saves
  have hsave : t'.ledger.save = t.ledger.save := by
    change (⟨t'.depth, t'.pipeline.cls, t'.pipeline.explicit, t'.pipeline.tilde⟩ : ScopeSave) = _
    rw [h.depth, h.pipeline]
    rfl
  refine ⟨h'.footing.trans h.footing, ⟨bs ++ cs, ?_⟩, ⟨own' ++ own, ?_, ?_⟩, h.emitted.trans h'.emitted⟩
  · rw [hcs, hbs, Undo.binds_append]
  · intro save hmem
    rcases List.mem_append.mp hmem with hmem | hmem
    · exact (hown' save hmem).trans hsave
    · exact hown save hmem
  · rw [hsaves', hsaves, List.append_assoc]

/-- The stacks are in order, and the variables are those of open scopes. -/
structure Grounded (t : ScopeTracker) : Prop where
  est : Rising t.depth t.estStack
  ref : Rising t.depth t.refStack
  scopes : Settling t.depth (t.scopeSaves.map ScopeSave.depth)
  frames : ∃ fr, Refines freeStore fr t.asUndo

theorem grounded_new : new.Grounded :=
  ⟨⟨.nil, by simp [new]⟩, ⟨.nil, by simp [new]⟩, ⟨.nil, by simp [new]⟩, [[]], .start freeStore⟩

theorem Within.grounded (h : t.Within t') (hg : t.Grounded) : t'.Grounded := by
  have hest : t'.estStack = t.estStack := congrArg Footing.est h.footing
  have href : t'.refStack = t.refStack := congrArg Footing.ref h.footing
  obtain ⟨bs, hundo⟩ := h.undo
  obtain ⟨own, hown, hsaves⟩ := h.saves
  refine ⟨?_, ?_, ?_, ?_⟩
  · rw [h.depth, hest]
    exact hg.est
  · rw [h.depth, href]
    exact hg.ref
  · have hdepths : ∀ save ∈ own, save.depth = t.depth := by
      intro save hmem
      rw [hown save hmem]
      rfl
    rw [h.depth, hsaves]
    clear hsaves hown
    induction own with
    | nil => exact hg.scopes
    | cons save own ih =>
      have htail := ih fun save hmem => hdepths save (by simp [hmem])
      rw [List.cons_append, List.map_cons, hdepths save (by simp)]
      exact htail.push
  · obtain ⟨fr, hfr⟩ := hg.frames
    obtain ⟨f, rest, rfl⟩ := List.exists_cons_of_ne_nil hfr.ne_nil
    obtain ⟨g, hg'⟩ := hfr.binds bs
    exact ⟨_, hundo ▸ hg'⟩

/-! ### Pipes -/

section

variable {s : State} (hs : s ∉ [State.start, State.expectSource]) (schema : Schema)

include hs

/-- A pipe with no variable in front. -/
theorem dispatch_thunk (hname : t.lambdaFirstIdent = none) :
    t.dispatchToken [Byte.pipe] s schema = t.thunked := by
  have hlex : classify [Byte.pipe] = .pipe := by decide +kernel
  simp only [List.mem_cons, List.not_mem_nil, or_false] at hs
  rw [dispatchToken_eq hlex (by simp)]
  simp only [dispatchLexeme, onPipe, if_neg hs, hname, thunked]
  rfl

/-- A pipe behind a lambda's variable. -/
theorem dispatch_lambda {w : Bytes} (hw : w ≠ []) (hname : t.lambdaFirstIdent = some w)
    (htilde : t.sawTildeBracket = false) :
    t.dispatchToken [Byte.pipe] s schema = { t with
      scopeSaves := t.ledger.save :: t.scopeSaves
      lambdaFirstIdent := none
      binderSaves := ⟨t.depth, w, t.varClass.lookup w, w ∈ t.relationRowVars⟩ :: t.binderSaves
      relationRowVars := t.relationRowVars.erase w
      varClass := t.varClass.insert w t.parenReceiver.head?.join
      lastResolved := none
      cmpPending := none } := by
  have hlex : classify [Byte.pipe] = .pipe := by decide +kernel
  have hempty : w.isEmpty = false := by simpa using hw
  simp only [List.mem_cons, List.not_mem_nil, or_false] at hs
  rw [dispatchToken_eq hlex (by simp)]
  have hsave : t.ledger.save = ⟨t.depth, t.curClass, t.relExplicit, false⟩ := by
    rw [← htilde]
    rfl
  rw [hsave]
  simp [dispatchLexeme, onPipe, if_neg hs, hname, hempty, bindLambda, htilde]

/-- The variable stands for an element of the list's receiver. -/
theorem asUndo_lambda {w : Bytes} (hw : w ≠ []) (hname : t.lambdaFirstIdent = some w)
    (htilde : t.sawTildeBracket = false) :
    (t.dispatchToken [Byte.pipe] s schema).asUndo =
      t.asUndo.bind w (.element t.parenReceiver.head?.join) := by
  have hlex : classify [Byte.pipe] = .pipe := by decide +kernel
  have hempty : w.isEmpty = false := by simpa using hw
  have hpipe : (t.dispatchToken [Byte.pipe] s schema).asUndo = (t.onPipe s).asUndo := by
    rw [dispatchToken_eq hlex (by simp)]
    rfl
  have hbinding : t.receiverBinding = .element t.parenReceiver.head?.join := by
    simp [receiverBinding, htilde]
  simp only [List.mem_cons, List.not_mem_nil, or_false] at hs
  rw [hpipe, asUndo_onPipe]
  simp only [header, if_neg hs, hname, hempty, hbinding]
  rfl

theorem within_thunk (hname : t.lambdaFirstIdent = none) :
    t.Within (t.dispatchToken [Byte.pipe] s schema) := by
  rw [dispatch_thunk hs schema hname]
  exact ⟨rfl, ⟨[], rfl⟩, ⟨[t.ledger.save], by simp, rfl⟩, List.prefix_rfl⟩

theorem within_lambda {w : Bytes} (hw : w ≠ []) (hname : t.lambdaFirstIdent = some w)
    (htilde : t.sawTildeBracket = false) : t.Within (t.dispatchToken [Byte.pipe] s schema) := by
  have hundo := asUndo_lambda hs schema hw hname htilde
  rw [dispatch_lambda hs schema hw hname htilde] at hundo ⊢
  exact ⟨rfl, ⟨[(w, _)], hundo⟩, ⟨[t.ledger.save], by simp, rfl⟩, List.prefix_rfl⟩

end

/-! ### Delimiters -/

def openers : List Bytes := [[Byte.lparen], [Byte.lbracket]]

def closers : List Bytes := [[Byte.rparen], [Byte.rbracket]]

/-- The tracker behind an opener. -/
def opened (t : ScopeTracker) : ScopeTracker := { t with
  lastIdent := none
  depth := t.depth + 1
  estStack := if opensAny establishingMethods t.lastIdent then (t.depth + 1) :: t.estStack
    else t.estStack
  refStack := if opensAny refMethods t.lastIdent then (t.depth + 1) :: t.refStack else t.refStack
  pendingArrowReceiver := none
  parenReceiver := t.pendingArrowReceiver.getD t.curClass :: t.parenReceiver
  tildeOpen := false :: t.tildeOpen
  lambdaFirstIdent := none
  lastResolved := none
  cmpPending := none }

theorem dispatch_open {m : Bytes} (hm : m ∈ openers) {s : State} (hs : s ≠ .sawTilde)
    (hsource : t.lastIdent = some sourceMethod → t.depth = 0) (schema : Schema) :
    t.dispatchToken m s schema = t.opened := by
  have hlex : classify m = .open := by
    simp only [openers, List.mem_cons, List.not_mem_nil, or_false] at hm
    rcases hm with rfl | rfl <;> decide +kernel
  rw [dispatchToken_eq hlex (by simp)]
  cases hlast : t.lastIdent with
  | none => simp [dispatchLexeme, onOpen, opened, hlast, hs, opensAny]
  | some name =>
    have hshallow : ¬ (name = sourceMethod ∧ nestedSourceMinDepth ≤ t.depth + 1) := by
      rintro ⟨rfl, hle⟩
      rw [hsource hlast] at hle
      exact absurd hle (by decide)
    by_cases hest : establishingMethods.contains name = true
    all_goals
      by_cases href : refMethods.contains name = true
      all_goals
        simp only [dispatchLexeme, onOpen, opened, hlast, hs, openMethod, opensAny, Option.any_some,
          hest, href, if_true, if_false, Bool.false_eq_true, if_neg hshallow, decide_false,
          Bool.or_false, reduceCtorEq]

theorem Grounded.opened (h : t.Grounded) : t.opened.Grounded := by
  obtain ⟨fr, hfr⟩ := h.frames
  refine ⟨?_, ?_, h.scopes.open, fr.enter, hfr.enter⟩
  · change Rising (t.depth + 1) (if _ then _ else _)
    split
    · exact h.est.push
    · exact h.est.open
  · change Rising (t.depth + 1) (if _ then _ else _)
    split
    · exact h.ref.push
    · exact h.ref.open

/-- The tracker in front of an opener, with the pipeline its list leaves. -/
def behind (t : ScopeTracker) : ScopeTracker :=
  if opensAny establishingMethods t.lastIdent then { t with curClass := none, relExplicit := true }
  else t

theorem dispatch_close {m : Bytes} (hm : m ∈ closers) (s : State) (schema : Schema) :
    t.dispatchToken m s schema = { t.onClose with lastResolved := none, cmpPending := none } := by
  have hlex : classify m = .close := by
    simp only [closers, List.mem_cons, List.not_mem_nil, or_false] at hm
    rcases hm with rfl | rfl <;> decide +kernel
  rw [dispatchToken_eq hlex (by simp)]
  rfl

theorem emittedStrings_onClose (t : ScopeTracker) : t.onClose.emittedStrings = t.emittedStrings := by
  rw [onClose_eq, restoreScopes_eq, restoreBinders_eq]
  dsimp only
  split <;> rfl

/-- **A closer puts everything back.** -/
theorem kept_of_close (hg : t.Grounded) (h : t.opened.Within t') {m : Bytes} (hm : m ∈ closers)
    (s : State) (schema : Schema) : t.behind.Kept (t'.dispatchToken m s schema) := by
  obtain ⟨bs, hundo⟩ := h.undo
  obtain ⟨own, hown, hsaves⟩ := h.saves
  obtain ⟨fr, hfr⟩ := hg.frames
  have hdepth : t'.depth = t.depth + 1 := h.depth
  have hest : t'.estStack = t.opened.estStack := congrArg Footing.est h.footing
  have href : t'.refStack = t.opened.refStack := congrArg Footing.ref h.footing
  have hreceivers : t'.parenReceiver = t.opened.parenReceiver := congrArg Footing.receivers h.footing
  have hpipeline : t'.pipeline = t.pipeline := h.pipeline
  have hdepths : ∀ save ∈ own, save.depth = t.depth + 1 := by
    intro save hmem
    rw [hown save hmem]
    rfl
  have hbelow : ∀ save ∈ t.scopeSaves, save.depth ≤ t.depth := fun save hmem =>
    hg.scopes.2 _ (List.mem_map_of_mem hmem)
  obtain ⟨htake, hdrop⟩ := splitSaves hdepths hbelow
  have hrestored : t'.ledger.restored = t.pipeline := by
    have htaken : t'.ledger.saves.takeWhile (·.depth == t'.ledger.depth) = own := by
      show (t'.scopeSaves).takeWhile (·.depth == t'.depth) = own
      rw [hdepth, hsaves, show t.opened.scopeSaves = t.scopeSaves from rfl, htake]
    rw [Ledger.restored, htaken]
    cases hlast : own.getLast? with
    | none => exact hpipeline
    | some save =>
      show save.pipeline = t.pipeline
      rw [hown save (List.mem_of_getLast? hlast)]
      rfl
  have hledger : t'.onClose.ledger = t'.ledger.closeList := t'.ledger_onClose
  have hestack : t'.onClose.estStack = t.estStack := by
    refine (congrArg Ledger.est hledger).trans ?_
    change (if t'.estStack.head? = some t'.depth then t'.estStack.tail else t'.estStack) = _
    rw [hest, hdepth]
    exact pop_push hg.est _
  have hrefStack : t'.onClose.refStack = t.refStack := by
    refine (congrArg Ledger.ref hledger).trans ?_
    change (if t'.refStack.head? = some t'.depth then t'.refStack.tail else t'.refStack) = _
    rw [href, hdepth]
    exact pop_push hg.ref _
  have hflow : t'.onClose.pipeline = t.behind.pipeline := by
    refine (congrArg Ledger.pipeline hledger).trans ?_
    change (if t'.estStack.head? = some t'.depth then
      (⟨none, true, t'.ledger.restored.tilde⟩ : Pipeline) else t'.ledger.restored) = _
    rw [hrestored, hest, hdepth, behind]
    cases hflag : opensAny establishingMethods t.lastIdent with
    | true =>
      simp only [ScopeTracker.opened, hflag, if_true, List.head?_cons]
      rfl
    | false => simp [ScopeTracker.opened, hflag, hg.est.head_ne]
  have hparen : t'.onClose.parenReceiver = t.parenReceiver := by
    rw [onClose_eq]
    dsimp only
    rw [hreceivers]
    rfl
  have hbehind : t.behind.estStack = t.estStack ∧ t.behind.refStack = t.refStack ∧
      t.behind.parenReceiver = t.parenReceiver ∧ t.behind.asUndo = t.asUndo ∧
      t.behind.scopeSaves = t.scopeSaves ∧ t.behind.emittedStrings = t.emittedStrings := by
    unfold behind
    split <;> exact ⟨rfl, rfl, rfl, rfl, rfl, rfl⟩
  obtain ⟨h1, h2, h3, h4, h5, h6⟩ := hbehind
  rw [dispatch_close hm]
  refine ⟨?_, ?_, ?_, ?_⟩
  · change (⟨t'.onClose.pipeline, t'.onClose.estStack, t'.onClose.refStack,
      t'.onClose.parenReceiver⟩ : Footing) = _
    rw [hflow, hestack, hrefStack, hparen, footing, h1, h2, h3]
  · change t'.onClose.asUndo = _
    rw [asUndo_onClose, hundo, h4]
    exact hfr.leave_binds bs
  · change t'.onClose.scopeSaves = _
    refine (congrArg Ledger.saves hledger).trans ?_
    change (t'.scopeSaves).dropWhile (·.depth == t'.depth) = _
    rw [hdepth, hsaves, h5]
    exact hdrop
  · change t.behind.emittedStrings <+: t'.onClose.emittedStrings
    rw [emittedStrings_onClose, h6]
    exact h.emitted

end

end ScopeTracker

end PureCard
