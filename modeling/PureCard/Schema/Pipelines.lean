/-
PureCard.Schema.Pipelines — the pipeline a piece stands in.

The tracker keeps one class for the elements of the pipeline, one flag for
a named relation and one for a `~[`. A lambda pipe saves the three, the
closer of its list puts them back, and the closer of an establishing list
sets them. These fields, the depth stacks they are kept by and the last
identifier make up a machine of their own, the `Ledger`: no other field of
the tracker is read (`ledger_dispatch`).

`pipeline_list` is what a closed list does to the pipeline: it is what it
was at the list's first lambda pipe, or at its closer if it has none, and
an establishing list then makes it a named relation.
-/
import PureCard.Schema.Stacks

namespace PureCard

open Scopes ScopeTracker

/-! ## The ledger -/

/-- The pipeline state. -/
structure Pipeline where
  cls : Option Bytes
  explicit : Bool
  tilde : Bool
  deriving DecidableEq, Repr

def ScopeSave.pipeline (save : ScopeSave) : Pipeline :=
  ⟨save.prevCurClass, save.prevRelExplicit, save.prevSawTildeBracket⟩

/-- The pipeline state and what decides it. -/
structure Ledger where
  depth : Nat
  last : Option Bytes
  est : List Nat
  ref : List Nat
  saves : List ScopeSave
  pipeline : Pipeline

def ScopeTracker.pipeline (t : ScopeTracker) : Pipeline :=
  ⟨t.curClass, t.relExplicit, t.sawTildeBracket⟩

def ScopeTracker.ledger (t : ScopeTracker) : Ledger :=
  ⟨t.depth, t.lastIdent, t.estStack, t.refStack, t.scopeSaves, t.pipeline⟩

/-- The list is opened by one of `names`. -/
def opensAny (names : List Bytes) (last : Option Bytes) : Bool := last.any names.contains

/-- A pipe that is a lambda's. -/
def Piece.isLambdaPipe (p : Piece) : Bool :=
  p.lexeme = .pipe && p.anchor ≠ .start && p.anchor ≠ .expectSource

namespace Ledger

/-- The save a lambda pipe makes. -/
def save (l : Ledger) : ScopeSave :=
  ⟨l.depth, l.pipeline.cls, l.pipeline.explicit, l.pipeline.tilde⟩

def openList (l : Ledger) (anchor : State) : Ledger where
  depth := l.depth + 1
  last := none
  est := if opensAny establishingMethods l.last then (l.depth + 1) :: l.est else l.est
  ref := if opensAny refMethods l.last then (l.depth + 1) :: l.ref else l.ref
  saves := l.saves
  pipeline :=
    if l.last = some sourceMethod ∧ nestedSourceMinDepth ≤ l.depth + 1 then
      ⟨l.pipeline.cls, false, false⟩
    else { l.pipeline with tilde := l.pipeline.tilde || anchor = .sawTilde }

/-- The pipeline once the saves of the closing list are put back. -/
def restored (l : Ledger) : Pipeline :=
  match (l.saves.takeWhile (·.depth == l.depth)).getLast? with
  | some save => save.pipeline
  | none => l.pipeline

def closeList (l : Ledger) : Ledger where
  depth := l.depth - 1
  last := l.last
  est := if l.est.head? = some l.depth then l.est.tail else l.est
  ref := if l.ref.head? = some l.depth then l.ref.tail else l.ref
  saves := l.saves.dropWhile (·.depth == l.depth)
  pipeline :=
    if l.est.head? = some l.depth then ⟨none, true, l.restored.tilde⟩ else l.restored

def step (schema : Schema) (l : Ledger) (p : Piece) : Ledger :=
  match p.lexeme with
  | .ident text =>
    { l with
      last := some text
      pipeline := if schema.hasClass text then { l.pipeline with cls := some text } else l.pipeline }
  | .open => l.openList p.anchor
  | .close => l.closeList
  | .pipe => if p.isLambdaPipe then { l with saves := l.save :: l.saves } else l
  | .ws | .dot | .cmp => l
  | _ => { l with last := none }

end Ledger

namespace ScopeTracker

theorem ledger_onIdent (t : ScopeTracker) (text : Bytes) (preState : State) (schema : Schema) :
    (t.onIdent text preState schema).1.ledger = { t.ledger with
      last := some text
      pipeline := if schema.hasClass text then { t.pipeline with cls := some text }
        else t.pipeline } := by
  have hmember : ∀ u : ScopeTracker, { (u.resolveMember text schema).1.ledger with last := none } =
      { u.ledger with last := none } := by
    intro u
    unfold resolveMember
    repeat' split
    all_goals rfl
  have hbind : ∀ u : ScopeTracker, { (u.bindIdent text preState schema).1.ledger with last := none } =
      { u.ledger with last := none } := by
    intro u
    unfold bindIdent
    repeat' split
    all_goals first | rfl | exact hmember u
  have h := hbind (t.sawClass text schema)
  rw [onIdent_eq]
  have hlast : ∀ l : Ledger, { ({ l with last := none } : Ledger) with last := some text } =
      { l with last := some text } := fun _ => rfl
  have h' := congrArg (fun l : Ledger => { l with last := some text }) h
  dsimp only at h'
  refine Eq.trans h' ?_
  rw [sawClass, ledger, ledger, pipeline, pipeline]
  dsimp only
  split <;> rfl

theorem ledger_onPipe (t : ScopeTracker) (preState : State) : (t.onPipe preState).ledger =
    if preState = .start ∨ preState = .expectSource then t.ledger
    else { t.ledger with saves := t.ledger.save :: t.scopeSaves } := by
  unfold onPipe bindLambda
  dsimp only
  repeat' split
  all_goals rfl

theorem ledger_openMethod (t : ScopeTracker) (name : Bytes) : (t.openMethod name).ledger =
    { t.ledger with
      est := if establishingMethods.contains name then t.depth :: t.estStack else t.estStack
      ref := if refMethods.contains name then t.depth :: t.refStack else t.refStack
      pipeline := if name = sourceMethod ∧ nestedSourceMinDepth ≤ t.depth then
        ⟨t.curClass, false, false⟩ else t.pipeline } := by
  unfold openMethod
  dsimp only
  by_cases hest : establishingMethods.contains name = true
  all_goals
    by_cases href : refMethods.contains name = true
    all_goals
      simp only [hest, href, if_true, if_false, Bool.false_eq_true]
      by_cases hall : name = sourceMethod ∧ nestedSourceMinDepth ≤ t.depth
      · rw [if_pos hall, if_pos hall]
        rfl
      · rw [if_neg hall, if_neg hall]
        rfl

theorem ledger_onOpen (t : ScopeTracker) (preState : State) :
    (t.onOpen preState).ledger = t.ledger.openList preState := by
  have hdepth : t.ledger.depth = t.depth := rfl
  unfold onOpen Ledger.openList
  dsimp only
  cases hlast : t.lastIdent with
  | none =>
    have hl : t.ledger.last = none := hlast
    simp only [hl, opensAny, Option.any_none]
    rfl
  | some name =>
    have hl : t.ledger.last = some name := hlast
    have hmethod := ledger_openMethod { t with
      lastIdent := none
      depth := t.depth + 1
      sawTildeBracket := t.sawTildeBracket || decide (preState = .sawTilde)
      tildeOpen := decide (preState = .sawTilde) :: t.tildeOpen } name
    simp only [hl, hdepth, opensAny, Option.any_some, Option.some.injEq]
    exact hmethod

theorem ledger_onClose (t : ScopeTracker) : t.onClose.ledger = t.ledger.closeList := by
  have hsaves : t.ledger.saves = t.scopeSaves := rfl
  have hest : t.ledger.est = t.estStack := rfl
  have hdepth : t.ledger.depth = t.depth := rfl
  unfold Ledger.closeList Ledger.restored
  rw [hsaves, hest, hdepth, onClose_eq, restoreScopes_eq, restoreBinders_eq]
  generalize (t.scopeSaves.takeWhile (·.depth == t.depth)).getLast? = save
  by_cases hhead : t.estStack.head? = some t.depth
  all_goals
    simp only [hhead, decide_true, decide_false, if_true, if_false, Bool.false_eq_true]
    cases save <;> rfl

theorem ledger_onDot (t : ScopeTracker) : t.onDot.ledger = t.ledger := by
  unfold onDot
  dsimp only
  repeat' split
  all_goals rfl

/-- **A dispatch is a step of the ledger.** -/
theorem ledger_dispatch (t : ScopeTracker) (p : Piece) (schema : Schema) :
    (t.dispatchToken p.text p.anchor schema).ledger = t.ledger.step schema p := by
  by_cases hws : p.lexeme = .ws
  · rw [dispatchToken_ws hws, Ledger.step, hws]
  · rw [dispatchToken_eq rfl hws, Ledger.step]
    change (t.dispatchLexeme p.lexeme p.anchor schema).1.ledger = _
    cases hlex : p.lexeme with
    | ident text => exact t.ledger_onIdent text p.anchor schema
    | dot => exact t.ledger_onDot
    | «open» => exact t.ledger_onOpen p.anchor
    | close => exact t.ledger_onClose
    | pipe =>
      have h := t.ledger_onPipe p.anchor
      rw [dispatchLexeme]
      refine h.trans ?_
      have hiff : p.isLambdaPipe = true ↔ ¬ (p.anchor = .start ∨ p.anchor = .expectSource) := by
        simp [Piece.isLambdaPipe, hlex]
      by_cases hpipe : p.anchor = .start ∨ p.anchor = .expectSource
      · rw [if_pos hpipe, if_neg (fun hl => hiff.mp hl hpipe)]
      · rw [if_neg hpipe, if_pos (hiff.mpr hpipe)]
        rfl
    | cmp =>
      rw [dispatchLexeme]
      cases t.lastResolved <;> rfl
    | _ => rfl

theorem ledger_dispatchAll (t : ScopeTracker) (ps : List Piece) (schema : Schema) :
    (t.dispatchAll ps schema).ledger = ps.foldl (Ledger.step schema) t.ledger := by
  induction ps generalizing t with
  | nil => rfl
  | cons p ps ih => rw [dispatchAll_cons, ih, ledger_dispatch, List.foldl_cons]

end ScopeTracker

/-! ## The body of a list -/

/-- The pieces before the first lambda pipe that is `n` scopes out. -/
def firstLambdaAt : Nat → List Piece → Option (List Piece)
  | _, [] => none
  | n, p :: rest =>
    if n = 0 ∧ p.isLambdaPipe then some []
    else (level Piece.nesting n [p]).bind fun m => (firstLambdaAt m rest).map (p :: ·)

/-- The pieces before the first lambda pipe of a list with this body. -/
def firstLambda (body : List Piece) : Option (List Piece) := firstLambdaAt 0 body

theorem firstLambdaAt_append (n : Nat) (as bs : List Piece) : firstLambdaAt n (as ++ bs) =
    (firstLambdaAt n as).or
      ((level Piece.nesting n as).bind fun m => (firstLambdaAt m bs).map (as ++ ·)) := by
  induction as generalizing n with
  | nil =>
    have hid : (fun qs : List Piece => [] ++ qs) = id := rfl
    rw [firstLambdaAt, level, Option.none_or, Option.bind_some, hid, Option.map_id]
    rfl
  | cons p as ih =>
    have hsplit : p :: as = [p] ++ as := rfl
    rw [List.cons_append, firstLambdaAt, firstLambdaAt, hsplit, level_append]
    by_cases hpipe : n = 0 ∧ p.isLambdaPipe = true
    · rw [if_pos hpipe, if_pos hpipe]
      rfl
    · rw [if_neg hpipe, if_neg hpipe]
      cases level Piece.nesting n [p] with
      | none => rfl
      | some m =>
        simp only [Option.bind_some]
        rw [ih]
        cases firstLambdaAt m as with
        | some b => rfl
        | none =>
          cases level Piece.nesting m as with
          | none => rfl
          | some k =>
            simp only [Option.none_or, Option.map_none, Option.bind_some, Option.map_map]
            rfl

/-- Further in, a pipe is not the list's own. -/
theorem firstLambdaAt_succ {n m : Nat} {ps : List Piece}
    (h : level Piece.nesting n ps = some m) : firstLambdaAt (n + 1) ps = none := by
  induction ps generalizing n with
  | nil => rfl
  | cons p ps ih =>
    have hne : ¬ (n + 1 = 0 ∧ p.isLambdaPipe = true) := fun h => absurd h.1 (Nat.succ_ne_zero n)
    rw [firstLambdaAt, if_neg hne]
    cases hk : p.nesting with
    | opens =>
      rw [level_opens hk] at h ⊢
      rw [level, Option.bind_some, ih h]
      rfl
    | flat =>
      rw [level_flat hk] at h ⊢
      rw [level, Option.bind_some, ih h]
      rfl
    | closes =>
      cases n with
      | zero =>
        rw [level_closes_zero hk] at h
        cases h
      | succ n =>
        rw [level_closes hk] at h ⊢
        rw [level, Option.bind_some, ih h]
        rfl

theorem firstLambda_append {as : List Piece} (has : Balanced Piece.nesting as) (bs : List Piece) :
    firstLambda (as ++ bs) = (firstLambda as).or ((firstLambda bs).map (as ++ ·)) := by
  rw [firstLambda, firstLambdaAt_append, has, Option.bind_some]
  rfl

theorem firstLambda_scope {o c : Piece} {body : List Piece} (ho : o.nesting = .opens)
    (hc : c.nesting = .closes) (hbody : Balanced Piece.nesting body) :
    firstLambda (o :: body ++ [c]) = none := by
  have hpipe : ¬ (0 = 0 ∧ o.isLambdaPipe = true) := by
    intro h
    have hlex : o.lexeme = .pipe := by
      have hl := h.2
      simp only [Piece.isLambdaPipe, Bool.and_eq_true, decide_eq_true_eq] at hl
      exact hl.1.1
    rw [Piece.nesting, hlex] at ho
    cases ho
  have hone : level Piece.nesting 1 body = some 1 := level_add hbody 1
  rw [List.cons_append, firstLambda, firstLambdaAt, if_neg hpipe, level_opens ho, level,
    Option.bind_some, firstLambdaAt_append, firstLambdaAt_succ hbody, hone, Option.bind_some,
    Option.none_or, firstLambdaAt, if_neg (fun h => absurd h.1 Nat.one_ne_zero), level_closes hc]
  rfl

namespace ScopeTracker

/-- What a balanced body leaves of the stacks below it. -/
structure BodyLeaves (t : ScopeTracker) (body : List Piece) (schema : Schema) : Prop where
  stacked : (t.dispatchAll body schema).Stacked
  depth : (t.dispatchAll body schema).depth = t.depth
  est : (t.dispatchAll body schema).estStack = t.estStack
  ref : (t.dispatchAll body schema).refStack = t.refStack
  saves : ∃ own, (t.dispatchAll body schema).scopeSaves = own ++ t.scopeSaves ∧
    (∀ save ∈ own, save.depth = t.depth) ∧
    own.getLast? = (firstLambda body).map fun b => (t.dispatchAll b schema).ledger.save

/-- The saves of a closing list are its own. -/
theorem splitSaves {own rest : List ScopeSave} {n : Nat} (hown : ∀ save ∈ own, save.depth = n + 1)
    (hrest : ∀ save ∈ rest, save.depth ≤ n) :
    (own ++ rest).takeWhile (·.depth == n + 1) = own ∧
      (own ++ rest).dropWhile (·.depth == n + 1) = rest := by
  have hpos : ∀ save ∈ own, (save.depth == n + 1) = true := fun save hs =>
    beq_iff_eq.mpr (hown save hs)
  have hstop : rest.takeWhile (·.depth == n + 1) = [] ∧ rest.dropWhile (·.depth == n + 1) = rest := by
    cases rest with
    | nil => exact ⟨rfl, rfl⟩
    | cons save rest =>
      have hle := hrest save List.mem_cons_self
      have hne : (save.depth == n + 1) = false := beq_eq_false_iff_ne.mpr (by omega)
      rw [List.takeWhile_cons, List.dropWhile_cons, hne]
      exact ⟨rfl, rfl⟩
  rw [List.takeWhile_append_of_pos hpos, List.dropWhile_append_of_pos hpos, hstop.1, hstop.2,
    List.append_nil]
  exact ⟨rfl, rfl⟩

/-- The opener and the closer of a list give back the depth stacks. -/
theorem pop_push {n : Nat} {ds : List Nat} (h : Rising n ds) (pushed : Bool) :
    (if (if pushed then (n + 1) :: ds else ds).head? = some (n + 1) then
        (if pushed then (n + 1) :: ds else ds).tail
      else if pushed then (n + 1) :: ds else ds) = ds := by
  cases pushed with
  | true => simp
  | false =>
    have hne := h.head_ne
    simp [hne]

/-- The pieces of a list up to its first lambda pipe, or to its closer. -/
def untilLambda (body : List Piece) : List Piece := (firstLambda body).getD body

/-- What a list leaves. -/
structure ListLeaves (t : ScopeTracker) (o : Piece) (body : List Piece) (c : Piece)
    (schema : Schema) : Prop where
  stacked : (t.dispatchAll (o :: body ++ [c]) schema).Stacked
  depth : (t.dispatchAll (o :: body ++ [c]) schema).depth = t.depth
  est : (t.dispatchAll (o :: body ++ [c]) schema).estStack = t.estStack
  ref : (t.dispatchAll (o :: body ++ [c]) schema).refStack = t.refStack
  saves : (t.dispatchAll (o :: body ++ [c]) schema).scopeSaves = t.scopeSaves
  pipeline : (t.dispatchAll (o :: body ++ [c]) schema).pipeline =
    let inner := (t.dispatchAll (o :: untilLambda body) schema).pipeline
    if opensAny establishingMethods t.lastIdent then ⟨none, true, inner.tilde⟩ else inner

theorem listLeaves_of_body {t : ScopeTracker} (ht : t.Stacked) {o c : Piece} {body : List Piece}
    (ho : o.lexeme = .open) (hc : c.lexeme = .close) (hbal : Balanced Piece.nesting body)
    {schema : Schema} (hbody : BodyLeaves (t.dispatchToken o.text o.anchor schema) body schema) :
    ListLeaves t o body c schema := by
  have hopens := nesting_of_open ho
  have hcloses := nesting_of_close hc
  have hall : t.dispatchAll (o :: body ++ [c]) schema =
      (((t.dispatchToken o.text o.anchor schema).dispatchAll body schema).dispatchToken c.text
        c.anchor schema) := by
    rw [List.cons_append, dispatchAll_cons, dispatchAll_append, dispatchAll_cons, dispatchAll_nil]
  have hopened : (t.dispatchToken o.text o.anchor schema).ledger = t.ledger.openList o.anchor := by
    rw [ledger_dispatch, Ledger.step, ho]
  have hlevel : level Piece.nesting t.depth (o :: body ++ [c]) = some t.depth := by
    have hin := level_add hbal (t.depth + 1)
    rw [Nat.zero_add] at hin
    rw [List.cons_append, level_opens hopens, level_append, hin, Option.bind_some,
      level_closes hcloses]
    rfl
  obtain ⟨hstacked, hdepth⟩ := ht.dispatchAll hlevel schema
  -- the ledger in front of the closer
  generalize hu : t.dispatchToken o.text o.anchor schema = u at hbody hopened hall
  generalize hv : u.dispatchAll body schema = v at hall
  have hfour : u.depth = t.depth + 1 ∧
      u.estStack = (if opensAny establishingMethods t.lastIdent then (t.depth + 1) :: t.estStack
        else t.estStack) ∧
      u.refStack = (if opensAny refMethods t.lastIdent then (t.depth + 1) :: t.refStack
        else t.refStack) ∧ u.scopeSaves = t.scopeSaves :=
    ⟨congrArg Ledger.depth hopened, congrArg Ledger.est hopened, congrArg Ledger.ref hopened,
      congrArg Ledger.saves hopened⟩
  obtain ⟨hud, hue, hur, hus⟩ := hfour
  obtain ⟨own, hown, howndepth, hlast⟩ := hbody.saves
  have hvd := hbody.depth.trans hud
  have hve := hbody.est.trans hue
  have hvr := hbody.ref.trans hur
  rw [hus] at hown
  rw [hud] at howndepth
  rw [hv] at hvd hve hvr hown
  have hrest : ∀ save ∈ t.scopeSaves, save.depth ≤ t.depth := fun save hs =>
    ht.scopes.2 save.depth (List.mem_map_of_mem hs)
  obtain ⟨htake, hdrop⟩ := splitSaves howndepth hrest
  have hclosed : (v.dispatchToken c.text c.anchor schema).ledger = v.ledger.closeList := by
    rw [ledger_dispatch, Ledger.step, hc]
  have hinner : v.ledger.restored = (t.dispatchAll (o :: untilLambda body) schema).pipeline := by
    have hd : v.ledger.depth = t.depth + 1 := hvd
    have hs : v.ledger.saves = own ++ t.scopeSaves := hown
    rw [Ledger.restored, hd, hs, htake, hlast, dispatchAll_cons, hu, untilLambda]
    cases firstLambda body with
    | some b => rfl
    | none => exact congrArg pipeline hv.symm
  refine ⟨hstacked, hdepth, ?_, ?_, ?_, ?_⟩
  · rw [hall]
    refine (congrArg Ledger.est hclosed).trans ?_
    have he : v.ledger.est = v.estStack := rfl
    have hd : v.ledger.depth = t.depth + 1 := hvd
    rw [Ledger.closeList, he, hd, hve]
    exact pop_push ht.est _
  · rw [hall]
    refine (congrArg Ledger.ref hclosed).trans ?_
    have he : v.ledger.ref = v.refStack := rfl
    have hd : v.ledger.depth = t.depth + 1 := hvd
    rw [Ledger.closeList, he, hd, hvr]
    exact pop_push ht.ref _
  · rw [hall]
    refine (congrArg Ledger.saves hclosed).trans ?_
    have hs : v.ledger.saves = own ++ t.scopeSaves := hown
    have hd : v.ledger.depth = t.depth + 1 := hvd
    rw [Ledger.closeList, hs, hd]
    exact hdrop
  · rw [hall]
    refine (congrArg Ledger.pipeline hclosed).trans ?_
    have he : v.ledger.est = v.estStack := rfl
    have hd : v.ledger.depth = t.depth + 1 := hvd
    rw [Ledger.closeList, hinner, he, hd, hve]
    dsimp only
    cases opensAny establishingMethods t.lastIdent with
    | true => simp
    | false =>
      have hne := ht.est.head_ne
      simp [hne]

/-- A piece that neither opens nor closes changes the stacks by the save of
a lambda pipe only. -/
theorem step_flat {p : Piece} (hp : p.nesting = .flat) (schema : Schema) (l : Ledger) :
    (l.step schema p).est = l.est ∧ (l.step schema p).ref = l.ref ∧
      (l.step schema p).saves = if p.isLambdaPipe then l.save :: l.saves else l.saves := by
  have hnot : p.lexeme ≠ .pipe → p.isLambdaPipe = false := by
    intro hne
    simp [Piece.isLambdaPipe, hne]
  rw [Piece.nesting] at hp
  unfold Ledger.step
  cases hlex : p.lexeme with
  | pipe => cases p.isLambdaPipe <;> exact ⟨rfl, rfl, rfl⟩
  | «open» =>
    rw [hlex] at hp
    cases hp
  | close =>
    rw [hlex] at hp
    cases hp
  | _ =>
    rw [hnot (by rw [hlex]; simp)]
    exact ⟨rfl, rfl, rfl⟩

/-- **A balanced body leaves the stacks below it alone**, and of the scope
saves it adds the oldest is that of its first lambda pipe. -/
theorem bodyLeaves {body : List Piece} (hbody : Balanced Piece.nesting body) (schema : Schema) :
    ∀ t : ScopeTracker, t.Stacked → BodyLeaves t body schema := by
  refine Balanced.induction (motive := fun body => ∀ t : ScopeTracker, t.Stacked →
    BodyLeaves t body schema) ?_ ?_ ?_ hbody
  · exact fun t ht => ⟨ht, rfl, rfl, rfl, [], rfl, (fun save hs => by cases hs), rfl⟩
  · intro as p hp has ih t ht
    obtain ⟨hstacked, hdepth, hest, href, own, hsaves, hown, hlast⟩ := ih t ht
    have hall : t.dispatchAll (as ++ [p]) schema =
        (t.dispatchAll as schema).dispatchToken p.text p.anchor schema := by
      rw [dispatchAll_append, dispatchAll_cons, dispatchAll_nil]
    have hmade : (t.dispatchAll as schema).ledger.save.depth = t.depth := hdepth
    generalize hv : t.dispatchAll as schema = v at hstacked hdepth hest href hsaves hall hmade
    obtain ⟨hstacked', hdepth'⟩ := hstacked.dispatch (level_flat hp v.depth []) schema
    have hledger := ledger_dispatch v p schema
    obtain ⟨hse, hsr, hss⟩ := step_flat hp schema v.ledger
    have hfirst : firstLambda (as ++ [p]) = (firstLambda as).or
        (if p.isLambdaPipe then some as else none) := by
      rw [firstLambda_append has]
      congr 1
      rw [firstLambda, firstLambdaAt]
      cases p.isLambdaPipe with
      | true => simp
      | false => simp [firstLambdaAt]
    refine ⟨hall ▸ hstacked', ?_, ?_, ?_, ?_⟩
    · rw [hall]
      exact hdepth'.trans hdepth
    · rw [hall]
      exact ((congrArg Ledger.est hledger).trans hse).trans hest
    · rw [hall]
      exact ((congrArg Ledger.ref hledger).trans hsr).trans href
    · have hpushed : (v.dispatchToken p.text p.anchor schema).scopeSaves =
          if p.isLambdaPipe then v.ledger.save :: v.scopeSaves else v.scopeSaves :=
        (congrArg Ledger.saves hledger).trans hss
      rw [hall, hpushed, hsaves, hfirst]
      cases p.isLambdaPipe with
      | false => exact ⟨own, rfl, hown, by rw [hlast]; simp⟩
      | true =>
        refine ⟨v.ledger.save :: own, rfl, ?_, ?_⟩
        · intro save hsave
          rcases List.mem_cons.mp hsave with rfl | hsave
          · exact hmade
          · exact hown save hsave
        · rw [List.getLast?_cons, hlast]
          cases firstLambda as with
          | some b => rfl
          | none =>
            simp only [Option.map_none, Option.getD_none, Option.none_or, if_true, Option.map_some]
            rw [hv]
  · intro as o body c ho hc has hbody ih ihbody t ht
    have hopen : o.lexeme = .open := by
      rw [Piece.nesting] at ho
      cases hlex : o.lexeme <;> rw [hlex] at ho <;> first | rfl | cases ho
    have hclose : c.lexeme = .close := by
      rw [Piece.nesting] at hc
      cases hlex : c.lexeme <;> rw [hlex] at hc <;> first | rfl | cases hc
    obtain ⟨hstacked, hdepth, hest, href, own, hsaves, hown, hlast⟩ := ih t ht
    have hopened := hstacked.dispatch (level_opens ho (t.dispatchAll as schema).depth []) schema
    have hlist := listLeaves_of_body hstacked hopen hclose hbody (ihbody _ hopened.1)
    have hall : t.dispatchAll (as ++ o :: body ++ [c]) schema =
        (t.dispatchAll as schema).dispatchAll (o :: body ++ [c]) schema := by
      rw [List.append_assoc, dispatchAll_append]
    have hfirst : firstLambda (as ++ o :: body ++ [c]) = firstLambda as := by
      rw [List.append_assoc, firstLambda_append has, firstLambda_scope ho hc hbody]
      simp
    refine ⟨hall ▸ hlist.stacked, ?_, ?_, ?_, own, ?_, hown, ?_⟩
    · rw [hall]
      exact hlist.depth.trans hdepth
    · rw [hall]
      exact hlist.est.trans hest
    · rw [hall]
      exact hlist.ref.trans href
    · rw [hall]
      exact hlist.saves.trans hsaves
    · rw [hfirst]
      exact hlast

/-- **A closed list.** The stacks are what they were in front of it, and
the pipeline is what it was at the list's first lambda pipe, or its closer;
an establishing list makes it a named relation. -/
theorem listLeaves {t : ScopeTracker} (ht : t.Stacked) {o c : Piece} {body : List Piece}
    (ho : o.lexeme = .open) (hc : c.lexeme = .close) (hbody : Balanced Piece.nesting body)
    (schema : Schema) : ListLeaves t o body c schema := by
  have hopens := nesting_of_open ho
  have hopened := ht.dispatch (level_opens hopens t.depth []) schema
  exact listLeaves_of_body ht ho hc hbody (bodyLeaves hbody schema _ hopened.1)

end ScopeTracker

end PureCard
