/-
PureCard.NestedPipelines — what a delimiter pair leaves of the pipeline.

A closer puts the class of the pipeline and the flag of a named relation
back to what they were at the list's first lambda pipe. What is set
before that pipe, or in a list without one, stays: the class of a source
that stands in an argument by itself, the flag a nested `all()` takes down
or an establishing list puts up. So a subquery in an argument list keys
the outer pipeline again.

`classSetter` and `flagSetter` say what sets the two fields, and
`nested_pipeline` when a pair keeps them: when every setting in the pair
that is in force at its closer is the value from before the opener.
-/
import PureCard.Lib.Registers
import PureCard.TableScopes

namespace PureCard

open Scopes ScopeTracker

/-! ## The two fields as registers -/

/-- The class path a piece spells. -/
def Piece.classPath (schema : Schema) (p : Piece) : Option Bytes :=
  match p.lexeme with
  | .ident text => if schema.hasClass text then some text else none
  | _ => none

/-- A class path sets the class of the pipeline, an establishing list
clears it. -/
def classSetter (schema : Schema) : Setter Piece (Option Bytes) where
  item _ p := (p.classPath schema).map some
  scope ps := if opensAny establishingMethods (lastIdentOf ps) then some none else none

/-- A nested `all()` takes the flag down, an establishing list puts it up. -/
def flagSetter : Setter Piece Bool where
  item ps p :=
    if p.lexeme = .open ∧ lastIdentOf ps = some sourceMethod ∧ openLists ps ≠ [] then some false
    else none
  scope ps := if opensAny establishingMethods (lastIdentOf ps) then some true else none

section

variable {schema : Schema}

/-- A setting of the class is in force after the pieces. -/
abbrev ClassInForce (schema : Schema) (front : List Piece) (cls : Option Bytes) (ps : List Piece) :
    Prop := (classSetter schema).InForce Piece.nesting untilLambda front cls ps

/-- A setting of the flag is in force after the pieces. -/
abbrev FlagInForce (front : List Piece) (flag : Bool) (ps : List Piece) : Prop :=
  flagSetter.InForce Piece.nesting untilLambda front flag ps

/-- Only a class path and a closer touch the class of the pipeline. -/
theorem curClass_dispatch {p : Piece} (hp : p.nesting ≠ .closes) (t : ScopeTracker) :
    (t.dispatchToken p.text p.anchor schema).curClass = (p.classPath schema).or t.curClass := by
  have hstep : (t.ledger.step schema p).pipeline.cls = (p.classPath schema).or t.curClass := by
    rw [Piece.nesting] at hp
    unfold Ledger.step Piece.classPath
    cases hlex : p.lexeme with
    | ident text =>
      dsimp only
      cases schema.hasClass text <;> rfl
    | pipe =>
      dsimp only
      cases p.isLambdaPipe <;> rfl
    | «open» =>
      simp only [Ledger.openList]
      split <;> rfl
    | close =>
      rw [hlex] at hp
      exact absurd rfl hp
    | _ => rfl
  exact (congrArg (·.pipeline.cls) (ledger_dispatch t p schema)).trans hstep

theorem curClass_item {ps : List Piece} {p : Piece} (hp : p.nesting ≠ .closes) :
    (new.dispatchAll (ps ++ [p]) schema).curClass =
      ((classSetter schema).item ps p).getD (new.dispatchAll ps schema).curClass := by
  rw [dispatchAll_append, dispatchAll_cons, dispatchAll_nil, curClass_dispatch hp]
  simp only [classSetter]
  cases p.classPath schema <;> rfl

theorem curClass_scope {ps body : List Piece} {o c : Piece} {n : Nat}
    (hps : level Piece.nesting 0 ps = some n) (ho : o.nesting = .opens)
    (hbody : Balanced Piece.nesting body) (hc : c.nesting = .closes) :
    (new.dispatchAll (ps ++ o :: body ++ [c]) schema).curClass =
      ((classSetter schema).scope ps).getD
        (new.dispatchAll (ps ++ o :: untilLambda body) schema).curClass := by
  have hstacked := (stacked_new.dispatchAll hps schema).1
  have hlist := (listLeaves hstacked (lexeme_of_opens ho) (lexeme_of_closes hc) hbody
    schema).pipeline
  have hlast : (new.dispatchAll ps schema).lastIdent = lastIdentOf ps := (outlines schema ps).last
  rw [hlast] at hlist
  rw [List.append_assoc, dispatchAll_append new ps (o :: body ++ [c]),
    dispatchAll_append new ps (o :: untilLambda body)]
  refine (congrArg Pipeline.cls hlist).trans ?_
  simp only [classSetter]
  cases opensAny establishingMethods (lastIdentOf ps) <;> rfl

/-- The class of the pipeline obeys its setter. -/
theorem classSetter_sets : (classSetter schema).Sets Piece.nesting untilLambda
    fun ps => (new.dispatchAll ps schema).curClass where
  item hp := curClass_item hp
  scope hps ho hbody hc := curClass_scope hps ho hbody hc

/-- The flag obeys its setter. -/
theorem flagSetter_sets : flagSetter.Sets Piece.nesting untilLambda
    fun ps => (new.dispatchAll ps schema).relExplicit where
  item := by
    intro ps p hp
    cases hk : p.nesting with
    | opens =>
      have hiff := @relExplicit_open schema ps _ (lexeme_of_opens hk)
      simp only [flagSetter, lexeme_of_opens hk, true_and]
      by_cases hall : lastIdentOf ps = some sourceMethod ∧ openLists ps ≠ []
      · rw [if_pos hall, Option.getD_some, Bool.eq_false_iff]
        exact fun h => (hiff.mp h).1 hall
      · rw [if_neg hall, Option.getD_none, Bool.eq_iff_iff]
        exact ⟨fun h => (hiff.mp h).2, fun h => hiff.mpr ⟨hall, h⟩⟩
    | flat =>
      have hne : p.lexeme ≠ .open := by
        intro hlex
        rw [nesting_of_open hlex] at hk
        cases hk
      simp only [flagSetter, hne, false_and, if_false, Option.getD_none]
      exact relExplicit_flat ps hk
    | closes => exact absurd hk hp
  scope := by
    intro n ps body o c hps ho hbody hc
    rw [relExplicit_list hps (lexeme_of_opens ho) hbody (lexeme_of_closes hc)]
    simp only [flagSetter]
    cases opensAny establishingMethods (lastIdentOf ps) <;> rfl

end

/-! ## A pair and its pipeline -/

/-- The opener after `front` opens the argument list of one of `names`. -/
def OpensList (names : List Bytes) (front : List Piece) (o : Piece) : Prop :=
  o.IsMark Byte.lparen ∧ ∃ m ∈ names, front.getLast?.map Piece.lexeme = some (.ident m)

instance (names : List Bytes) (front : List Piece) (o : Piece) :
    Decidable (OpensList names front o) :=
  inferInstanceAs (Decidable (o.text = [Byte.lparen] ∧ _))

/-- Just after the pair `o body c` the class and the flag of the pipeline
are what they were just before it; after an establishing list there is no
class and the flag is up. -/
def KeepsPipeline (schema : Schema) (front : List Piece) (o : Piece) (body : List Piece)
    (c : Piece) : Prop :=
  let before := new.dispatchAll front schema
  let after := new.dispatchAll (front ++ (o :: body ++ [c])) schema
  if OpensList establishingMethods front o then
    after.curClass = none ∧ after.relExplicit = true
  else after.curClass = before.curClass ∧ after.relExplicit = before.relExplicit

instance (schema : Schema) (front : List Piece) (o : Piece) (body : List Piece) (c : Piece) :
    Decidable (KeepsPipeline schema front o body c) := by
  unfold KeepsPipeline
  infer_instance

/-- The tracker takes an establishing list for one. -/
theorem opensAny_of_opensList {names : List Bytes} {front : List Piece} {o : Piece}
    (h : OpensList names front o) : opensAny names (lastIdentOf front) = true := by
  obtain ⟨_, m, hm, hlast⟩ := h
  obtain ⟨p, hp, hlex⟩ := Option.map_eq_some_iff.mp hlast
  obtain ⟨pre, rfl⟩ := List.getLast?_eq_some_iff.mp hp
  have hident : lastIdentOf (pre ++ [p]) = some m := by
    rw [lastIdentOf, outline, List.foldl_append, List.foldl_cons, List.foldl_nil, Outline.step,
      Piece.recordsIdent, hlex]
  rw [hident]
  simpa [opensAny] using hm

/-- **Nested pipelines.** A delimiter pair of a live stream leaves the
class and the flag of the pipeline alone, and an establishing list makes
it a named relation, exactly when the pair is such a list, or every
setting of the two in the pair that is in force at its closer is the
value from before its opener. -/
theorem nested_pipeline {schema : Schema} {toks : List Bytes} {l : Lexer}
    {front body rest : List Piece} {o c : Piece}
    (hpieces : Lexer.start.tokens toks = some (l, front ++ (o :: body ++ [c]) ++ rest))
    (ho : o.lexeme = .open) (hbody : Balanced Piece.nesting body) (hc : c.lexeme = .close) :
    KeepsPipeline schema front o body c ↔
      OpensList establishingMethods front o ∨
        (∀ cls, ClassInForce schema front cls (o :: body ++ [c]) →
          cls = (new.dispatchAll front schema).curClass) ∧
        (∀ flag, FlagInForce front flag (o :: body ++ [c]) →
          flag = (new.dispatchAll front schema).relExplicit) := by
  have hopens := nesting_of_open ho
  have hcloses := nesting_of_close hc
  obtain ⟨j, hj, _⟩ := level_prefix (level_tokens hpieces)
  obtain ⟨k, hfront, _⟩ := level_prefix hj
  have hpair : level Piece.nesting 0 (o :: body ++ [c]) = some 0 := by
    have hin := level_add hbody 1
    rw [List.cons_append, level_opens hopens, level_append, hin, Option.bind_some,
      level_closes hcloses]
    rfl
  by_cases hlist : OpensList establishingMethods front o
  · -- the tracker reads the list as the text does
    have hopened := opensAny_of_opensList hlist
    have hcls := @curClass_scope schema _ _ _ _ _ hfront hopens hbody hcloses
    have hflag := @relExplicit_list schema _ _ _ _ _ hfront ho hbody hc
    rw [List.append_assoc] at hcls hflag
    simp only [classSetter, hopened, if_true, Option.getD_some] at hcls
    rw [hopened, Bool.true_or] at hflag
    refine iff_of_true ?_ (.inl hlist)
    rw [KeepsPipeline, if_pos hlist]
    exact ⟨hcls, hflag⟩
  · rw [KeepsPipeline, if_neg hlist]
    have hcls := (@classSetter_sets schema).same_iff untilLambda_prefix hfront hpair
    have hflag := (@flagSetter_sets schema).same_iff untilLambda_prefix hfront hpair
    rw [or_iff_right hlist, ← hcls, ← hflag]

/-! ### Two streams -/

/-- The pieces of `|A.all()->` and a method. -/
def stepFront (method : String) : List Piece :=
  [⟨ascii "|", .start⟩, ⟨ascii "A", .expectSource⟩, ⟨ascii ".", .inSourceIdent⟩,
   ⟨ascii "all", .afterDot⟩, ⟨ascii "(", .inIdent⟩, ⟨ascii ")", .inIdent⟩,
   ⟨ascii "->", .inIdent⟩, ⟨ascii method, .afterArrow⟩]

/-- The pieces of `B.all()`, read at `anchor`. -/
def nestedSource (anchor : State) : List Piece :=
  [⟨ascii "B", anchor⟩, ⟨ascii ".", .inIdent⟩, ⟨ascii "all", .afterDot⟩, ⟨ascii "(", .inIdent⟩,
   ⟨ascii ")", .inIdent⟩]

/-- The pieces of `x|B.all()` in an argument list. -/
def lambdaBody : List Piece :=
  [⟨ascii "x", .expectValue⟩, ⟨ascii "|", .inIdent⟩] ++ nestedSource .sawPipe

def listOpener : Piece := ⟨ascii "(", .inIdent⟩

def listCloser : Piece := ⟨ascii ")", .inIdent⟩

/-- In `|A.all()->filter(x|B.all())` the source stands in a lambda body, and
the pair keeps the class `A`. -/
theorem nested_pipeline_lambda :
    KeepsPipeline Schema.sample (stepFront "filter") listOpener lambdaBody listCloser := by
  have hpieces : Lexer.start.tokens [ascii "|A.all()->filter(x|B.all())"] =
      some (⟨.afterValue, [], [], .afterValue⟩,
        stepFront "filter" ++ (listOpener :: lambdaBody ++ [listCloser]) ++ []) := by
    decide +kernel
  have hcls : (new.dispatchAll (stepFront "filter" ++ (listOpener :: lambdaBody ++ [listCloser]))
      Schema.sample).curClass = (new.dispatchAll (stepFront "filter") Schema.sample).curClass := by
    decide +kernel
  have hflag : (new.dispatchAll (stepFront "filter" ++ (listOpener :: lambdaBody ++ [listCloser]))
      Schema.sample).relExplicit =
        (new.dispatchAll (stepFront "filter") Schema.sample).relExplicit := by
    decide +kernel
  have hfront : level Piece.nesting 0 (stepFront "filter") = some 0 := by decide +kernel
  have hpair : level Piece.nesting 0 (listOpener :: lambdaBody ++ [listCloser]) = some 0 := by
    decide +kernel
  have hlex : listOpener.lexeme = .open ∧ Balanced Piece.nesting lambdaBody ∧
      listCloser.lexeme = .close := by
    decide +kernel
  -- rewriting, so that `KeepsPipeline` is never evaluated
  rw [@nested_pipeline .sample _ _ (stepFront "filter") lambdaBody [] listOpener listCloser
    hpieces hlex.1 hlex.2.1 hlex.2.2]
  refine .inr ⟨?_, ?_⟩
  · intro cls hforce
    have hset := (@classSetter_sets .sample).eq_of_inForce untilLambda_prefix hfront hpair hforce
    exact hset.symm.trans hcls
  · intro flag hforce
    have hset := (@flagSetter_sets .sample).eq_of_inForce untilLambda_prefix hfront hpair hforce
    exact hset.symm.trans hflag

/-- In `|A.all()->join(B.all())->map(z|$z.` the source stands in the
argument list itself: the pair leaves the class `B`, and the binder of the
outer pipeline is narrowed to the members of `B`. -/
theorem argument_source_leaks :
    ¬ KeepsPipeline Schema.sample (stepFront "join") listOpener (nestedSource .expectValue)
      listCloser ∧
    (∃ l rest, Lexer.start.tokens [ascii "|A.all()->join(B.all())->map(z|$z."] = some (l,
      stepFront "join" ++ (listOpener :: nestedSource .expectValue ++ [listCloser]) ++ rest)) ∧
    (drive Schema.sample freshStart [ascii "|A.all()->join(B.all())->map(z|$z."]).map
      (fun c => c.2.position c.1.state) = some (.member (ascii "B")) := by
  have hleaks : ¬ KeepsPipeline Schema.sample (stepFront "join") listOpener
      (nestedSource .expectValue) listCloser := by
    decide +kernel
  refine ⟨hleaks, ⟨⟨.afterDot, [.paren], [], .afterDot⟩,
    [⟨ascii "->", .inIdent⟩, ⟨ascii "map", .afterArrow⟩, ⟨ascii "(", .inIdent⟩,
      ⟨ascii "z", .expectValue⟩, ⟨ascii "|", .inIdent⟩, ⟨ascii "$", .inIdent⟩,
      ⟨ascii "z", .afterDollar⟩, ⟨ascii ".", .inIdent⟩], ?_⟩, ?_⟩
  · decide +kernel
  · decide +kernel

end PureCard
