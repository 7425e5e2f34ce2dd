/-
PureCard.RestoredBindings — a delimiter pair leaves no binding behind.

A binder that shadows a variable may move it between two maps, from the
class-bound variables to the relation rows or back, and one pair may bind
the same name many times. What is put back at the closer is a list of
saves, the latest first. That this restores both maps is not a fact about
the list: the maps answer what the lexical environment answers
(`scopes_refines`), and to the environment a pair is one frame put on and
taken off (`scopesFrom_pair`). The saves are found by their depth, which
the source counts in a `u32`: below 2^32 open delimiters.
-/
import PureCard.Schema.Pipelines

namespace PureCard

open Scopes ScopeTracker

namespace ScopeTracker

/-- The two maps are what their variables stand for. -/
theorem maps_eq_of_binding {t t' : ScopeTracker} (h : t'.binding = t.binding) :
    t'.varClass = t.varClass ∧ t'.relationRowVars = t.relationRowVars := by
  constructor
  · refine Finmap.ext_lookup fun v => ?_
    exact congrArg Binding.entry (congrFun h v)
  · refine Finset.ext fun v => ?_
    have hrow := congrArg Binding.row (congrFun h v)
    simpa [binding] using hrow

/-- The log has the saves whole. -/
theorem binderSaves_eq_of_log {t t' : ScopeTracker} (h : t'.asUndo.log = t.asUndo.log) :
    t'.binderSaves = t.binderSaves := by
  refine List.map_injective_iff.mpr (fun a b hab => ?_) h
  obtain ⟨d, n, c, r⟩ := a
  obtain ⟨d', n', c', r'⟩ := b
  simp only [Prod.mk.injEq, Binding.mk.injEq] at hab
  obtain ⟨rfl, rfl, rfl, rfl⟩ := hab
  rfl

/-- **A pair leaves the variables and the saves as they were.** -/
theorem asUndo_pair (schema : Schema) (front : List Piece) {o c : Piece} {body : List Piece}
    (ho : o.lexeme = .open) (hbody : Balanced Piece.nesting body) (hc : c.lexeme = .close) :
    (new.dispatchAll (front ++ (o :: body ++ [c])) schema).binding =
        (new.dispatchAll front schema).binding ∧
      (new.dispatchAll (front ++ (o :: body ++ [c])) schema).binderSaves =
        (new.dispatchAll front schema).binderSaves := by
  have hbefore := scopes_refines schema front
  have hafter := scopes_refines schema (front ++ (o :: body ++ [c]))
  rw [scopes_append, scopesFrom_pair ho hc hbody _ hbefore.ne_nil] at hafter
  exact ⟨hafter.store.trans hbefore.store.symm,
    binderSaves_eq_of_log (hafter.log.trans hbefore.log.symm)⟩

end ScopeTracker

/-- The tracker behind a delimiter pair against the one before it: `depth`
is the depth inside the pair. -/
structure BindingsRestored (before after : ScopeTracker) (depth : Nat) : Prop where
  varClass : after.varClass = before.varClass
  relationRowVars : after.relationRowVars = before.relationRowVars
  binderSaves : after.binderSaves = before.binderSaves
  scopeSaves : after.scopeSaves = before.scopeSaves
  binders : ∀ save ∈ after.binderSaves, save.depth < depth
  scopes : ∀ save ∈ after.scopeSaves, save.depth < depth

/-- **Lambda bindings are restored exactly.** Whatever a delimiter pair of
a live stream binds, behind its closer both maps are what they were before
its opener, and no save of its depth or a deeper one is left. -/
theorem bindings_restored {schema : Schema} {toks : List Bytes} {l : Lexer}
    {front body rest : List Piece} {o c : Piece}
    (hpieces : Lexer.start.tokens toks = some (l, front ++ (o :: body ++ [c]) ++ rest))
    (ho : o.lexeme = .open) (hbody : Balanced Piece.nesting body) (hc : c.lexeme = .close) :
    BindingsRestored (new.dispatchAll front schema)
      (new.dispatchAll (front ++ (o :: body ++ [c])) schema)
      (new.dispatchAll (front ++ [o]) schema).depth := by
  obtain ⟨j, hj, _⟩ := level_prefix (level_tokens hpieces)
  obtain ⟨k, hfront, _⟩ := level_prefix hj
  obtain ⟨hstacked, hdepth⟩ := stacked_new.dispatchAll hfront schema
  have hopened : level Piece.nesting 0 (front ++ [o]) = some (k + 1) := by
    rw [level_append, hfront, Option.bind_some, level_opens (nesting_of_open ho)]
    rfl
  have hinside := (stacked_new.dispatchAll hopened schema).2
  obtain ⟨hbinding, hbinders⟩ := asUndo_pair schema front ho hbody hc
  obtain ⟨hclass, hrows⟩ := maps_eq_of_binding hbinding
  have hscopes : (new.dispatchAll (front ++ (o :: body ++ [c])) schema).scopeSaves =
      (new.dispatchAll front schema).scopeSaves := by
    rw [dispatchAll_append]
    exact (listLeaves hstacked ho hc hbody schema).saves
  refine ⟨hclass, hrows, hbinders, hscopes, fun save hsave => ?_, fun save hsave => ?_⟩
  · rw [hbinders] at hsave
    have hle := hstacked.binders.2 save.depth (List.mem_map_of_mem hsave)
    omega
  · rw [hscopes] at hsave
    have hle := hstacked.scopes.2 save.depth (List.mem_map_of_mem hsave)
    omega

/-- The pieces of `|A.all()->filter(x|$x.toB->filter`. -/
def outerFilterPieces : List Piece :=
  [⟨ascii "|", .start⟩, ⟨ascii "A", .expectSource⟩, ⟨ascii ".", .inSourceIdent⟩,
   ⟨ascii "all", .afterDot⟩, ⟨ascii "(", .inIdent⟩, ⟨ascii ")", .inIdent⟩, ⟨ascii "->", .inIdent⟩,
   ⟨ascii "filter", .afterArrow⟩, ⟨ascii "(", .inIdent⟩, ⟨ascii "x", .expectValue⟩,
   ⟨ascii "|", .inIdent⟩, ⟨ascii "$", .inIdent⟩, ⟨ascii "x", .afterDollar⟩, ⟨ascii ".", .inIdent⟩,
   ⟨ascii "toB", .afterDot⟩, ⟨ascii "->", .inIdent⟩, ⟨ascii "filter", .afterArrow⟩]

/-- The inner `(x|true)` shadows the outer `x` and gives it back. -/
theorem bindings_restored_shadowed :
    BindingsRestored (new.dispatchAll outerFilterPieces .sample)
      (new.dispatchAll (outerFilterPieces ++ (⟨ascii "(", .inIdent⟩ ::
        [⟨ascii "x", .expectValue⟩, ⟨ascii "|", .inIdent⟩, ⟨ascii "true", .sawPipe⟩] ++
          [⟨ascii ")", .inIdent⟩])) .sample)
      (new.dispatchAll (outerFilterPieces ++ [⟨ascii "(", .inIdent⟩]) .sample).depth := by
  have hpieces : Lexer.start.tokens [ascii "|A.all()->filter(x|$x.toB->filter(x|true))"] =
      some (⟨.afterValue, [], [], .afterValue⟩, outerFilterPieces ++ (⟨ascii "(", .inIdent⟩ ::
        [⟨ascii "x", .expectValue⟩, ⟨ascii "|", .inIdent⟩, ⟨ascii "true", .sawPipe⟩] ++
          [⟨ascii ")", .inIdent⟩]) ++ [⟨ascii ")", .inIdent⟩]) := by
    decide +kernel
  exact bindings_restored hpieces (by decide) (by decide) (by decide)

end PureCard
