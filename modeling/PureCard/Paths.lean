/-
PureCard.Paths — a navigation carries its class.

`$u.p1…pk` is read over `2 + 2k` pieces. `SpellsPath` is those pieces and
`resolvePath` what `Schema::resolve` makes of the path. Where the header
of `u` bound it to a class, the tracker has the class the path reaches on
record at its end, whatever the stream left there before it
(`receiver_of_path`).
-/
import PureCard.Schema.Navigation

namespace PureCard

open Scopes ScopeTracker

/-! ## Paths -/

/-- Fold `resolve` over the steps of a path. -/
def Schema.resolvePath (schema : Schema) (cls : Bytes) (path : List Bytes) : Option Bytes :=
  path.foldlM (fun cls ident => (schema.resolve cls ident).bind Resolved.path?) cls

theorem Schema.resolvePath_concat {schema : Schema} {cls target : Bytes} {path : List Bytes}
    {ident : Bytes} (h : schema.resolvePath cls (path ++ [ident]) = some target) :
    ∃ mid mult, schema.resolvePath cls path = some mid ∧
      schema.resolve mid ident = some (.cls target mult) := by
  rw [resolvePath, List.foldlM_append] at h
  obtain ⟨mid, hmid, h⟩ := Option.bind_eq_some_iff.mp h
  simp only [List.foldlM_cons, List.foldlM_nil] at h
  obtain ⟨out, hout, hsame⟩ := Option.bind_eq_some_iff.mp h
  obtain ⟨r, hr, hpath⟩ := Option.bind_eq_some_iff.mp hout
  cases r with
  | cls path mult =>
    cases hpath
    cases hsame
    exact ⟨mid, mult, hmid, hr⟩
  | primitive _ _ => cases hpath
  | enum _ _ => cases hpath

/-- `$u.p1…pk` as pieces. -/
inductive SpellsPath (u : Bytes) : List Bytes → List Piece → Prop where
  | var {d p : Piece} (hd : d.IsMark Byte.dollar) (hp : p.IsName u [.afterDollar]) :
      SpellsPath u [] [d, p]
  | step {d p : Piece} {x : Bytes} {path : List Bytes} {ps : List Piece}
      (h : SpellsPath u path ps) (hd : d.IsMark Byte.dot) (hp : p.IsName x [.afterDot]) :
      SpellsPath u (path ++ [x]) (ps ++ [d, p])

/-! ## A navigation carries its class -/

theorem flat_of_ident {p : Piece} {text : Bytes} (h : p.lexeme = .ident text) :
    p.nesting = .flat := by
  rw [Piece.nesting, h]
  rfl

/-- A variable the dot would go on from, at its class. -/
theorem receiver_of_binding {t : ScopeTracker} {v cls : Bytes} (hv : t.pendingRefvar = some v)
    (h : t.binding v = .element (some cls)) : t.receiver = some cls := by
  have hentry := congrArg Binding.entry h
  have hrow := congrArg Binding.row h
  simp only [binding, Binding.element, decide_eq_false_iff_not] at hentry hrow
  rw [receiver, hv]
  simp only [if_neg hrow, classOf, hentry, Option.join_some]

/-- `$u` makes the class of `u` the receiver. -/
theorem receiver_of_var {schema : Schema} {t : ScopeTracker} {u cls : Bytes}
    (hu : t.binding u = .element (some cls)) {d p : Piece} (hd : d.IsMark Byte.dollar)
    (hp : p.IsName u [.afterDollar]) : (t.dispatchAll [d, p] schema).receiver = some cls := by
  have hdollar : d.lexeme = .dollar := by
    rw [hd.lexeme]
    decide
  obtain ⟨hlex, hanchor⟩ := hp
  have hundo : (t.dispatchAll [d, p] schema).asUndo = t.asUndo := by
    rw [dispatchAll_cons, dispatchAll_cons, dispatchAll_nil,
      asUndo_dispatchToken (flat_of_ident hlex) (by simp [hlex]),
      asUndo_dispatchToken (by rw [Piece.nesting, hdollar]; rfl) (by simp [hdollar])]
  have hbinding : (t.dispatchAll [d, p] schema).binding u = .element (some cls) := by
    rw [← hu]
    exact congrFun (congrArg Undo.store hundo) u
  have hvar : (t.dispatchAll [d, p] schema).pendingRefvar = some u := by
    have hnav := nav_dispatch_ident hlex (t.dispatchToken d.text d.anchor schema) schema
    rw [List.mem_singleton.mp hanchor] at hnav
    rw [dispatchAll_cons, dispatchAll_cons, dispatchAll_nil, List.mem_singleton.mp hanchor]
    exact congrArg Nav.refvar hnav
  exact receiver_of_binding hvar hbinding

/-- A step of a navigation moves the receiver along. -/
theorem receiver_of_step {schema : Schema} {t : ScopeTracker} {cls target : Bytes}
    {mult : Multiplicity} (h : t.receiver = some cls) {d p : Piece} {x : Bytes}
    (hd : d.lexeme = .dot) (hp : p.IsName x [.afterDot])
    (hx : schema.resolve cls x = some (.cls target mult)) :
    (t.dispatchAll [d, p] schema).receiver = some target ∧
      (t.dispatchAll [d, p] schema).lastNavClass = some target := by
  obtain ⟨hlex, hanchor⟩ := hp
  have hrow := receiverIsRow_eq_false h
  have hdot := nav_dispatch_dot hd t schema
  rw [h, hrow] at hdot
  have hnav := nav_dispatch_ident hlex (t.dispatchToken d.text d.anchor schema) schema
  rw [List.mem_singleton.mp hanchor] at hnav
  simp only [hdot, Nav.member, Bool.false_eq_true, if_false, hx] at hnav
  rw [dispatchAll_cons, dispatchAll_cons, dispatchAll_nil, List.mem_singleton.mp hanchor]
  have hvar := congrArg Nav.refvar hnav
  have hcursor := congrArg Nav.cursor hnav
  simp only [nav] at hvar hcursor
  refine ⟨?_, congrArg Nav.last hnav⟩
  unfold receiver
  rw [hvar, hcursor]

/-- **A navigation leaves the class it reaches**, whatever was left before
it. -/
theorem receiver_of_path {schema : Schema} {t : ScopeTracker} {u cls : Bytes}
    (hu : t.binding u = .element (some cls)) {path : List Bytes} {ps : List Piece}
    (h : SpellsPath u path ps) {target : Bytes}
    (hpath : schema.resolvePath cls path = some target) :
    (t.dispatchAll ps schema).receiver = some target ∧
      (path ≠ [] → (t.dispatchAll ps schema).lastNavClass = some target) := by
  induction h generalizing target with
  | var hd hp =>
    cases hpath
    exact ⟨receiver_of_var hu hd hp, fun hne => absurd rfl hne⟩
  | step _ hd hp ih =>
    obtain ⟨mid, mult, hmid, hx⟩ := Schema.resolvePath_concat hpath
    have hdot : classify [Byte.dot] = .dot := by decide
    have hstep := receiver_of_step (ih hmid).1 (hd.lexeme.trans hdot) hp hx
    rw [dispatchAll_append]
    exact ⟨hstep.1, fun _ => hstep.2⟩

end PureCard
