/-
PureCard.Receivers — the class a lambda's binder gets from its receiver.

In `recv->m(v|` the binder should stand for an element of `recv`. The list
takes what the last arrow captured, if no delimiter came between, and
otherwise the class of the pipeline. An arrow captures the class that a
navigation left on record, or else that of the pipeline; but a `-` and a
`>` that arrive in two tokens are no arrow to the tracker.

Both classes can be read off the text: `LeftBy` says which step is left on
record, and `ClassInForce` which class path holds. `ArrowTakes` and
`ListTakes` are the condition in these terms. A navigation `$u.p1…pk` with
a step meets it, whatever came before (`arrowTakes_of_navigation`). In
front of any other arrow there is only what the stream happened to leave:
a bare `$u->` reads neither `$u` nor its class, and behind `->filter(..)`
the last navigation of the body is still there. `lambda_receiver` says
that the binder is right exactly when the text says so, and
`filter_body_leaks` shows a filter body's navigation binding the next
lambda to its own class.
-/
import PureCard.Binders
import PureCard.NavigationTyping
import PureCard.NestedPipelines

namespace PureCard

open Scopes ScopeTracker

/-! ## Receivers -/

/-- A number of `->filter(..)` steps, whatever their bodies. -/
inductive SpellsFilters : Nat → List Piece → Prop where
  | nil : SpellsFilters 0 []
  | step {n : Nat} {f o c : Piece} {as body ps : List Piece} (h : SpellsFilters n ps)
      (ha : SpellsArrow as) (hf : f.IsName (ascii "filter") [.afterArrow])
      (ho : o.IsMark Byte.lparen) (hbody : Balanced Piece.nesting body)
      (hc : c.IsMark Byte.rparen) :
      SpellsFilters (n + 1) (ps ++ as ++ f :: o :: body ++ [c])

/-- The receivers: `$u.p1…pk` or `P.all()`, then some filters. -/
inductive ReceiverForm where
  | path (steps filters : Nat)
  | source (filters : Nat)
  deriving DecidableEq, Repr

/-- `recv`, read from the tracker `t`, stands for elements of class `cls`.
The class path of a source may be cut into several pieces: in a value
position it is. -/
inductive IsReceiver (schema : Schema) (t : ScopeTracker) :
    ReceiverForm → Bytes → List Piece → Prop where
  | path {u cls target : Bytes} {path : List Bytes} {n : Nat} {ps fs : List Piece}
      (hu : t.binding u = .element (some cls))
      (hpath : schema.resolvePath cls path = some target) (hps : SpellsPath u path ps)
      (hfs : SpellsFilters n fs) : IsReceiver schema t (.path path.length n) target (ps ++ fs)
  | source {cls : Bytes} {n : Nat} {ps fs : List Piece} {d a o c : Piece}
      (hcls : schema.hasClass cls = true) (hps : ps.flatMap Piece.text = cls)
      (hd : d.IsMark Byte.dot) (ha : a.IsName sourceMethod [.afterDot]) (ho : o.IsMark Byte.lparen)
      (hc : c.IsMark Byte.rparen) (hfs : SpellsFilters n fs) :
      IsReceiver schema t (.source n) cls (ps ++ [d, a, o, c] ++ fs)

/-- A navigation with at least one step, and nothing after it. -/
def ReceiverForm.isNavigation : ReceiverForm → Bool
  | .path steps filters => 0 < steps && filters = 0
  | .source _ => false

/-! ## What an arrow takes -/

section

variable {schema : Schema} {ps : List Piece}

/-- The two fields that hold the class a navigation reached agree. -/
theorem last_eq_cursor (ps : List Piece) :
    (new.dispatchAll ps schema).lastNavClass = (new.dispatchAll ps schema).navCursor := by
  have hmember : ∀ (n : Nav) (x : Bytes), n.last = n.cursor →
      (n.member schema x).last = (n.member schema x).cursor := by
    intro n x hn
    unfold Nav.member
    repeat' split
    all_goals first | rfl | exact hn
  have hstep : ∀ (t : ScopeTracker) (p : Piece), t.nav.last = t.nav.cursor →
      (t.dispatchToken p.text p.anchor schema).nav.last =
        (t.dispatchToken p.text p.anchor schema).nav.cursor := by
    intro t p ht
    cases hlex : p.lexeme with
    | ident text =>
      rw [nav_dispatch_ident hlex]
      split
      · exact ht
      · exact hmember _ _ ht
      · exact ht
    | dot =>
      rw [nav_dispatch_dot hlex]
      exact ht
    | arrow => rw [nav_dispatch_arrow hlex]
    | _ =>
      rw [nav_dispatch_other (by simp [navigates, hlex])]
      exact ht
  induction ps using List.reverseRecOn with
  | nil => rfl
  | append_singleton ps p ih =>
    rw [dispatchAll_append, dispatchAll_cons, dispatchAll_nil]
    exact hstep _ p ih

/-- A step that is left over is on record. -/
theorem cursor_of_leftBy (hps : Truthful ps) {n : Nat} {cls : Bytes}
    (h : LeftBy schema n cls ps) : (new.dispatchAll ps schema).navCursor = some cls := by
  have hbinding : ∀ (qs : List Piece) (v : Bytes), (new.dispatchAll qs schema).binding v =
      (scopes schema qs).lookup freeStore v := fun qs v => congrFun (binding_dispatchAll schema qs) v
  induction h with
  | ofVar hv hfind hd hp hx =>
    rename_i v base x cls n qs d p
    have hbound : (new.dispatchAll qs schema).binding v = .element (some base) := by
      rw [hbinding, Frames.lookup, hfind, Option.getD_some]
    have hreceiver := receiver_of_binding (@refvar_of_awaits schema qs v n hv) hbound
    rw [dispatchAll_append, cursor_step hd hp, hreceiver, receiverIsRow_eq_false hreceiver]
    exact hx
  | ofStep hnone hleft hd hp hx ih =>
    rename_i base x cls n qs d p
    have hvar := (@not_awaits_iff schema qs hps.left).mp hnone
    have hreceiver : (new.dispatchAll qs schema).receiver = some base :=
      (receiver_of_none hvar).trans (ih hps.left)
    rw [dispatchAll_append, cursor_step hd hp, hreceiver, receiverIsRow_eq_false hreceiver]
    exact hx
  | untyped hv hfree hleft hd hp ih =>
    rename_i qs d p
    have hvar := @refvar_of_awaits schema qs _ _ hv
    rw [← hbinding] at hfree
    obtain ⟨hrow, hclass, -⟩ := receiver_of_refvar hvar
    have hnorow : (new.dispatchAll qs schema).receiverIsRow = false := by
      rw [← Bool.not_eq_true]
      intro hr
      rw [hrow hr] at hfree
      cases hfree
    have hnone : (new.dispatchAll qs schema).receiver = none := by
      have hmap := hclass hnorow
      rw [hfree] at hmap
      exact Option.map_eq_none_iff.mp hmap.symm
    rw [dispatchAll_append, cursor_step hd hp, hnorow, hnone]
    exact ih hps.left
  | other _ harrow hname ih =>
    rw [dispatchAll_append, dispatchAll_cons, dispatchAll_nil, cursor_other harrow hname]
    exact ih hps.left

/-- **The class on record** is that of the step left over. -/
theorem last_eq_some_iff (hps : Truthful ps) {cls : Bytes} :
    (new.dispatchAll ps schema).lastNavClass = some cls ↔ ∃ n, LeftBy schema n cls ps := by
  rw [last_eq_cursor]
  exact ⟨leftBy_of_cursor hps, fun ⟨_, hn⟩ => cursor_of_leftBy hps hn⟩

/-- A class path in force after the pieces, if there is one, is `cls`. -/
def RunsOver (schema : Schema) (cls : Bytes) (ps : List Piece) : Prop :=
  ∀ other, ClassInForce schema [] (some other) ps → other = cls

/-- The pipeline has the class of the class path in force. -/
theorem runsOver_iff {k : Nat} (hlevel : level Piece.nesting 0 ps = some k) {cls : Bytes} :
    RunsOver schema cls ps ↔ (new.dispatchAll ps schema).curClass = none ∨
      (new.dispatchAll ps schema).curClass = some cls := by
  have hsets := @classSetter_sets schema
  have hfront : level Piece.nesting 0 ([] : List Piece) = some 0 := rfl
  have hforce : ∀ v, ClassInForce schema [] v ps → (new.dispatchAll ps schema).curClass = v :=
    fun v hv => hsets.eq_of_inForce untilLambda_prefix hfront hlevel hv
  constructor
  · intro hruns
    rcases hsets.inForce_or_same untilLambda_prefix hfront hlevel with ⟨v, hv⟩ | hsame
    · rw [hforce v hv]
      cases v with
      | none => exact .inl rfl
      | some other => exact .inr (congrArg some (hruns other hv))
    · exact .inl hsame
  · intro hcls other hother
    rw [hforce _ hother] at hcls
    rcases hcls with hcls | hcls
    · cases hcls
    · exact Option.some.inj hcls

/-- An arrow after the pieces captures `cls` or no class: a step left over
reached `cls`, and with none left over the pipeline runs over `cls`, if
over any class. -/
def ArrowTakes (schema : Schema) (cls : Bytes) (ps : List Piece) : Prop :=
  (∀ n other, LeftBy schema n other ps → other = cls) ∧
    ((∃ n other, LeftBy schema n other ps) ∨ RunsOver schema cls ps)

theorem arrowTakes_iff (hps : Truthful ps) {k : Nat} (hlevel : level Piece.nesting 0 ps = some k)
    {cls : Bytes} : ArrowTakes schema cls ps ↔
      (new.dispatchAll ps schema).lastNavClass.or (new.dispatchAll ps schema).curClass = none ∨
      (new.dispatchAll ps schema).lastNavClass.or (new.dispatchAll ps schema).curClass =
        some cls := by
  rw [ArrowTakes, runsOver_iff hlevel]
  have hleft := fun other => @last_eq_some_iff schema ps hps other
  cases hlast : (new.dispatchAll ps schema).lastNavClass with
  | none =>
    have hnot : ∀ n other, ¬ LeftBy schema n other ps := by
      intro n other hn
      have hsome := (hleft other).mpr ⟨n, hn⟩
      rw [hlast] at hsome
      cases hsome
    simp [hnot]
  | some reached =>
    obtain ⟨n, hn⟩ := (hleft reached).mp hlast
    rw [Option.some_or]
    constructor
    · rintro ⟨hall, -⟩
      exact .inr (congrArg some (hall n reached hn))
    · rintro (hnone | hsame)
      · cases hnone
      · refine ⟨fun m other hm => ?_, .inl ⟨n, reached, hn⟩⟩
        have hsome := (hleft other).mpr ⟨m, hm⟩
        rw [hlast] at hsome
        exact Option.some.inj (hsome.symm.trans hsame)

/-! ### The list behind it -/

/-- The arrow behind `front` still waits for its list: since then there was
no other arrow and no delimiter. -/
def ArrowWaits (front ps : List Piece) : Prop :=
  ∃ a rest, ps = front ++ a :: rest ∧ a.lexeme = .arrow ∧
    ∀ q ∈ rest, q.lexeme ≠ .arrow ∧ q.nesting = .flat

theorem pending_of_waits {front : List Piece} (h : ArrowWaits front ps) :
    (new.dispatchAll ps schema).pendingArrowReceiver =
      some ((new.dispatchAll front schema).lastNavClass.or
        (new.dispatchAll front schema).curClass) := by
  obtain ⟨a, rest, rfl, ha, hrest⟩ := h
  induction rest using List.reverseRecOn with
  | nil =>
    rw [dispatchAll_append, dispatchAll_cons, dispatchAll_nil]
    exact pending_arrow ha _ schema
  | append_singleton rest q ih =>
    obtain ⟨harrow, hflat⟩ := hrest q (by simp)
    have hsplit : front ++ a :: (rest ++ [q]) = front ++ a :: rest ++ [q] := by simp
    rw [hsplit, dispatchAll_append, dispatchAll_cons, dispatchAll_nil, pending_other harrow hflat]
    exact ih fun x hx => hrest x (List.mem_append_left _ hx)

theorem waits_of_pending {receiver : Option Bytes}
    (h : (new.dispatchAll ps schema).pendingArrowReceiver = some receiver) :
    ∃ front, ArrowWaits front ps := by
  induction ps using List.reverseRecOn with
  | nil => cases h
  | append_singleton ps p ih =>
    rw [dispatchAll_append, dispatchAll_cons, dispatchAll_nil] at h
    by_cases harrow : p.lexeme = .arrow
    · exact ⟨ps, p, [], rfl, harrow, fun q hq => by cases hq⟩
    · cases hk : p.nesting with
      | opens =>
        have hopen := congrArg Prod.fst (parens_open (lexeme_of_opens hk)
          (new.dispatchAll ps schema) schema)
        have hnone := hopen.symm.trans h
        cases hnone
      | closes =>
        rw [pending_close (lexeme_of_closes hk)] at h
        cases h
      | flat =>
        rw [pending_other harrow hk] at h
        obtain ⟨front, a, rest, rfl, ha, hrest⟩ := ih h
        refine ⟨front, a, rest ++ [p], by simp, ha, fun q hq => ?_⟩
        rcases List.mem_append.mp hq with hq | hq
        · exact hrest q hq
        · rw [List.mem_singleton.mp hq]
          exact ⟨harrow, hk⟩

/-- The list that opens behind the pieces, an arrow and the name `m` takes
`cls` or no class. Behind an arrow in one piece that is what the arrow
captures. An arrow in two pieces captures nothing: an earlier one that
still waits is taken, and otherwise the class of the pipeline, which the
name `m` may be. -/
def ListTakes (schema : Schema) (cls : Bytes) (ps arrow : List Piece) (m : Piece) : Prop :=
  if arrow.length = 1 then ArrowTakes schema cls ps
  else (∀ front, ArrowWaits front ps → ArrowTakes schema cls front) ∧
    ((∃ front, ArrowWaits front ps) ∨ RunsOver schema cls (ps ++ arrow ++ [m]))

/-- The class a list takes that opens behind an arrow and the name `m`. -/
def listReceiver (t : ScopeTracker) (schema : Schema) (arrow : List Piece) (m : Piece) :
    Option Bytes :=
  if arrow.length = 1 then t.lastNavClass.or t.curClass
  else t.pendingArrowReceiver.getD ((m.classPath schema).or t.curClass)

/-- An arrow in two pieces and a name leave what waits alone. -/
theorem split_dispatchAll {d g m : Piece} {method : Bytes} (hd : d.IsMark Byte.dash)
    (hg : g.IsMark Byte.gt) (hm : m.lexeme = .ident method) (t : ScopeTracker) :
    (t.dispatchAll ([d, g] ++ [m]) schema).curClass = (m.classPath schema).or t.curClass ∧
      (t.dispatchAll ([d, g] ++ [m]) schema).pendingArrowReceiver = t.pendingArrowReceiver := by
  have hdash : d.lexeme = .other := by
    rw [hd.lexeme]
    decide
  have hgt : g.lexeme = .cmp := by
    rw [hg.lexeme]
    decide
  have hflat : d.nesting = .flat ∧ g.nesting = .flat := by
    rw [Piece.nesting, Piece.nesting, hdash, hgt]
    exact ⟨rfl, rfl⟩
  have hnone : d.classPath schema = none ∧ g.classPath schema = none := by
    rw [Piece.classPath, Piece.classPath, hdash, hgt]
    exact ⟨rfl, rfl⟩
  rw [dispatchAll_append, dispatchAll_cons, dispatchAll_cons, dispatchAll_nil, dispatchAll_cons,
    dispatchAll_nil]
  constructor
  · rw [curClass_dispatch (by simp [flat_of_ident hm]), curClass_dispatch (by simp [hflat.2]),
      curClass_dispatch (by simp [hflat.1]), hnone.1, hnone.2, Option.none_or, Option.none_or]
  · rw [pending_other (by simp [hm]) (flat_of_ident hm), pending_other (by simp [hgt]) hflat.2,
      pending_other (by simp [hdash]) hflat.1]

/-- **The receiver of a list.** -/
theorem parenReceiver_step {arrow : List Piece} {m o b : Piece} {method v : Bytes}
    (harrow : SpellsArrow arrow) (hm : m.lexeme = .ident method) (ho : o.lexeme = .open)
    (hb : b.lexeme = .ident v) (front : List Piece) :
    (new.dispatchAll (front ++ arrow ++ [m] ++ [o, b]) schema).parenReceiver.head? =
      some (listReceiver (new.dispatchAll front schema) schema arrow m) := by
  rw [dispatchAll_append, parenReceiver_list ho hb, List.append_assoc, dispatchAll_append]
  rcases harrow.cases with ⟨a, rfl, ha⟩ | ⟨d, g, rfl, hd, hg⟩
  · rw [dispatchAll_append, dispatchAll_cons, dispatchAll_nil, dispatchAll_cons, dispatchAll_nil,
      pending_other (by simp [hm]) (flat_of_ident hm), pending_arrow ha, Option.getD_some,
      listReceiver, if_pos List.length_singleton]
  · obtain ⟨hcls, hpending⟩ := @split_dispatchAll schema d g m method hd hg hm
      (new.dispatchAll front schema)
    rw [hcls, hpending, listReceiver, if_neg (by simp)]

/-- **What the list takes** is what the text says. -/
theorem listTakes_iff {arrow : List Piece} {m : Piece} {method : Bytes} {k : Nat}
    (hps : Truthful ps) (hlevel : level Piece.nesting 0 (ps ++ arrow ++ [m]) = some k)
    (harrow : SpellsArrow arrow) (hm : m.lexeme = .ident method) (cls : Bytes) :
    ListTakes schema cls ps arrow m ↔
      listReceiver (new.dispatchAll ps schema) schema arrow m = none ∨
        listReceiver (new.dispatchAll ps schema) schema arrow m = some cls := by
  obtain ⟨_, hlevel', _⟩ := level_prefix hlevel
  obtain ⟨_, hbefore, _⟩ := level_prefix hlevel'
  rcases harrow.cases with ⟨a, rfl, ha⟩ | ⟨d, g, rfl, hd, hg⟩
  · rw [ListTakes, listReceiver, if_pos List.length_singleton, if_pos List.length_singleton,
      arrowTakes_iff hps hbefore]
  · obtain ⟨hcls, -⟩ := @split_dispatchAll schema d g m method hd hg hm (new.dispatchAll ps schema)
    rw [← dispatchAll_append, ← List.append_assoc] at hcls
    rw [ListTakes, listReceiver, if_neg (by simp), if_neg (by simp), runsOver_iff hlevel, hcls]
    cases hpending : (new.dispatchAll ps schema).pendingArrowReceiver with
    | none =>
      have hnot : ∀ front, ¬ ArrowWaits front ps := by
        intro front hfront
        rw [pending_of_waits hfront] at hpending
        cases hpending
      simp [hnot]
    | some receiver =>
      have htakes : ∀ front, ArrowWaits front ps →
          (ArrowTakes schema cls front ↔ receiver = none ∨ receiver = some cls) := by
        intro front hfront
        have hcaptured := @pending_of_waits schema ps front hfront
        rw [hpending, Option.some.injEq] at hcaptured
        obtain ⟨a, rest, rfl, -, -⟩ := hfront
        obtain ⟨_, hlevel', _⟩ := level_prefix hbefore
        rw [arrowTakes_iff hps.left hlevel', ← hcaptured]
      obtain ⟨front, hfront⟩ := waits_of_pending hpending
      rw [Option.getD_some]
      constructor
      · rintro ⟨hall, -⟩
        exact (htakes front hfront).mp (hall front hfront)
      · intro hreceiver
        exact ⟨fun front hfront => (htakes front hfront).mpr hreceiver, .inl ⟨front, hfront⟩⟩

end

/-! ## The binder of a lambda -/

/-- While `v` is not bound again after `front`, the tracker `t` knows no
other class for it than `target`. -/
def BoundTo (schema : Schema) (front body : List Piece) (t : ScopeTracker) (v target : Bytes) :
    Prop :=
  ∃ up more, Frames.Within (scopes schema front) up more (scopes schema (front ++ body)) ∧
    ((up ++ [more]).find v = none → t.classOf v = none ∨ t.classOf v = some target)

/-- A header after `front` bound `v`, and its scope is open. -/
def BoundAgain (schema : Schema) (front body : List Piece) (v : Bytes) : Prop :=
  ∃ up more, Frames.Within (scopes schema front) up more (scopes schema (front ++ body)) ∧
    (up ++ [more]).find v ≠ none

section

variable {schema : Schema} {front body : List Piece} {v : Bytes} {up : Frames Bytes Binding}
  {more : List (Bytes × Binding)}
  (hin : Frames.Within (scopes schema front) up more (scopes schema (front ++ body)))

include hin

theorem boundTo_iff {t : ScopeTracker} {target : Bytes} : BoundTo schema front body t v target ↔
    ((up ++ [more]).find v = none → t.classOf v = none ∨ t.classOf v = some target) := by
  constructor
  · rintro ⟨up', more', hin', hknown⟩
    obtain ⟨rfl, rfl⟩ := hin.unique hin'
    exact hknown
  · exact fun hknown => ⟨up, more, hin, hknown⟩

theorem boundAgain_iff : BoundAgain schema front body v ↔ (up ++ [more]).find v ≠ none := by
  constructor
  · rintro ⟨up', more', hin', hagain⟩
    obtain ⟨rfl, rfl⟩ := hin.unique hin'
    exact hagain
  · exact fun hagain => ⟨up, more, hin, hagain⟩

end

/-- The entry a lambda pipe makes is the receiver of the list. -/
theorem entry_receiverBinding {t : ScopeTracker} {receiver : Option Bytes}
    (h : t.parenReceiver.head? = some receiver) : t.receiverBinding.entry.join = receiver := by
  unfold receiverBinding
  rw [h, Option.join_some]
  cases receiver with
  | none => split <;> rfl
  | some cls => rfl

/-- A navigation with a step is what the arrow behind it captures. -/
theorem arrowTakes_of_navigation {schema : Schema} {form : ReceiverForm} {target : Bytes}
    {pre recv : List Piece} {k : Nat} (hps : Truthful (pre ++ recv))
    (hlevel : level Piece.nesting 0 (pre ++ recv) = some k)
    (hrecv : IsReceiver schema (new.dispatchAll pre schema) form target recv)
    (hnav : form.isNavigation = true) : ArrowTakes schema target (pre ++ recv) := by
  rw [arrowTakes_iff hps hlevel, dispatchAll_append]
  cases hrecv with
  | source _ _ _ _ _ _ _ => cases hnav
  | path hu hpath hspells hfs =>
    simp only [ReceiverForm.isNavigation, Bool.and_eq_true, decide_eq_true_eq] at hnav
    obtain ⟨hsteps, rfl⟩ := hnav
    cases hfs with
    | nil =>
      rw [List.append_nil, (receiver_of_path hu hspells hpath).2 (List.length_pos_iff.mp hsteps)]
      exact .inr rfl

section

variable {schema : Schema} {toks : List Bytes} {l : Lexer} {front arrow body : List Piece}
  {m o b pipe : Piece} {method v : Bytes}

/-- The header of a list that begins with `v|` is `v`, at the receiver of
the list. -/
theorem header_bare
    (hpieces : Lexer.start.tokens toks = some (l, front ++ [o, b] ++ pipe :: body))
    (hb : b.IsName v valueStates) (hpipe : pipe.lexeme = .pipe) :
    (new.dispatchAll (front ++ [o, b]) schema).header pipe.anchor =
      some (v, (new.dispatchAll (front ++ [o, b]) schema).receiverBinding) := by
  have hsplit : front ++ [o, b] = front ++ [o] ++ [b] := by simp
  have hhdr : (HeaderForm.bare .value v).Spelled [b] := .bare hb
  rw [hsplit] at hpieces ⊢
  exact header_of_captured hpieces hhdr hpipe hb.classify_eq rfl

/-- What a `->m(v|` binds `v` to. -/
theorem binding_step
    (hpieces : Lexer.start.tokens toks =
      some (l, front ++ arrow ++ [m] ++ [o, b] ++ pipe :: body))
    (harrow : SpellsArrow arrow) (hm : m.lexeme = .ident method) (ho : o.IsMark Byte.lparen)
    (hb : b.IsName v valueStates) (hpipe : pipe.lexeme = .pipe) :
    ∃ bound : Binding,
      bound.entry.join = listReceiver (new.dispatchAll front schema) schema arrow m ∧
      Frames.Within (scopes schema (front ++ arrow ++ [m] ++ [o, b])) [] [(v, bound)]
        (scopes schema (front ++ arrow ++ [m] ++ [o, b] ++ [pipe])) := by
  have hreceiver := @parenReceiver_step schema arrow m o b method v harrow hm (open_of_lparen ho)
    hb.1 front
  have hwithin := within_pipe schema (front ++ arrow ++ [m] ++ [o, b]) hpipe
  rw [header_bare hpieces hb hpipe] at hwithin
  exact ⟨_, entry_receiverBinding hreceiver, hwithin⟩

/-- Until `v` is bound again it has the class that the list takes. -/
theorem classOf_inside {p : Pda} {t : ScopeTracker}
    (hlive : drive schema freshStart toks = some (p, t))
    (hpieces : Lexer.start.tokens toks =
      some (l, front ++ arrow ++ [m] ++ [o, b] ++ pipe :: body))
    (harrow : SpellsArrow arrow) (hm : m.lexeme = .ident method) (ho : o.IsMark Byte.lparen)
    (hb : b.IsName v valueStates) (hpipe : pipe.lexeme = .pipe) {up : Frames Bytes Binding}
    {more : List (Bytes × Binding)}
    (hin : Frames.Within (scopes schema (front ++ arrow ++ [m] ++ [o, b] ++ [pipe])) up more
      (scopes schema (front ++ arrow ++ [m] ++ [o, b] ++ [pipe] ++ body)))
    (hfree : (up ++ [more]).find v = none) :
    t.classOf v = listReceiver (new.dispatchAll front schema) schema arrow m := by
  obtain ⟨bound, hentry, hwithin⟩ := binding_step hpieces harrow hm ho hb hpipe
  have ht : t.binding v = (scopes schema
      (front ++ arrow ++ [m] ++ [o, b] ++ [pipe] ++ body)).lookup freeStore v := by
    obtain ⟨l', ps, hps, _, _, rfl⟩ := pieces_of_drive hlive
    rw [hpieces] at hps
    cases hps
    rw [List.append_assoc _ [pipe], List.singleton_append]
    exact congrFun (binding_dispatchAll schema _) v
  rw [hin.lookup_eq, hfree, Option.getD_none, hwithin.lookup_eq] at ht
  rw [classOf_eq, ht]
  simpa [Frames.find] using hentry

end

/-- **A lambda's binder is typed by its receiver.** In every live stream
with a step `recv->m(v|`, from the `|` on and while its list is open, the
class of `v` is that of `recv` or unknown exactly when `v` was bound again
since, or the arrow stands in one piece behind a navigation with a step,
or the text says that the list takes that class or none. -/
theorem lambda_receiver {schema : Schema} {toks : List Bytes} {p : Pda} {t : ScopeTracker}
    (hlive : drive schema freshStart toks = some (p, t)) {l : Lexer}
    {pre recv arrow body : List Piece} {m o b pipe : Piece}
    (hpieces : Lexer.start.tokens toks =
      some (l, pre ++ recv ++ arrow ++ [m] ++ [o, b] ++ pipe :: body))
    {form : ReceiverForm} {target method v : Bytes}
    (hrecv : IsReceiver schema (new.dispatchAll pre schema) form target recv)
    (harrow : SpellsArrow arrow) (hm : m.IsName method [.afterArrow])
    (ho : o.IsMark Byte.lparen) (hb : b.IsName v valueStates) (hpipe : pipe.lexeme = .pipe)
    (hbody : Inside Piece.nesting body) :
    BoundTo schema (pre ++ recv ++ arrow ++ [m] ++ [o, b] ++ [pipe]) body t v target ↔
      BoundAgain schema (pre ++ recv ++ arrow ++ [m] ++ [o, b] ++ [pipe]) body v ∨
        (form.isNavigation = true ∧ arrow.length = 1) ∨
          ListTakes schema target (pre ++ recv) arrow m := by
  obtain ⟨htruth, -⟩ := truthful_of_tokens hpieces
  simp only [List.append_assoc] at htruth
  rw [← List.append_assoc pre] at htruth
  obtain ⟨_, hlist, _⟩ := level_prefix (level_tokens hpieces)
  obtain ⟨_, hname, _⟩ := level_prefix hlist
  obtain ⟨_, hlevel, _⟩ := level_prefix hname
  obtain ⟨_, hrecvLevel, _⟩ := level_prefix hlevel
  obtain ⟨up, more, hin⟩ :=
    @within_inside schema (pre ++ recv ++ arrow ++ [m] ++ [o, b] ++ [pipe]) body hbody
  have hnav : form.isNavigation = true ∧ arrow.length = 1 →
      ListTakes schema target (pre ++ recv) arrow m := by
    rintro ⟨hform, hone⟩
    rw [ListTakes, if_pos hone]
    exact arrowTakes_of_navigation htruth.left hrecvLevel hrecv hform
  rw [boundTo_iff hin, boundAgain_iff hin, or_iff_right_of_imp hnav]
  cases hfind : (up ++ [more]).find v with
  | some again => simp
  | none =>
    rw [classOf_inside hlive hpieces harrow hm.1 ho hb hpipe hin hfind,
      listTakes_iff htruth.left hname harrow hm.1]
    simp

/-! ### Four streams -/

/-- The pieces of `A.all()`. -/
def sourcePieces : List Piece :=
  [⟨ascii "A", .expectSource⟩, ⟨ascii ".", .inSourceIdent⟩, ⟨ascii "all", .afterDot⟩,
   ⟨ascii "(", .inIdent⟩, ⟨ascii ")", .inIdent⟩]

/-- The pieces of `->filter(x|` after it. -/
def filterPieces : List Piece :=
  [⟨ascii "->", .inIdent⟩, ⟨ascii "filter", .afterArrow⟩, ⟨ascii "(", .inIdent⟩,
   ⟨ascii "x", .expectValue⟩, ⟨ascii "|", .inIdent⟩]

/-- The pieces of `$x.` and a property. -/
def navigationPieces (name : String) : List Piece :=
  [⟨ascii "$", .inIdent⟩, ⟨ascii "x", .afterDollar⟩, ⟨ascii ".", .inIdent⟩,
   ⟨ascii name, .afterDot⟩]

/-- The pieces of ` == 1)`. -/
def comparisonPieces : List Piece :=
  [⟨ascii "==", .inIdent⟩, ⟨ascii "1", .expectValueReq⟩, ⟨ascii ")", .inNumberInt⟩]

/-- The pieces of `A.all()->filter(x|$x.` and a property, ` == 1)`. -/
def filteredSource (name : String) : List Piece :=
  sourcePieces ++ (filterPieces ++ navigationPieces name ++ comparisonPieces)

/-- `front`, an arrow and `filter(y|`, as pieces. -/
def outerFilter (front arrow : List Piece) : List Piece :=
  front ++ arrow ++ [⟨ascii "filter", .afterArrow⟩] ++
    [⟨ascii "(", .inIdent⟩, ⟨ascii "y", .expectValue⟩] ++ [⟨ascii "|", .inIdent⟩]

theorem filteredSource_spelled (name : String)
    (hbody : Balanced Piece.nesting ([⟨ascii "x", .expectValue⟩, ⟨ascii "|", .inIdent⟩] ++
      navigationPieces name ++ comparisonPieces.take 2)) (t : ScopeTracker) :
    IsReceiver Schema.sample t (.source 1) (ascii "A") (filteredSource name) := by
  have hfilter : SpellsFilters 1 ([] ++ [⟨ascii "->", .inIdent⟩] ++
      ⟨ascii "filter", .afterArrow⟩ :: ⟨ascii "(", .inIdent⟩ ::
        ([⟨ascii "x", .expectValue⟩, ⟨ascii "|", .inIdent⟩] ++ navigationPieces name ++
          comparisonPieces.take 2) ++ [⟨ascii ")", .inNumberInt⟩]) :=
    .step .nil (by decide +kernel) ⟨by decide +kernel, by decide⟩ rfl hbody rfl
  have hpath : [(⟨ascii "A", .expectSource⟩ : Piece)].flatMap Piece.text = ascii "A" := by decide
  exact .source (by decide +kernel) hpath rfl ⟨by decide +kernel, by decide⟩ rfl rfl hfilter

theorem navigationPieces_spelled :
    SpellsPath (ascii "x") [ascii "toB"] (navigationPieces "toB") := by
  have hvar : SpellsPath (ascii "x") [] [⟨ascii "$", .inIdent⟩, ⟨ascii "x", .afterDollar⟩] :=
    .var rfl ⟨by decide +kernel, by decide⟩
  exact @SpellsPath.step _ ⟨ascii ".", .inIdent⟩ ⟨ascii "toB", .afterDot⟩ _ _ _ hvar rfl
    ⟨by decide +kernel, by decide⟩

/-- No class but that of its source is left behind
`|A.all()->filter(x|$x.n == 1)`. -/
theorem filteredSource_takes : ArrowTakes Schema.sample (ascii "A")
    ([⟨ascii "|", .start⟩] ++ filteredSource "n") := by
  have hpieces : Lexer.start.tokens [ascii "|A.all()->filter(x|$x.n == 1)"] =
      some (⟨.afterValue, [], [], .afterValue⟩, [⟨ascii "|", .start⟩] ++ filteredSource "n") := by
    decide +kernel
  exact (arrowTakes_iff (truthful_of_tokens hpieces).1.left (level_tokens hpieces)).mpr
    (.inr (by decide +kernel))

theorem filteredSource_takes_cut : ListTakes Schema.sample (ascii "A")
    ([⟨ascii "|", .start⟩] ++ filteredSource "n")
    [⟨ascii "-", .inNumberInt⟩, ⟨ascii ">", .sawDash⟩] ⟨ascii "filter", .afterArrow⟩ := by
  have hnone : (new.dispatchAll ([⟨ascii "|", .start⟩] ++ filteredSource "n")
      Schema.sample).pendingArrowReceiver = none := by
    decide +kernel
  have hlevel : level Piece.nesting 0 ([⟨ascii "|", .start⟩] ++ filteredSource "n" ++
      [⟨ascii "-", .inNumberInt⟩, ⟨ascii ">", .sawDash⟩] ++
        [⟨ascii "filter", .afterArrow⟩]) = some 0 := by
    decide +kernel
  refine ⟨fun front hfront => ?_, .inr ((runsOver_iff hlevel).mpr (.inr (by decide +kernel)))⟩
  rw [pending_of_waits hfront] at hnone
  cases hnone

/-- In `|A.all()->filter(x|$x.toB->filter(y|` the binder `y` is a `B`, and
in `|A.all()->filter(x|$x.n == 1)->filter(y|` it is an `A`, also with the
arrow in two tokens. -/
theorem lambda_receiver_bound :
    (∃ c, drive Schema.sample freshStart [ascii "|A.all()->filter(x|$x.toB->filter(y|"] = some c ∧
      BoundTo Schema.sample (outerFilter ((⟨ascii "|", .start⟩ :: sourcePieces ++ filterPieces) ++
        navigationPieces "toB") [⟨ascii "->", .inIdent⟩]) [] c.2 (ascii "y") (ascii "B")) ∧
    (∃ c, drive Schema.sample freshStart [ascii "|A.all()->filter(x|$x.n == 1)->filter(y|"] =
        some c ∧
      BoundTo Schema.sample (outerFilter ([⟨ascii "|", .start⟩] ++ filteredSource "n")
        [⟨ascii "->", .inNumberInt⟩]) [] c.2 (ascii "y") (ascii "A")) ∧
    ∃ c, drive Schema.sample freshStart
        [ascii "|A.all()->filter(x|$x.n == 1)-", ascii ">filter(y|"] = some c ∧
      BoundTo Schema.sample (outerFilter ([⟨ascii "|", .start⟩] ++ filteredSource "n")
        [⟨ascii "-", .inNumberInt⟩, ⟨ascii ">", .sawDash⟩]) [] c.2 (ascii "y") (ascii "A") := by
  have hm : Piece.IsName ⟨ascii "filter", .afterArrow⟩ (ascii "filter") [.afterArrow] :=
    ⟨by decide +kernel, by decide⟩
  have hb : Piece.IsName ⟨ascii "y", .expectValue⟩ (ascii "y") valueStates :=
    ⟨by decide +kernel, by decide⟩
  have hfiltered := filteredSource_spelled "n" (by decide +kernel)
    (new.dispatchAll [⟨ascii "|", .start⟩] Schema.sample)
  refine ⟨?_, ?_, ?_⟩
  · obtain ⟨c, hc⟩ := Option.isSome_iff_exists.mp (show (drive Schema.sample freshStart
      [ascii "|A.all()->filter(x|$x.toB->filter(y|"]).isSome = true by decide +kernel)
    have hpieces : Lexer.start.tokens [ascii "|A.all()->filter(x|$x.toB->filter(y|"] =
        some (⟨.sawPipe, [.paren, .paren], [], .sawPipe⟩,
          outerFilter ((⟨ascii "|", .start⟩ :: sourcePieces ++ filterPieces) ++
            navigationPieces "toB") [⟨ascii "->", .inIdent⟩]) := by
      decide +kernel
    have hu : (new.dispatchAll (⟨ascii "|", .start⟩ :: sourcePieces ++ filterPieces)
        Schema.sample).binding (ascii "x") = .element (some (ascii "A")) := by
      decide +kernel
    have hpath : Schema.sample.resolvePath (ascii "A") [ascii "toB"] = some (ascii "B") := by
      decide +kernel
    have hrecv := IsReceiver.path hu hpath navigationPieces_spelled .nil
    rw [List.append_nil] at hrecv
    exact ⟨c, hc, (lambda_receiver hc hpieces hrecv (by decide +kernel) hm rfl hb
      (by decide +kernel) (by decide)).mpr (.inr (.inl ⟨rfl, rfl⟩))⟩
  · obtain ⟨c, hc⟩ := Option.isSome_iff_exists.mp (show (drive Schema.sample freshStart
      [ascii "|A.all()->filter(x|$x.n == 1)->filter(y|"]).isSome = true by decide +kernel)
    have hpieces : Lexer.start.tokens [ascii "|A.all()->filter(x|$x.n == 1)->filter(y|"] =
        some (⟨.sawPipe, [.paren], [], .sawPipe⟩,
          outerFilter ([⟨ascii "|", .start⟩] ++ filteredSource "n")
            [⟨ascii "->", .inNumberInt⟩]) := by
      decide +kernel
    exact ⟨c, hc, (lambda_receiver hc hpieces hfiltered (by decide +kernel) hm rfl hb
      (by decide +kernel) (by decide)).mpr (.inr (.inr filteredSource_takes))⟩
  · obtain ⟨c, hc⟩ := Option.isSome_iff_exists.mp (show (drive Schema.sample freshStart
      [ascii "|A.all()->filter(x|$x.n == 1)-", ascii ">filter(y|"]).isSome = true by
        decide +kernel)
    have hpieces : Lexer.start.tokens [ascii "|A.all()->filter(x|$x.n == 1)-", ascii ">filter(y|"] =
        some (⟨.sawPipe, [.paren], [], .sawPipe⟩,
          outerFilter ([⟨ascii "|", .start⟩] ++ filteredSource "n")
            [⟨ascii "-", .inNumberInt⟩, ⟨ascii ">", .sawDash⟩]) := by
      decide +kernel
    exact ⟨c, hc, (lambda_receiver hc hpieces hfiltered (by decide +kernel) hm rfl hb
      (by decide +kernel) (by decide)).mpr (.inr (.inr filteredSource_takes_cut))⟩

/-- In `|A.all()->filter(x|$x.toB == 1)->filter(y|` the receiver of the
second filter stands for elements of `A`, and `y` is a `B`: the navigation
of the first body is still on record at the arrow. -/
theorem filter_body_leaks : ∃ c,
    drive Schema.sample freshStart [ascii "|A.all()->filter(x|$x.toB == 1)->filter(y|"] = some c ∧
    (∃ l, Lexer.start.tokens [ascii "|A.all()->filter(x|$x.toB == 1)->filter(y|"] =
      some (l, outerFilter ([⟨ascii "|", .start⟩] ++ filteredSource "toB")
        [⟨ascii "->", .inNumberInt⟩])) ∧
    IsReceiver Schema.sample (new.dispatchAll [⟨ascii "|", .start⟩] Schema.sample) (.source 1)
      (ascii "A") (filteredSource "toB") ∧
    c.2.classOf (ascii "y") = some (ascii "B") ∧
    ¬ BoundTo Schema.sample (outerFilter ([⟨ascii "|", .start⟩] ++ filteredSource "toB")
      [⟨ascii "->", .inNumberInt⟩]) [] c.2 (ascii "y") (ascii "A") := by
  have hrun : (drive Schema.sample freshStart
      [ascii "|A.all()->filter(x|$x.toB == 1)->filter(y|"]).map
        (fun c => c.2.classOf (ascii "y")) = some (some (ascii "B")) := by
    decide +kernel
  obtain ⟨c, hc, hclass⟩ := Option.map_eq_some_iff.mp hrun
  refine ⟨c, hc, ⟨⟨.sawPipe, [.paren], [], .sawPipe⟩, by decide +kernel⟩,
    filteredSource_spelled "toB" (by decide +kernel) _, hclass, ?_⟩
  rintro ⟨up, more, hin, hbound⟩
  rw [List.append_nil] at hin
  obtain ⟨rfl, rfl⟩ := hin.eq_nil
  have hsample : some (ascii "B") ≠ some (ascii "A") := by decide
  rcases hbound rfl with hnone | hsome
  · rw [hclass] at hnone
    cases hnone
  · exact hsample (hclass.symm.trans hsome)

end PureCard
