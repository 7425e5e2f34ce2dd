/-
PureCard.NavigationTyping — what a `.` goes on from.

Behind a dot the tracker narrows to the members of a class when a `$v` is
waiting for its dot, or else when the last step of a navigation reached a
class. Neither is cleared by an operator, a comma or a delimiter, so the
dot need not stand behind the navigation it goes on from. `Awaits` and
`LeftBy` say where that navigation ended, `goesOn_of_receiver` that the
tracker narrows only by one of them.

`Direct` is the condition that it ended right before the dot. Then it can
be read off the text: if all dots are direct, a navigation expression of
the class in question stands before every dot that is narrowed
(`navigation_typed`).
-/
import PureCard.Paths
import PureCard.TableScopes

namespace PureCard

open Scopes ScopeTracker

/-! ## Navigation expressions -/

/-- An argument list, or none. -/
inductive Arguments : List Piece → Prop where
  | none : Arguments []
  | list {o c : Piece} {body : List Piece} (ho : o.IsMark Byte.lparen)
      (hbody : Balanced Piece.nesting body) (hc : c.IsMark Byte.rparen) :
      Arguments (o :: body ++ [c])

/-- After `front`, the pieces are `$v.p1…pk`, each step with its argument
list if it has one; the header of `v` binds it to a class, and `resolve`
leads from there to `cls`. -/
inductive NavExpr (schema : Schema) (front : List Piece) : Bytes → List Piece → Prop where
  | var {v cls : Bytes} {d p : Piece} (hd : d.IsMark Byte.dollar) (hp : p.IsName v [.afterDollar])
      (hv : (scopes schema front).find v = some (.element (some cls))) :
      NavExpr schema front cls [d, p]
  | step {x base cls : Bytes} {d p : Piece} {nav args : List Piece}
      (h : NavExpr schema front base nav) (hd : d.lexeme = .dot) (hp : p.IsName x [.afterDot])
      (hx : (schema.resolve base x).bind Resolved.path? = some cls) (hargs : Arguments args) :
      NavExpr schema front cls (nav ++ d :: p :: args)

/-! ## Where the navigation ended -/

/-- Pieces that leave a waiting variable as it is. -/
def Piece.waits (p : Piece) : Bool :=
  match p.lexeme with
  | .ident _ => p.anchor ≠ .afterDollar
  | .dot | .arrow => false
  | _ => true

/-- The `$v` that ends at piece `n` waits for its dot. -/
def Awaits (v : Bytes) (n : Nat) (ps : List Piece) : Prop :=
  ∃ front d p rest, ps = front ++ [d, p] ++ rest ∧ n = (front ++ [d, p]).length ∧
    d.IsMark Byte.dollar ∧ p.IsName v [.afterDollar] ∧ ∀ q ∈ rest, q.waits = true

/-- The step that ends at piece `n` reached the class `cls`; since then no
arrow was read, and no step that went on from anything. -/
inductive LeftBy (schema : Schema) : Nat → Bytes → List Piece → Prop where
  | ofVar {v base x cls : Bytes} {n : Nat} {ps : List Piece} {d p : Piece} (h : Awaits v n ps)
      (hv : (scopes schema ps).find v = some (.element (some base))) (hd : d.lexeme = .dot)
      (hp : p.IsName x [.afterDot])
      (hx : (schema.resolve base x).bind Resolved.path? = some cls) :
      LeftBy schema (ps ++ [d, p]).length cls (ps ++ [d, p])
  | ofStep {base x cls : Bytes} {n : Nat} {ps : List Piece} {d p : Piece}
      (hnone : ∀ v m, ¬ Awaits v m ps) (h : LeftBy schema n base ps) (hd : d.lexeme = .dot)
      (hp : p.IsName x [.afterDot])
      (hx : (schema.resolve base x).bind Resolved.path? = some cls) :
      LeftBy schema (ps ++ [d, p]).length cls (ps ++ [d, p])
  | untyped {v x cls : Bytes} {n m : Nat} {ps : List Piece} {d p : Piece} (hv : Awaits v m ps)
      (hfree : ((scopes schema ps).lookup freeStore v).position = none)
      (h : LeftBy schema n cls ps) (hd : d.lexeme = .dot) (hp : p.IsName x [.afterDot]) :
      LeftBy schema n cls (ps ++ [d, p])
  | other {cls : Bytes} {n : Nat} {ps : List Piece} {p : Piece} (h : LeftBy schema n cls ps)
      (harrow : p.lexeme ≠ .arrow) (hname : ∀ x, ¬ p.IsName x [.afterDot]) :
      LeftBy schema n cls (ps ++ [p])

/-- A dot after the pieces goes on from the navigation of class `cls` that
ended at piece `n`. -/
def GoesOn (schema : Schema) (n : Nat) (cls : Bytes) (ps : List Piece) : Prop :=
  (∃ v, Awaits v n ps ∧ (scopes schema ps).find v = some (.element (some cls))) ∨
    (∀ v m, ¬ Awaits v m ps) ∧ LeftBy schema n cls ps

/-- What a dot after the pieces goes on from ended right before it: a
variable at the last piece, a step there or at its argument list. -/
structure Direct (schema : Schema) (ps : List Piece) : Prop where
  var : ∀ v n cls, Awaits v n ps → (scopes schema ps).find v = some (.element (some cls)) →
    n = ps.length
  step : (∀ v m, ¬ Awaits v m ps) → ∀ n cls, LeftBy schema n cls ps → Arguments (ps.drop n)

/-- The anchors tell the truth about the pieces before them. -/
def Truthful (ps : List Piece) : Prop :=
  ∀ pre p post, ps = pre ++ p :: post → Reader.Before p.anchor pre

theorem Truthful.left {ps qs : List Piece} (h : Truthful (ps ++ qs)) : Truthful ps := by
  intro pre p post hps
  exact h pre p (post ++ qs) (by rw [hps]; simp)

/-! ## One dispatch -/

theorem refvar_waits {p : Piece} (hp : p.waits = true) (t : ScopeTracker) (schema : Schema) :
    (t.dispatchToken p.text p.anchor schema).pendingRefvar = t.pendingRefvar := by
  have hmember : ∀ (n : Nav) (x : Bytes), (n.member schema x).refvar = n.refvar := by
    intro n x
    unfold Nav.member
    repeat' split
    all_goals rfl
  cases hlex : p.lexeme with
  | ident text =>
    have hnav := congrArg Nav.refvar (nav_dispatch_ident hlex t schema)
    have hne : p.anchor ≠ .afterDollar := by simpa [Piece.waits, hlex] using hp
    refine hnav.trans ?_
    split
    · contradiction
    · exact hmember t.nav text
    · rfl
  | dot => simp [Piece.waits, hlex] at hp
  | arrow => simp [Piece.waits, hlex] at hp
  | _ =>
    have hother : navigates p = false := by simp [navigates, hlex]
    exact congrArg Nav.refvar (nav_dispatch_other hother t schema)

theorem refvar_not_waits {p : Piece} (hp : p.waits = false) (t : ScopeTracker) (schema : Schema) :
    (∃ v, p.IsName v [.afterDollar] ∧
      (t.dispatchToken p.text p.anchor schema).pendingRefvar = some v) ∨
    (t.dispatchToken p.text p.anchor schema).pendingRefvar = none := by
  cases hlex : p.lexeme with
  | ident text =>
    have hanchor : p.anchor = .afterDollar := by simpa [Piece.waits, hlex] using hp
    have hnav := congrArg Nav.refvar (nav_dispatch_ident hlex t schema)
    simp only [hanchor] at hnav
    exact .inl ⟨text, ⟨hlex, by simp [hanchor]⟩, by rw [hanchor]; exact hnav⟩
  | dot => exact .inr (congrArg Nav.refvar (nav_dispatch_dot hlex t schema))
  | arrow => exact .inr (congrArg Nav.refvar (nav_dispatch_arrow hlex t schema))
  | _ => simp [Piece.waits, hlex] at hp

/-- Only an arrow and a name behind a dot touch the class reached. -/
theorem cursor_other {p : Piece} (harrow : p.lexeme ≠ .arrow) (hname : ∀ x, ¬ p.IsName x [.afterDot])
    (t : ScopeTracker) (schema : Schema) :
    (t.dispatchToken p.text p.anchor schema).navCursor = t.navCursor := by
  cases hlex : p.lexeme with
  | ident text =>
    have hnav := congrArg Nav.cursor (nav_dispatch_ident hlex t schema)
    refine hnav.trans ?_
    split
    · rfl
    · exact absurd ⟨hlex, by simp [*]⟩ (hname text)
    · rfl
  | dot => exact congrArg Nav.cursor (nav_dispatch_dot hlex t schema)
  | arrow => exact absurd hlex harrow
  | _ =>
    have hother : navigates p = false := by simp [navigates, hlex]
    exact congrArg Nav.cursor (nav_dispatch_other hother t schema)

/-- A step: the class it goes on from is resolved, and without one the class
reached stays. -/
theorem cursor_step {d p : Piece} {x : Bytes} (hd : d.lexeme = .dot) (hp : p.IsName x [.afterDot])
    (t : ScopeTracker) (schema : Schema) : (t.dispatchAll [d, p] schema).navCursor =
      if t.receiverIsRow then none
      else t.receiver.elim t.navCursor fun base => (schema.resolve base x).bind Resolved.path? := by
  have hdot := nav_dispatch_dot hd t schema
  have hnav := nav_dispatch_ident hp.1 (t.dispatchToken d.text d.anchor schema) schema
  have hanchor : p.anchor = .afterDot := List.mem_singleton.mp hp.2
  simp only [hanchor] at hnav
  rw [hdot] at hnav
  rw [dispatchAll_cons, dispatchAll_cons, dispatchAll_nil, hanchor]
  refine (congrArg Nav.cursor hnav).trans ?_
  unfold Nav.member
  cases t.receiverIsRow with
  | true => rfl
  | false =>
    cases hr : t.receiver with
    | none => rfl
    | some base =>
      dsimp only [Option.elim]
      cases schema.resolve base x with
      | none => rfl
      | some r => cases r <;> rfl

theorem refvar_step {d p : Piece} {x : Bytes} (hd : d.lexeme = .dot) (hp : p.IsName x [.afterDot])
    (t : ScopeTracker) (schema : Schema) : (t.dispatchAll [d, p] schema).pendingRefvar = none := by
  have hwaits : p.waits = true := by
    have hanchor : p.anchor = .afterDot := List.mem_singleton.mp hp.2
    simp [Piece.waits, hp.1, hanchor]
  rw [dispatchAll_cons, dispatchAll_cons, dispatchAll_nil, refvar_waits hwaits]
  exact congrArg Nav.refvar (nav_dispatch_dot hd t schema)

/-! ## The fields tell where it ended -/

theorem Awaits.concat {v : Bytes} {n : Nat} {ps : List Piece} (h : Awaits v n ps) {q : Piece}
    (hq : q.waits = true) : Awaits v n (ps ++ [q]) := by
  obtain ⟨front, d, p, rest, rfl, hn, hd, hp, hrest⟩ := h
  refine ⟨front, d, p, rest ++ [q], by rw [List.append_assoc], hn, hd, hp, ?_⟩
  intro x hx
  rcases List.mem_append.mp hx with hx | hx
  · exact hrest x hx
  · rw [List.mem_singleton.mp hx]
    exact hq

theorem Awaits.le {v : Bytes} {n : Nat} {ps : List Piece} (h : Awaits v n ps) : n ≤ ps.length := by
  obtain ⟨front, d, p, rest, rfl, rfl, _⟩ := h
  simp

/-- A `$v` behind a `$` waits. -/
theorem awaits_name {v : Bytes} {ps : List Piece} {p : Piece} (hp : p.IsName v [.afterDollar])
    (hbefore : Reader.Before p.anchor ps) : Awaits v (ps ++ [p]).length (ps ++ [p]) := by
  have hdollar : Reader.lastText ps = some [Byte.dollar] := by
    have hanchor : p.anchor = .afterDollar := List.mem_singleton.mp hp.2
    rw [hanchor] at hbefore
    exact hbefore
  obtain ⟨d, hd, htext⟩ := Option.map_eq_some_iff.mp hdollar
  obtain ⟨front, rfl⟩ := List.getLast?_eq_some_iff.mp hd
  exact ⟨front, d, p, [], by simp, by simp, htext, hp, fun q hq => by cases hq⟩

section

variable {schema : Schema} {ps : List Piece}

theorem refvar_of_awaits {v : Bytes} {n : Nat} (h : Awaits v n ps) :
    (new.dispatchAll ps schema).pendingRefvar = some v := by
  obtain ⟨front, d, p, rest, rfl, _, _, hp, hrest⟩ := h
  induction rest using List.reverseRecOn with
  | nil =>
    have hanchor : p.anchor = .afterDollar := List.mem_singleton.mp hp.2
    have hnav := nav_dispatch_ident hp.1 (new.dispatchAll (front ++ [d]) schema) schema
    simp only [hanchor] at hnav
    have hsplit : front ++ [d, p] ++ [] = front ++ [d] ++ [p] := by simp
    rw [hsplit, dispatchAll_append, dispatchAll_cons, dispatchAll_nil, hanchor]
    exact congrArg Nav.refvar hnav
  | append_singleton rest q ih =>
    rw [← List.append_assoc, dispatchAll_append, dispatchAll_cons, dispatchAll_nil,
      refvar_waits (hrest q (by simp))]
    exact ih fun x hx => hrest x (List.mem_append_left _ hx)

theorem awaits_of_refvar (hps : Truthful ps) {v : Bytes}
    (h : (new.dispatchAll ps schema).pendingRefvar = some v) : ∃ n, Awaits v n ps := by
  induction ps using List.reverseRecOn with
  | nil => cases h
  | append_singleton ps p ih =>
    rw [dispatchAll_append, dispatchAll_cons, dispatchAll_nil] at h
    cases hw : p.waits with
    | true =>
      rw [refvar_waits hw] at h
      obtain ⟨n, hn⟩ := ih hps.left h
      exact ⟨n, hn.concat hw⟩
    | false =>
      rcases refvar_not_waits hw (new.dispatchAll ps schema) schema with ⟨u, hu, hvar⟩ | hnone
      · rw [hvar] at h
        cases h
        exact ⟨_, awaits_name hu (hps ps p [] rfl)⟩
      · rw [hnone] at h
        cases h

theorem not_awaits_iff (hps : Truthful ps) :
    (∀ v m, ¬ Awaits v m ps) ↔ (new.dispatchAll ps schema).pendingRefvar = none := by
  constructor
  · intro hnone
    rw [Option.eq_none_iff_forall_ne_some]
    intro v hv
    obtain ⟨n, hn⟩ := awaits_of_refvar hps hv
    exact hnone v n hn
  · intro hnone v m hv
    rw [refvar_of_awaits hv] at hnone
    cases hnone

/-- A variable of class `cls` is one that a header bound to it. -/
theorem find_of_binding {v cls : Bytes}
    (h : (new.dispatchAll ps schema).binding v = .element (some cls)) :
    (scopes schema ps).find v = some (.element (some cls)) := by
  have hlookup := congrFun (binding_dispatchAll schema ps) v
  rw [h, Frames.lookup] at hlookup
  cases hfind : (scopes schema ps).find v with
  | none =>
    rw [hfind] at hlookup
    cases hlookup
  | some b =>
    rw [hfind] at hlookup
    exact congrArg some hlookup.symm

/-- A variable's class is the receiver, unless it is the row of a
relation. -/
theorem receiver_of_refvar {t : ScopeTracker} {v : Bytes} (hv : t.pendingRefvar = some v) :
    (t.receiverIsRow = true → (t.binding v).position = some .relationColumn) ∧
      (t.receiverIsRow = false → (t.binding v).position = t.receiver.map .member) ∧
      ∀ cls, t.receiver = some cls → t.binding v = .element (some cls) := by
  unfold receiverIsRow receiver
  rw [hv]
  dsimp only
  by_cases hrow : v ∈ t.relationRowVars
  · have hb : (t.binding v).row = true := by simpa [binding] using hrow
    refine ⟨fun _ => by rw [Binding.position, if_pos hb], fun h => ?_, fun cls h => ?_⟩
    · simp [hrow] at h
    · simp [hrow] at h
  · have hb : (t.binding v).row = false := by simpa [binding] using hrow
    refine ⟨fun h => ?_, fun _ => ?_, fun cls h => ?_⟩
    · simp [hrow] at h
    · rw [Binding.position, if_neg (by simp [hb]), if_neg hrow, classOf_eq]
    · rw [if_neg hrow, classOf] at h
      have hentry := Option.join_eq_some_iff.mp h
      rw [binding, Binding.element, hentry]
      simp [hrow]

theorem receiver_of_none {t : ScopeTracker} (h : t.pendingRefvar = none) :
    t.receiver = t.navCursor := by
  rw [receiver, h]

/-- Where the class ended that a step leaves. -/
theorem leftBy_of_step (hps : Truthful ps) {d p : Piece} {x cls : Bytes}
    (hd : d.lexeme = .dot) (hp : p.IsName x [.afterDot])
    (ih : ∀ base, (new.dispatchAll ps schema).navCursor = some base →
      ∃ n, LeftBy schema n base ps)
    (h : (new.dispatchAll (ps ++ [d, p]) schema).navCursor = some cls) :
    ∃ n, LeftBy schema n cls (ps ++ [d, p]) := by
  rw [dispatchAll_append, cursor_step hd hp] at h
  cases hrow : (new.dispatchAll ps schema).receiverIsRow with
  | true =>
    rw [hrow] at h
    cases h
  | false =>
    rw [hrow] at h
    simp only [Bool.false_eq_true, if_false] at h
    cases hvar : (new.dispatchAll ps schema).pendingRefvar with
    | some v =>
      obtain ⟨m, hm⟩ := awaits_of_refvar hps hvar
      cases hr : (new.dispatchAll ps schema).receiver with
      | some base =>
        rw [hr] at h
        exact ⟨_, .ofVar hm (find_of_binding ((receiver_of_refvar hvar).2.2 base hr)) hd hp h⟩
      | none =>
        -- the variable has no class, and the step changes nothing
        rw [hr] at h
        have hfree := (receiver_of_refvar hvar).2.1 hrow
        rw [hr, congrFun (binding_dispatchAll schema ps) v] at hfree
        obtain ⟨n, hn⟩ := ih cls h
        exact ⟨n, .untyped hm hfree hn hd hp⟩
    | none =>
      have hnone := (not_awaits_iff hps).mpr hvar
      rw [receiver_of_none hvar] at h
      cases hc : (new.dispatchAll ps schema).navCursor with
      | none =>
        rw [hc] at h
        cases h
      | some base =>
        rw [hc] at h
        obtain ⟨n, hn⟩ := ih base hc
        exact ⟨_, .ofStep hnone hn hd hp h⟩

/-- The dot a state behind a dot stands for. -/
theorem exists_dot (h : Reader.Before .afterDot ps) :
    ∃ pre d, ps = pre ++ [d] ∧ d.IsMark Byte.dot ∧ d.lexeme = .dot := by
  obtain ⟨d, hd, htext⟩ := Option.map_eq_some_iff.mp
    (show Reader.lastText ps = some [Byte.dot] from h)
  obtain ⟨pre, rfl⟩ := List.getLast?_eq_some_iff.mp hd
  refine ⟨pre, d, rfl, htext, ?_⟩
  rw [Piece.lexeme, htext]
  decide

/-- **The class reached was reached by a step.** -/
theorem leftBy_of_cursor (hps : Truthful ps) {cls : Bytes}
    (h : (new.dispatchAll ps schema).navCursor = some cls) : ∃ n, LeftBy schema n cls ps := by
  induction hlen : ps.length using Nat.strong_induction_on generalizing ps cls with
  | _ len ih =>
    rcases List.eq_nil_or_concat ps with rfl | ⟨qs, p, rfl⟩
    · cases h
    · rw [List.concat_eq_append] at h hlen hps ⊢
      rw [List.length_append, List.length_singleton] at hlen
      by_cases hname : ∃ x, p.IsName x [.afterDot]
      · obtain ⟨x, hx⟩ := hname
        -- the dot is right before the name
        have hbefore := hps qs p [] rfl
        rw [List.mem_singleton.mp hx.2] at hbefore
        obtain ⟨pre, d, rfl, _, hdlex⟩ := exists_dot hbefore
        rw [List.length_append, List.length_singleton] at hlen
        rw [List.append_assoc] at h hps ⊢
        exact leftBy_of_step hps.left hdlex hx
          (fun base hbase => ih pre.length (by omega) hps.left hbase rfl) h
      · have hnot : ∀ x, ¬ p.IsName x [.afterDot] := fun x hx => hname ⟨x, hx⟩
        rw [dispatchAll_append, dispatchAll_cons, dispatchAll_nil] at h
        by_cases harrow : p.lexeme = .arrow
        · have hnav := nav_dispatch_arrow harrow (new.dispatchAll qs schema) schema
          have hcursor := h.symm.trans (congrArg Nav.cursor hnav)
          cases hcursor
        · rw [cursor_other harrow hnot] at h
          obtain ⟨n, hn⟩ := ih qs.length (by omega) hps.left h rfl
          exact ⟨n, .other hn harrow hnot⟩

/-- **The tracker narrows by what a dot goes on from.** -/
theorem goesOn_of_receiver (hps : Truthful ps) {cls : Bytes}
    (h : (new.dispatchAll ps schema).receiver = some cls) : ∃ n, GoesOn schema n cls ps := by
  cases hvar : (new.dispatchAll ps schema).pendingRefvar with
  | some v =>
    obtain ⟨n, hn⟩ := awaits_of_refvar hps hvar
    exact ⟨n, .inl ⟨v, hn, find_of_binding ((receiver_of_refvar hvar).2.2 cls h)⟩⟩
  | none =>
    rw [receiver_of_none hvar] at h
    obtain ⟨n, hn⟩ := leftBy_of_cursor hps h
    exact ⟨n, .inr ⟨(not_awaits_iff hps).mpr hvar, hn⟩⟩

/-! ## Direct dots -/

theorem LeftBy.le {n : Nat} {cls : Bytes} (h : LeftBy schema n cls ps) : n ≤ ps.length := by
  induction h with
  | ofVar => exact le_refl _
  | ofStep => exact le_refl _
  | untyped _ _ _ _ _ ih =>
    rw [List.length_append]
    omega
  | other _ _ _ ih =>
    rw [List.length_append]
    omega

/-- A variable and its `$` leave the environment alone. -/
theorem scopes_var {front : List Piece} {d p : Piece} {v : Bytes} (hd : d.IsMark Byte.dollar)
    (hp : p.lexeme = .ident v) : scopes schema (front ++ [d, p]) = scopes schema front := by
  have hdollar : d.lexeme = .dollar := by
    rw [hd.lexeme]
    decide
  rw [scopes_append, scopesFrom, scopesFrom, scopesFrom, scopeStep, scopeStep, hdollar, hp]

/-- A variable right before the dot. -/
theorem navExpr_of_awaits {v cls : Bytes} {n : Nat} (h : Awaits v n ps) (hn : n = ps.length)
    (hv : (scopes schema ps).find v = some (.element (some cls))) :
    ∃ front nav, ps = front ++ nav ∧ NavExpr schema front cls nav := by
  obtain ⟨front, d, p, rest, rfl, hlen, hd, hp, _⟩ := h
  have hrest : rest = [] := by
    simp only [List.length_append] at hlen hn
    exact List.length_eq_zero_iff.mp (by omega)
  subst hrest
  rw [List.append_nil] at hv ⊢
  rw [scopes_var hd hp.1] at hv
  exact ⟨front, [d, p], rfl, .var hd hp hv⟩

/-- **A step that is left over spells its class**, if all dots are direct. -/
theorem navExpr_of_leftBy {n : Nat} {cls : Bytes} (h : LeftBy schema n cls ps)
    (hdirect : ∀ pre d post, ps = pre ++ d :: post → d.lexeme = .dot → Direct schema pre) :
    ∃ front nav, ps.take n = front ++ nav ∧
      ∀ args, Arguments args → NavExpr schema front cls (nav ++ args) := by
  induction h with
  | ofVar hv hbound hd hp hx =>
    rename_i ps d p
    have hlen := (hdirect ps d [p] rfl hd).var _ _ _ hv hbound
    obtain ⟨front, nav, hps, hnav⟩ := navExpr_of_awaits hv hlen hbound
    refine ⟨front, nav ++ [d, p], ?_, ?_⟩
    · rw [List.take_length, hps, List.append_assoc]
    · intro args hargs
      rw [List.append_assoc]
      exact .step hnav hd hp hx hargs
  | ofStep hnone h hd hp hx ih =>
    rename_i m ps d p
    have hargs₀ := (hdirect ps d [p] rfl hd).step hnone _ _ h
    obtain ⟨front, nav, htake, hnav⟩ := ih fun pre e post hps he =>
      hdirect pre e (post ++ [d, p]) (by rw [hps]; simp) he
    have hps : ps = front ++ (nav ++ ps.drop m) := by
      conv_lhs => rw [← List.take_append_drop m ps, htake]
      rw [List.append_assoc]
    refine ⟨front, nav ++ ps.drop m ++ [d, p], ?_, ?_⟩
    · rw [List.take_length]
      conv_lhs => rw [hps]
      simp
    · intro args hargs
      rw [List.append_assoc]
      exact .step (hnav _ hargs₀) hd hp hx hargs
  | untyped hv hfree h hd hp ih =>
    rename_i ps d p
    obtain ⟨front, nav, htake, hnav⟩ := ih fun pre e post hps he =>
      hdirect pre e (post ++ [d, p]) (by rw [hps]; simp) he
    exact ⟨front, nav, by rw [List.take_append_of_le_length h.le, htake], hnav⟩
  | other h harrow hname ih =>
    rename_i ps p
    obtain ⟨front, nav, htake, hnav⟩ := ih fun pre e post hps he =>
      hdirect pre e (post ++ [p]) (by rw [hps]; simp) he
    exact ⟨front, nav, by rw [List.take_append_of_le_length h.le, htake], hnav⟩

/-- What a direct dot goes on from stands right before it. -/
theorem navExpr_of_receiver (hps : Truthful ps)
    (hdirect : ∀ pre d post, ps = pre ++ d :: post → d.lexeme = .dot → Direct schema pre)
    (hlast : Direct schema ps) {cls : Bytes}
    (h : (new.dispatchAll ps schema).receiver = some cls) :
    ∃ front nav, ps = front ++ nav ∧ NavExpr schema front cls nav := by
  obtain ⟨n, hn⟩ := goesOn_of_receiver hps h
  rcases hn with ⟨v, hv, hbound⟩ | ⟨hnone, hleft⟩
  · exact navExpr_of_awaits hv (hlast.var v n cls hv hbound) hbound
  · obtain ⟨front, nav, htake, hnav⟩ := navExpr_of_leftBy hleft hdirect
    refine ⟨front, nav ++ ps.drop n, ?_, hnav _ (hlast.step hnone n cls hleft)⟩
    rw [← List.append_assoc, ← htake, List.take_append_drop]

/-! ## The positions of a stream -/

/-- A dot's base is what the tracker goes on from. -/
theorem dotBase_of_dot {d : Piece} (hd : d.lexeme = .dot) :
    (new.dispatchAll (ps ++ [d]) schema).dotBase = (new.dispatchAll ps schema).receiver := by
  rw [dispatchAll_append, dispatchAll_cons, dispatchAll_nil]
  exact congrArg Nav.base (nav_dispatch_dot hd (new.dispatchAll ps schema) schema)

theorem openingPosition_eq_member {t : ScopeTracker} {s : State} {cls : Bytes}
    (h : t.openingPosition s = .member cls) : s = .afterDot ∧ t.dotBase = some cls := by
  unfold openingPosition at h
  split at h
  · cases h
  · cases h
  · cases h
  · split at h
    · cases h
    · split at h
      · cases h
        exact ⟨rfl, ‹_›⟩
      · cases h
  all_goals
    first
      | cases h
      | (split at h
         · cases h
         · split at h <;> cases h)

theorem position_eq_member {t : ScopeTracker} {l : Lexer} {cls : Bytes}
    (h : (t.hold l).position l.state = .member cls) :
    l.opensAt = .afterDot ∧ t.dotBase = some cls := by
  rw [position] at h
  rw [Lexer.opensAt]
  cases hk : l.state.lexemeKind with
  | some k =>
    simp only [hk, Option.isSome_some, if_true, hold, Option.map_some, carriedPosition] at h ⊢
    split at h
    · cases h
    · exact openingPosition_eq_member h
  | none =>
    simp only [hk, Option.isSome_none, Bool.false_eq_true, if_false] at h ⊢
    exact openingPosition_eq_member h

/-- The pieces of a live stream, the lexeme in flight among them, are
truthfully anchored, and so is the lexeme about to open. -/
theorem truthful_of_tokens {toks : List Bytes} {l : Lexer}
    (h : Lexer.start.tokens toks = some (l, ps)) :
    Truthful (ps ++ l.pieces) ∧ Reader.Before l.opensAt ps := by
  have hanch := Reader.anchored_read (Reader.read_of_tokens h)
  refine ⟨fun pre p post hall => hanch.pieces pre p post hall, ?_⟩
  rw [Lexer.opensAt]
  cases hk : l.state.lexemeKind with
  | some k =>
    have hpieces : l.pieces = [⟨l.seg, l.anchor⟩] := Reader.pieces_lexeme (by simp [hk])
    exact hanch.pieces ps ⟨l.seg, l.anchor⟩ [] (by rw [Reader.all]; exact congrArg _ hpieces)
  | none =>
    obtain ⟨hseg, _⟩ := Lexer.settled_tokens Lexer.settled_start h hk
    have hstate := hanch.state
    have hpieces : l.pieces = [] := by rw [Reader.pieces_gap hk, hseg, gapPieces_nil]
    have hall : (Reader.all ⟨l, ps⟩) = ps := by
      rw [Reader.all]
      exact (congrArg (ps ++ ·) hpieces).trans (List.append_nil ps)
    rw [hall] at hstate
    exact hstate

/-- An identifier that opens behind a `$` or a `.` begins as one. -/
def nameRow (s : State) (k : ByteClass) (s' : State) : Bool :=
  !decide (s ∈ [State.afterDollar, .afterDot]) || s'.lexemeKind != some .ident || k == .identStart

theorem checkEdges_nameRow : checkEdges nameRow = true := by decide +kernel

/-- The identifier in flight behind a `$` or a `.` begins as one. -/
def BeginsAsName (l : Lexer) : Prop :=
  l.state.lexemeKind = some .ident → l.anchor ∈ [State.afterDollar, .afterDot] →
    ∃ b u, l.seg = b :: u ∧ isIdentStart b = true

theorem beginsAsName_of_tokens {toks : List Bytes} {l : Lexer}
    (h : Lexer.start.tokens toks = some (l, ps)) : BeginsAsName l := by
  intro hident
  refine Reader.lexeme_invariant (I := fun l => l.anchor ∈ [State.afterDollar, .afterDot] →
    ∃ b u, l.seg = b :: u ∧ isIdentStart b = true) ?_ ?_ h hident
  · intro l b c hadv _ hc ha
    obtain ⟨k, hb, hrow⟩ := advance_check checkEdges_nameRow hadv
    have hclass : k = .identStart := by simpa [nameRow, hc, show l.state ∈ _ from ha] using hrow
    rw [hclass] at hb
    exact ⟨b, [], rfl, hb⟩
  · intro l b c _ _ _ hI ha
    obtain ⟨x, u, hseg, hx⟩ := hI ha
    exact ⟨x, u ++ [b], congrArg (· ++ [b]) hseg, hx⟩

/-- A fused dot behind a lexeme in flight goes on from a variable or a
member that lexeme names. -/
theorem name_of_fused {toks : List Bytes} {l : Lexer}
    (h : Lexer.start.tokens toks = some (l, ps)) {k : LexKind} (hk : l.state.lexemeKind = some k)
    {t : ScopeTracker} {pos : L2Position}
    (hfused : (t.hold l).fusedNavPosition schema = some pos) :
    (Piece.IsName ⟨l.seg, l.anchor⟩ l.seg [.afterDollar] ∧ t.navFromVar l.seg = some pos) ∨
      (Piece.IsName ⟨l.seg, l.anchor⟩ l.seg [.afterDot] ∧
        t.navFromMember l.seg schema = some pos) := by
  simp only [fusedNavPosition, hold, hk, Option.map_some] at hfused
  by_cases hident : k = .ident
  · subst hident
    by_cases hutf : isUtf8 l.seg = true
    · simp only [ne_eq, not_true_eq_false, if_false, hutf, Bool.not_true, Bool.false_eq_true]
        at hfused
      have hname : ∀ s ∈ [State.afterDollar, .afterDot], l.anchor = s →
          Piece.IsName ⟨l.seg, l.anchor⟩ l.seg [s] := by
        intro s hs ha
        obtain ⟨b, u, hseg, hb⟩ := beginsAsName_of_tokens h hk (ha ▸ hs)
        refine ⟨?_, List.mem_singleton.mpr ha⟩
        rw [Piece.lexeme, hseg]
        exact classify_of_identStart hb (hseg ▸ hutf)
      split at hfused
      · exact .inl ⟨hname .afterDollar (by decide) ‹_›, hfused⟩
      · exact .inr ⟨hname .afterDot (by decide) ‹_›, hfused⟩
      · cases hfused
    · simp [hutf] at hfused
  · simp [hident] at hfused

theorem binding_of_navFromVar {t : ScopeTracker} {v cls : Bytes}
    (h : t.navFromVar v = some (.member cls)) : t.binding v = .element (some cls) := by
  rw [navFromVar] at h
  split at h
  · cases h
  · rename_i hrow
    obtain ⟨out, hout, hsame⟩ := Option.map_eq_some_iff.mp h
    cases hsame
    have hentry := Option.join_eq_some_iff.mp hout
    rw [binding, Binding.element, hentry]
    simp [hrow]

/-- **A fused dot goes on from what a dot would.** -/
theorem receiver_of_fused {toks : List Bytes} {l : Lexer}
    (h : Lexer.start.tokens toks = some (l, ps)) {cls : Bytes}
    (hfused : ((new.dispatchAll ps schema).hold l).fusedNavPosition schema = some (.member cls)) :
    (new.dispatchAll (ps ++ l.pieces) schema).receiver = some cls := by
  cases hk : l.state.lexemeKind with
  | none =>
    obtain ⟨hseg, _⟩ := Lexer.settled_tokens Lexer.settled_start h hk
    rw [Reader.pieces_gap hk, hseg, gapPieces_nil, List.append_nil]
    simp only [fusedNavPosition, hold, hk, Option.map_none] at hfused
    cases hrefvar : (new.dispatchAll ps schema).pendingRefvar with
    | some v =>
      rw [hrefvar] at hfused
      exact receiver_of_binding hrefvar (binding_of_navFromVar hfused)
    | none =>
      rw [hrefvar] at hfused
      rw [receiver_of_none hrefvar]
      obtain ⟨out, hout, hsame⟩ := Option.map_eq_some_iff.mp hfused
      cases hsame
      exact hout
  | some k =>
    rw [Reader.pieces_lexeme (by simp [hk])]
    rcases name_of_fused h hk hfused with ⟨hp, hv⟩ | ⟨hp, hmember⟩
    · have hb := binding_of_navFromVar hv
      have hundo := asUndo_dispatchToken (flat_of_ident hp.1) (by simp [hp.1])
        (new.dispatchAll ps schema) schema
      have hanchor : l.anchor = .afterDollar := List.mem_singleton.mp hp.2
      have hnav := nav_dispatch_ident hp.1 (new.dispatchAll ps schema) schema
      simp only [hanchor] at hnav
      rw [dispatchAll_append, dispatchAll_cons, dispatchAll_nil]
      refine receiver_of_binding ?_ ((congrFun (congrArg Undo.store hundo) l.seg).trans hb)
      dsimp only
      rw [hanchor]
      exact congrArg Nav.refvar hnav
    · obtain ⟨htruth, _⟩ := truthful_of_tokens h
      rw [Reader.pieces_lexeme (by simp [hk])] at htruth
      have hanchor : l.anchor = .afterDot := List.mem_singleton.mp hp.2
      have hbefore := htruth ps _ [] rfl
      dsimp only at hbefore
      rw [hanchor] at hbefore
      obtain ⟨pre, d, rfl, _, hdlex⟩ := exists_dot hbefore
      have hbase := @dotBase_of_dot schema pre d hdlex
      simp only [navFromMember, hbase] at hmember
      cases hr : (new.dispatchAll pre schema).receiver with
      | none =>
        rw [hr] at hmember
        cases hmember
      | some base =>
        rw [hr] at hmember
        have hstep := cursor_step hdlex hp (new.dispatchAll pre schema) schema
        have hnone := refvar_step hdlex hp (new.dispatchAll pre schema) schema
        rw [List.append_assoc, dispatchAll_append]
        refine (receiver_of_none hnone).trans (hstep.trans ?_)
        rw [receiverIsRow_eq_false hr, hr]
        simp only [Bool.false_eq_true, if_false, Option.elim]
        cases hres : schema.resolve base l.seg with
        | none => simp [hres] at hmember
        | some r =>
          cases r with
          | cls path mult =>
            simp only [hres, Option.some.injEq, L2Position.member.injEq] at hmember
            rw [← hmember]
            rfl
          | primitive prim mult => simp [hres] at hmember
          | enum path mult => simp [hres] at hmember

/-- **Navigation typing.** In every live stream whose dots are direct, the
text before a dot behind which the tracker narrows to the members of
`cls`, whether the dot has been read or would be fused, is a navigation
expression of that class. -/
theorem navigation_typed {toks : List Bytes} {p : Pda} {t : ScopeTracker}
    (hlive : drive schema freshStart toks = some (p, t)) {l : Lexer}
    (hpieces : Lexer.start.tokens toks = some (l, ps))
    (hdirect : ∀ pre d post, ps = pre ++ d :: post → d.lexeme = .dot → Direct schema pre) :
    (∀ cls, t.position p.state = .member cls →
      ∃ front nav d, ps = front ++ nav ++ [d] ∧ d.IsMark Byte.dot ∧
        NavExpr schema front cls nav) ∧
    ∀ cls, Direct schema (ps ++ l.pieces) → t.fusedNavPosition schema = some (.member cls) →
      ∃ front nav, ps ++ l.pieces = front ++ nav ∧ NavExpr schema front cls nav := by
  obtain ⟨l', ps', hps, _, rfl, rfl⟩ := pieces_of_drive hlive
  rw [hpieces] at hps
  cases hps
  obtain ⟨htruth, hbefore⟩ := truthful_of_tokens hpieces
  constructor
  · intro cls hpos
    obtain ⟨hopens, hbase⟩ := position_eq_member (l := l) hpos
    rw [hopens] at hbefore
    obtain ⟨pre, d, rfl, htext, hdlex⟩ := exists_dot hbefore
    rw [dotBase_of_dot hdlex] at hbase
    obtain ⟨front, nav, hpre, hnav⟩ := navExpr_of_receiver htruth.left.left
      (fun pre' e post hps he => hdirect pre' e (post ++ [d]) (by rw [hps]; simp) he)
      (hdirect pre d [] rfl hdlex) hbase
    exact ⟨front, nav, d, by rw [hpre], htext, hnav⟩
  · intro cls hlast hfused
    refine navExpr_of_receiver htruth ?_ hlast (receiver_of_fused hpieces hfused)
    intro pre d post hall hd
    -- the lexeme in flight is no dot
    cases hk : l.state.lexemeKind with
    | none =>
      obtain ⟨hseg, _⟩ := Lexer.settled_tokens Lexer.settled_start hpieces hk
      rw [Reader.pieces_gap hk, hseg, gapPieces_nil, List.append_nil] at hall
      exact hdirect pre d post hall hd
    | some k =>
      rw [Reader.pieces_lexeme (by simp [hk])] at hall
      rcases Reader.concat_eq_split hall with ⟨_, rfl, _⟩ | ⟨post', rfl, hps⟩
      · rcases name_of_fused hpieces hk hfused with ⟨hp, _⟩ | ⟨hp, _⟩
        all_goals
          rw [hp.1] at hd
          cases hd
      · exact hdirect pre d post' hps hd

/-! ### Two streams -/

theorem LeftBy.exists_step {n : Nat} {cls : Bytes} (h : LeftBy schema n cls ps) :
    ∃ p ∈ ps, p.anchor = .afterDot := by
  induction h with
  | ofVar _ _ _ hp _ => exact ⟨_, by simp, List.mem_singleton.mp hp.2⟩
  | ofStep _ _ _ hp _ _ => exact ⟨_, by simp, List.mem_singleton.mp hp.2⟩
  | untyped _ _ _ _ hp _ => exact ⟨_, by simp, List.mem_singleton.mp hp.2⟩
  | other _ _ _ ih =>
    obtain ⟨p, hp, ha⟩ := ih
    exact ⟨p, List.mem_append_left _ hp, ha⟩

/-- Without a `$` or a step there is nothing to go on from. -/
theorem direct_of_plain (h : ∀ p ∈ ps, p.anchor ≠ .afterDollar ∧ p.anchor ≠ .afterDot) :
    Direct schema ps := by
  refine ⟨?_, ?_⟩
  · rintro v n cls ⟨front, d, p, rest, hps, _, _, hp, _⟩
    exact absurd (List.mem_singleton.mp hp.2) (h p (by rw [hps]; simp)).1
  · intro _ n cls hleft
    obtain ⟨p, hp, ha⟩ := hleft.exists_step
    exact absurd ha (h p hp).2

/-- A variable right before the dot is what it goes on from. -/
theorem direct_of_name {v : Bytes} {p : Piece} (hp : p.IsName v [.afterDollar])
    (hbefore : Reader.Before p.anchor ps) : Direct schema (ps ++ [p]) := by
  refine ⟨?_, fun hnone => absurd (awaits_name hp hbefore) (hnone _ _)⟩
  rintro u n cls ⟨front, d, q, rest, hps, rfl, _, _, hrest⟩ _
  rw [hps]
  rcases List.eq_nil_or_concat rest with rfl | ⟨rest', r, rfl⟩
  · rw [List.append_nil]
  · -- the last piece would have to wait
    rw [List.concat_eq_append, ← List.append_assoc] at hps
    obtain ⟨_, hlast⟩ := List.append_inj' hps rfl
    have hwaits := hrest r (by simp)
    rw [← (List.cons.inj hlast).1, Piece.waits, hp.1] at hwaits
    simp [List.mem_singleton.mp hp.2] at hwaits

theorem NavExpr.exists_last {front nav : List Piece} {cls : Bytes}
    (h : NavExpr schema front cls nav) :
    ∃ p ∈ nav.getLast?, p.anchor = .afterDollar ∨ p.anchor = .afterDot ∨ p.IsMark Byte.rparen := by
  cases h with
  | var _ hp _ => exact ⟨_, rfl, .inl (List.mem_singleton.mp hp.2)⟩
  | step _ _ hp _ hargs =>
    cases hargs with
    | none => exact ⟨_, by simp, .inr (.inl (List.mem_singleton.mp hp.2))⟩
    | list _ _ hc =>
      refine ⟨_, ?_, .inr (.inr hc)⟩
      rw [← List.cons_append, ← List.cons_append, ← List.append_assoc, List.getLast?_concat]
      rfl

end

/-- The pieces of `|A.all()->filter(x|$`. -/
def beforeVariable : List Piece :=
  [⟨ascii "|", .start⟩, ⟨ascii "A", .expectSource⟩, ⟨ascii ".", .inSourceIdent⟩,
   ⟨ascii "all", .afterDot⟩, ⟨ascii "(", .inIdent⟩, ⟨ascii ")", .inIdent⟩,
   ⟨ascii "->", .inIdent⟩, ⟨ascii "filter", .afterArrow⟩, ⟨ascii "(", .inIdent⟩,
   ⟨ascii "x", .expectValue⟩, ⟨ascii "|", .inIdent⟩, ⟨ascii "$", .inIdent⟩]

/-- The pieces of `x.` after it. -/
def variableDot : List Piece := [⟨ascii "x", .afterDollar⟩, ⟨ascii ".", .inIdent⟩]

/-- Both dots of `|A.all()->filter(x|$x.` are direct: one follows `|A`, the
other `$x`. -/
theorem direct_variable {schema : Schema} {pre post : List Piece} {d : Piece}
    (h : beforeVariable ++ variableDot = pre ++ d :: post) (hd : d.lexeme = .dot) :
    Direct schema pre := by
  have hdots : ∀ i < 14, ((beforeVariable ++ variableDot).map Piece.lexeme)[i]? = some .dot →
      i = 2 ∨ i = 13 := by
    decide +kernel
  have hat : ((beforeVariable ++ variableDot).map Piece.lexeme)[pre.length]? = some .dot := by
    rw [h, List.map_append, List.map_cons, List.getElem?_append_right (by simp), List.length_map,
      Nat.sub_self, hd]
    rfl
  have hlt : pre.length < 14 := by
    have hlen : 14 = (pre ++ d :: post).length := congrArg List.length h
    rw [List.length_append, List.length_cons] at hlen
    omega
  have htake : pre = (beforeVariable ++ variableDot).take pre.length := by
    rw [h, List.take_left]
  rcases hdots pre.length hlt hat with hi | hi
  · rw [htake, hi]
    exact direct_of_plain (by decide +kernel)
  · rw [htake, hi]
    have hname : Piece.IsName ⟨ascii "x", .afterDollar⟩ (ascii "x") [.afterDollar] :=
      ⟨by decide +kernel, by decide⟩
    exact @direct_of_name schema beforeVariable _ _ hname rfl

/-- In `|A.all()->filter(x|$x.` the narrowing to the members of `A` is that of
the navigation `$x`. -/
theorem navigation_typed_variable : ∃ c,
    drive Schema.sample freshStart [ascii "|A.all()->filter(x|$x."] = some c ∧
    c.2.position c.1.state = .member (ascii "A") ∧
    ∃ front nav d, beforeVariable ++ variableDot = front ++ nav ++ [d] ∧ d.IsMark Byte.dot ∧
      NavExpr Schema.sample front (ascii "A") nav := by
  have hrun : (drive Schema.sample freshStart [ascii "|A.all()->filter(x|$x."]).map
      (fun c => c.2.position c.1.state) = some (.member (ascii "A")) := by
    decide +kernel
  obtain ⟨c, hc, hpos⟩ := Option.map_eq_some_iff.mp hrun
  have hpieces : Lexer.start.tokens [ascii "|A.all()->filter(x|$x."] =
      some (⟨.afterDot, [.paren], [], .afterDot⟩, beforeVariable ++ variableDot) := by
    decide +kernel
  exact ⟨c, hc, hpos, (navigation_typed hc hpieces fun pre d post h hd =>
    direct_variable h hd).1 _ hpos⟩

/-- The pieces of `|A.all()->filter(x|$x.toB == B.`. -/
def staleDot : List Piece :=
  beforeVariable ++ variableDot ++ [⟨ascii "toB", .afterDot⟩, ⟨ascii "==", .inIdent⟩,
    ⟨ascii "B", .expectValueReq⟩, ⟨ascii ".", .inIdent⟩]

/-- The last dot of `staleDot` follows the class path `B`, but what `$x.toB`
reached is still there: the tracker narrows to the members of `B`. -/
theorem stale_navigation : ∃ c,
    drive Schema.sample freshStart [ascii "|A.all()->filter(x|$x.toB == B."] = some c ∧
    (∃ l, Lexer.start.tokens [ascii "|A.all()->filter(x|$x.toB == B."] = some (l, staleDot)) ∧
    c.2.position c.1.state = .member (ascii "B") ∧
    ¬ ∃ front nav d, staleDot = front ++ nav ++ [d] ∧ d.IsMark Byte.dot ∧
      NavExpr Schema.sample front (ascii "B") nav := by
  have hrun : (drive Schema.sample freshStart [ascii "|A.all()->filter(x|$x.toB == B."]).map
      (fun c => c.2.position c.1.state) = some (.member (ascii "B")) := by
    decide +kernel
  obtain ⟨c, hc, hpos⟩ := Option.map_eq_some_iff.mp hrun
  refine ⟨c, hc, ⟨⟨.afterDot, [.paren], [], .afterDot⟩, by decide +kernel⟩, hpos, ?_⟩
  rintro ⟨front, nav, d, hps, _, hnav⟩
  obtain ⟨p, hp, hlast⟩ := hnav.exists_last
  have hdrop := congrArg List.dropLast hps
  rw [List.dropLast_concat] at hdrop
  have hget : staleDot.dropLast.getLast? = some p := by
    rw [hdrop, List.getLast?_append, hp]
    rfl
  have hB : staleDot.dropLast.getLast? = some ⟨ascii "B", .expectValueReq⟩ := by decide +kernel
  rw [hB] at hget
  cases hget
  rcases hlast with h | h | h
  · cases h
  · cases h
  · exact absurd (show ascii "B" = [Byte.rparen] from h) (by decide +kernel)

end PureCard
