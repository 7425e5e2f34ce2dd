/-
PureCard.Schema.Columns — the columns a stream has recorded.

Two kinds of pieces record a column: a string, anywhere, and an identifier
that `on_ident` takes for a column name (right after a `~`, or in a value
position directly inside a `~[`). `emitted_dispatchToken` is the whole of
it; in particular a column is never forgotten while the stream goes on.
-/
import PureCard.Schema.Scoping

namespace PureCard

namespace ScopeTracker

/-- The columns a piece records. -/
def columnsOf (t : ScopeTracker) (lex : Lexeme) (preState : State) : List Bytes :=
  match lex with
  | .ident text => if t.recordsColumn preState then [text] else []
  | .str content => [content]
  | _ => []

theorem recorded_resolveMember (t : ScopeTracker) (ident : Bytes) (schema : Schema) :
    (t.resolveMember ident schema).1.emittedStrings = t.emittedStrings ∧
      (t.resolveMember ident schema).1.tildeOpen = t.tildeOpen := by
  unfold resolveMember
  repeat' split
  all_goals exact ⟨rfl, rfl⟩

theorem recorded_bindIdent (t : ScopeTracker) (text : Bytes) (preState : State)
    (schema : Schema) : (t.bindIdent text preState schema).1.emittedStrings = t.emittedStrings ∧
      (t.bindIdent text preState schema).1.tildeOpen = t.tildeOpen := by
  unfold bindIdent
  repeat' split
  all_goals first | exact ⟨rfl, rfl⟩ | exact t.recorded_resolveMember text schema

theorem emitted_onIdent (t : ScopeTracker) (text : Bytes) (preState : State) (schema : Schema) :
    (t.onIdent text preState schema).1.emittedStrings =
      t.emittedStrings ++ t.columnsOf (.ident text) preState := by
  obtain ⟨hemit, htilde⟩ := (t.sawClass text schema).recorded_bindIdent text preState schema
  have hrec : ((t.sawClass text schema).bindIdent text preState schema).1.recordsColumn preState =
      t.recordsColumn preState := by
    rw [recordsColumn, recordsColumn, htilde]
    rfl
  have hsaw : (t.sawClass text schema).emittedStrings = t.emittedStrings := rfl
  rw [onIdent_eq]
  dsimp only
  rw [hrec, hemit, hsaw, columnsOf]
  split
  · rfl
  · rw [List.append_nil]

theorem emitted_onPipe (t : ScopeTracker) (preState : State) :
    (t.onPipe preState).emittedStrings = t.emittedStrings := by
  unfold onPipe bindLambda
  dsimp only
  repeat' split
  all_goals rfl

theorem emitted_onOpen (t : ScopeTracker) (preState : State) :
    (t.onOpen preState).emittedStrings = t.emittedStrings := by
  unfold onOpen openMethod
  dsimp only
  repeat' split
  all_goals rfl

theorem emitted_onClose (t : ScopeTracker) : t.onClose.emittedStrings = t.emittedStrings := by
  rw [onClose_eq, restoreScopes_eq, restoreBinders_eq]
  dsimp only
  split <;> rfl

/-- **What a piece records.** -/
theorem emitted_dispatchToken (t : ScopeTracker) (bytes : Bytes) (preState : State)
    (schema : Schema) : (t.dispatchToken bytes preState schema).emittedStrings =
      t.emittedStrings ++ t.columnsOf (classify bytes) preState := by
  by_cases hws : classify bytes = .ws
  · rw [dispatchToken_ws hws, hws]
    exact (List.append_nil _).symm
  · rw [dispatchToken_eq rfl hws]
    change (t.dispatchLexeme (classify bytes) preState schema).1.emittedStrings = _
    cases hlex : classify bytes with
    | ident text => exact t.emitted_onIdent text preState schema
    | str content => rfl
    | pipe => exact (t.emitted_onPipe preState).trans (List.append_nil _).symm
    | «open» => exact (t.emitted_onOpen preState).trans (List.append_nil _).symm
    | close => exact t.emitted_onClose.trans (List.append_nil _).symm
    | dot =>
      have hdot : t.onDot.emittedStrings = t.emittedStrings := by
        unfold onDot
        dsimp only
        repeat' split
        all_goals rfl
      exact hdot.trans (List.append_nil _).symm
    | cmp =>
      rw [dispatchLexeme]
      cases t.lastResolved <;> exact (List.append_nil _).symm
    | _ => exact (List.append_nil _).symm

/-! ## Recorded columns stay -/

theorem emitted_prefix_dispatchToken (t : ScopeTracker) (bytes : Bytes) (preState : State)
    (schema : Schema) :
    t.emittedStrings <+: (t.dispatchToken bytes preState schema).emittedStrings := by
  rw [emitted_dispatchToken]
  exact List.prefix_append _ _

theorem emitted_prefix_dispatchAll (t : ScopeTracker) (ps : List Piece) (schema : Schema) :
    t.emittedStrings <+: (t.dispatchAll ps schema).emittedStrings := by
  induction ps generalizing t with
  | nil => exact List.prefix_rfl
  | cons p ps ih => exact (t.emitted_prefix_dispatchToken p.text p.anchor schema).trans (ih _)

theorem emitted_prefix_emitLexeme (t : ScopeTracker) (seg : Bytes) (anchor : State)
    (continuing : Bool) (schema : Schema) :
    t.emittedStrings <+: (t.emitLexeme seg anchor continuing schema).emittedStrings := by
  unfold emitLexeme
  split
  · exact emitted_prefix_dispatchToken { t with pending := none } ..
  · exact emitted_prefix_dispatchToken t ..

theorem emitted_prefix_flushGap (t : ScopeTracker) (gap : Bytes) (anchor : State)
    (schema : Schema) : t.emittedStrings <+: (t.flushGap gap anchor schema).emittedStrings := by
  rw [flushGap_eq]
  exact emitted_prefix_dispatchAll ..

theorem emitted_prefix_read (w : Walker) (schema : Schema) (b : UInt8) (c : State × List Frame) :
    w.tracker.emittedStrings <+: (w.read schema b c).tracker.emittedStrings := by
  unfold Walker.read
  dsimp only
  cases w.state.lexemeKind with
  | some k =>
    dsimp only
    split
    · exact List.prefix_rfl
    · exact emitted_prefix_emitLexeme ..
  | none =>
    dsimp only
    split
    · exact emitted_prefix_flushGap ..
    · exact List.prefix_rfl

/-- **Observing a token forgets no column**, whatever state the tracker
and the automaton are in. -/
theorem emitted_prefix_observe (t : ScopeTracker) (bytes : Bytes) (pre : Pda) (schema : Schema) :
    t.emittedStrings <+: (t.observe bytes pre schema).emittedStrings := by
  have hbegin : t.emittedStrings <+: (t.beginWalk pre schema).tracker.emittedStrings := by
    unfold beginWalk
    split
    · split
      · exact List.prefix_rfl
      · exact emitted_prefix_dispatchToken { t with pending := none } ..
    · exact List.prefix_rfl
  have hfinish : ∀ w : Walker, w.tracker.emittedStrings <+: (w.finish schema).emittedStrings := by
    intro w
    unfold Walker.finish
    split
    · unfold bufferTrailing
      split <;> exact List.prefix_rfl
    · exact emitted_prefix_flushGap ..
  have hwalk : ∀ w : Walker,
      (∀ w', w.walk schema bytes = .ok w' → w.tracker.emittedStrings <+: w'.tracker.emittedStrings) ∧
        ∀ t', w.walk schema bytes = .error t' → w.tracker.emittedStrings <+: t'.emittedStrings := by
    induction bytes with
    | nil => exact fun w => ⟨fun w' h => by cases h; exact List.prefix_rfl, fun t' h => by cases h⟩
    | cons b rest ih =>
      intro w
      rw [Walker.walk]
      cases Pushdown.advance step (w.state, w.stack) b with
      | none => exact ⟨fun w' h => (by cases h), fun t' h => by cases h; exact List.prefix_rfl⟩
      | some c =>
        have hread := emitted_prefix_read w schema b c
        exact ⟨fun w' h => hread.trans ((ih (w.read schema b c)).1 w' h),
          fun t' h => hread.trans ((ih (w.read schema b c)).2 t' h)⟩
  refine hbegin.trans ?_
  unfold observe
  obtain ⟨hok, herror⟩ := hwalk (t.beginWalk pre schema)
  split
  · exact (hok _ ‹_›).trans (hfinish _)
  · exact herror _ ‹_›

end ScopeTracker

end PureCard
