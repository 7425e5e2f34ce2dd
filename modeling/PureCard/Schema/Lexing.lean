/-
PureCard.Schema.Lexing — the scope machine as a fold over pieces.

`observe` does two things at once: it cuts the stream into pieces and it
drives the tracker with them. The cutting never looks at the tracker, so
it is a machine of its own, the `Lexer`: an automaton configuration, the
bytes of the segment being read and the state that segment opened at. A
lexeme goes on across tokens; a structural gap ends with the token.

`observe_eq` says that observing a token is reading it with the lexer and
dispatching the pieces that come out. `drive_eq` lifts it to a run of
tokens. Every later statement about the tracker is about a list of pieces.
-/
import PureCard.Grammar.PdaTheorems
import PureCard.Schema.Scope

namespace PureCard

open Pushdown ScopeTracker

/-- A run of bytes handed to the scope machine, with the automaton state
it opened at. -/
structure Piece where
  text : Bytes
  anchor : State
  deriving DecidableEq, Repr

/-- The lexeme class of a piece. -/
def Piece.lexeme (p : Piece) : Lexeme := classify p.text

/-- The piece is the byte `b`. -/
def Piece.IsMark (p : Piece) (b : UInt8) : Prop := p.text = [b]

/-- The piece is the identifier `v`, opened at one of `states`. -/
def Piece.IsName (p : Piece) (v : Bytes) (states : List State) : Prop :=
  p.lexeme = .ident v ∧ p.anchor ∈ states

theorem Piece.IsName.classify_eq {p : Piece} {v : Bytes} {states : List State}
    (h : p.IsName v states) : classify v = .ident v := by
  have htext := (classify_ident h.1).1
  have hlex : classify p.text = .ident v := h.1
  rwa [← htext] at hlex

/-- The pieces spell an arrow. -/
def SpellsArrow (ps : List Piece) : Prop :=
  ps.flatMap Piece.text = [Byte.dash, Byte.gt] ∧ ∀ p ∈ ps, p.text ≠ []

instance (ps : List Piece) : Decidable (SpellsArrow ps) := inferInstanceAs (Decidable (_ ∧ _))

/-- The states a value is expected at. -/
def valueStates : List State := [.expectValue, .expectValueReq]

theorem Piece.IsMark.lexeme {p : Piece} {b : UInt8} (h : p.IsMark b) : p.lexeme = classify [b] := by
  rw [Piece.lexeme, h]

/-- An arrow comes in one piece, or as a `-` and a `>`. -/
theorem SpellsArrow.cases {ps : List Piece} (h : SpellsArrow ps) :
    (∃ a, ps = [a] ∧ a.lexeme = .arrow) ∨
      ∃ d g, ps = [d, g] ∧ d.IsMark Byte.dash ∧ g.IsMark Byte.gt := by
  obtain ⟨htext, hne⟩ := h
  have harrow : classify [Byte.dash, Byte.gt] = .arrow := by decide
  cases ps with
  | nil => cases htext
  | cons a ps =>
    obtain ⟨x, xs, ha⟩ := List.exists_cons_of_ne_nil (hne a (by simp))
    rw [List.flatMap_cons, ha, List.cons_append, List.cons.injEq] at htext
    obtain ⟨rfl, htext⟩ := htext
    cases ps with
    | nil =>
      rw [List.flatMap_nil, List.append_nil] at htext
      exact .inl ⟨a, rfl, by rw [Piece.lexeme, ha, htext, harrow]⟩
    | cons b rest =>
      obtain ⟨y, ys, hb⟩ := List.exists_cons_of_ne_nil (hne b (by simp))
      rw [List.flatMap_cons, hb] at htext
      have hxs : xs = [] := by
        cases xs with
        | nil => rfl
        | cons x xs => simp at htext
      subst hxs
      simp only [List.nil_append, List.cons_append, List.cons.injEq,
        List.append_eq_nil_iff] at htext
      obtain ⟨rfl, rfl, hrest⟩ := htext
      cases rest with
      | nil => exact .inr ⟨a, b, rfl, ha, hb⟩
      | cons c rest =>
        rw [List.flatMap_cons, List.append_eq_nil_iff] at hrest
        exact absurd hrest.1 (hne c (by simp))

/-- The pieces of a gap, all under one anchor. -/
def gapPieces (gap : Bytes) (anchor : State) : List Piece := (gapTokens gap).map (⟨·, anchor⟩)

@[simp] theorem gapPieces_nil (anchor : State) : gapPieces [] anchor = [] := rfl

/-! ## The lexer -/

/-- The automaton configuration, the segment being read and its anchor. -/
structure Lexer where
  state : State
  stack : List Frame
  seg : Bytes
  anchor : State
  deriving DecidableEq, Repr

namespace Lexer

def start : Lexer := ⟨.start, [], [], .start⟩

def pda (l : Lexer) : Pda := ⟨l.state, l.stack⟩

/-- The pieces of the segment, were it to end here. -/
def pieces (l : Lexer) : List Piece :=
  match l.state.lexemeKind with
  | some _ => [⟨l.seg, l.anchor⟩]
  | none => gapPieces l.seg l.anchor

/-- Read a byte that moves the automaton to `c`: the segment goes on while
the lexeme class stays the same. -/
def read (l : Lexer) (b : UInt8) (c : State × List Frame) : Lexer :=
  if l.state.lexemeKind = c.1.lexemeKind then ⟨c.1, c.2, l.seg ++ [b], l.anchor⟩
  else ⟨c.1, c.2, [b], l.state⟩

/-- The pieces that byte completes. -/
def completed (l : Lexer) (c : State × List Frame) : List Piece :=
  if l.state.lexemeKind = c.1.lexemeKind then [] else l.pieces

/-- Read a byte string. -/
def feed (l : Lexer) : Bytes → Option (Lexer × List Piece)
  | [] => some (l, [])
  | b :: rest =>
    match Pushdown.advance step (l.state, l.stack) b with
    | none => none
    | some c =>
      match (l.read b c).feed rest with
      | none => none
      | some (l', ps) => some (l', l.completed c ++ ps)

/-- The end of a token: a gap is over, a lexeme goes on. -/
def cut (l : Lexer) : Lexer :=
  if l.state.lexemeKind.isSome then l else ⟨l.state, l.stack, [], l.state⟩

def cutPieces (l : Lexer) : List Piece := if l.state.lexemeKind.isSome then [] else l.pieces

/-- Read one token. -/
def token (l : Lexer) (bytes : Bytes) : Option (Lexer × List Piece) :=
  match l.feed bytes with
  | none => none
  | some (l', ps) => some (l'.cut, ps ++ l'.cutPieces)

/-- Read a run of tokens. -/
def tokens (l : Lexer) : List Bytes → Option (Lexer × List Piece)
  | [] => some (l, [])
  | tok :: rest =>
    match l.token tok with
    | none => none
    | some (l', ps) =>
      match l'.tokens rest with
      | none => none
      | some (l'', qs) => some (l'', ps ++ qs)

/-- Between two tokens: inside a lexeme or at an empty gap. -/
def Settled (l : Lexer) : Prop := l.state.lexemeKind = none → l.seg = [] ∧ l.anchor = l.state

theorem settled_start : start.Settled := fun _ => ⟨rfl, rfl⟩

theorem settled_cut (l : Lexer) : l.cut.Settled := by
  intro h
  unfold cut at h ⊢
  split
  · rw [if_pos ‹_›] at h
    simp_all
  · exact ⟨rfl, rfl⟩

theorem settled_token {l l' : Lexer} {bytes : Bytes} {ps : List Piece}
    (h : l.token bytes = some (l', ps)) : l'.Settled := by
  unfold token at h
  split at h
  · cases h
  · cases h
    exact settled_cut _

@[simp] theorem state_read (l : Lexer) (b : UInt8) (c : State × List Frame) :
    (l.read b c).state = c.1 := by
  unfold read; split <;> rfl

@[simp] theorem stack_read (l : Lexer) (b : UInt8) (c : State × List Frame) :
    (l.read b c).stack = c.2 := by
  unfold read; split <;> rfl

@[simp] theorem pda_cut (l : Lexer) : l.cut.pda = l.pda := by
  unfold cut; split <;> rfl

theorem state_cut (l : Lexer) : l.cut.state = l.state := congrArg Pda.state l.pda_cut

/-! ### The same class or another -/

section Classes

variable {l : Lexer} {c : State × List Frame} {k : LexKind}

theorem read_same (b : UInt8) (h : l.state.lexemeKind = c.1.lexemeKind) :
    l.read b c = ⟨c.1, c.2, l.seg ++ [b], l.anchor⟩ := by
  rw [read, if_pos h]

theorem read_other (b : UInt8) (h : l.state.lexemeKind ≠ c.1.lexemeKind) :
    l.read b c = ⟨c.1, c.2, [b], l.state⟩ := by
  rw [read, if_neg h]

theorem completed_same (h : l.state.lexemeKind = c.1.lexemeKind) : l.completed c = [] := by
  rw [completed, if_pos h]

theorem completed_other (h : l.state.lexemeKind ≠ c.1.lexemeKind) : l.completed c = l.pieces := by
  rw [completed, if_neg h]

/-- A token that ends inside a lexeme leaves it in flight. -/
theorem cut_lexeme (h : l.state.lexemeKind = some k) : l.cut = l := by
  simp [cut, h]

theorem cutPieces_lexeme (h : l.state.lexemeKind = some k) : l.cutPieces = [] := by
  simp [cutPieces, h]

theorem cut_gap (h : l.state.lexemeKind = none) : l.cut = ⟨l.state, l.stack, [], l.state⟩ := by
  simp [cut, h]

theorem cutPieces_gap (h : l.state.lexemeKind = none) : l.cutPieces = l.pieces := by
  simp [cutPieces, h]

end Classes

/-- The lexer dies exactly where the automaton does. -/
theorem feed_pda {l l' : Lexer} {bytes : Bytes} {ps : List Piece}
    (h : l.feed bytes = some (l', ps)) : run step l.pda.config bytes = some l'.pda.config := by
  induction bytes generalizing l ps with
  | nil =>
    simp only [feed, Option.some.injEq, Prod.mk.injEq] at h
    rw [← h.1]
    rfl
  | cons b rest ih =>
    rw [feed] at h
    split at h
    · cases h
    · rename_i c hc
      split at h
      · cases h
      · rename_i hf
        cases h
        have hrun := ih hf
        have hpda : (l.read b c).pda.config = c := by simp [pda, Pda.config]
        rw [hpda] at hrun
        rw [run_cons]
        have hadv : Pushdown.advance step l.pda.config b = some c := hc
        rw [hadv]
        exact hrun

theorem feed_of_run {l : Lexer} {bytes : Bytes} {c : State × List Frame}
    (h : run step l.pda.config bytes = some c) : ∃ l' ps, l.feed bytes = some (l', ps) := by
  induction bytes generalizing l with
  | nil => exact ⟨l, [], rfl⟩
  | cons b rest ih =>
    rw [run_cons] at h
    obtain ⟨d, hd, hrest⟩ := Option.bind_eq_some_iff.mp h
    have hpda : (l.read b d).pda.config = d := by simp [pda, Pda.config]
    obtain ⟨l', ps, hf⟩ := ih (l := l.read b d) (by rw [hpda]; exact hrest)
    have hadv : Pushdown.advance step (l.state, l.stack) b = some d := hd
    exact ⟨l', l.completed d ++ ps, by rw [feed, hadv]; simp only [hf]⟩

end Lexer

/-! ## Dispatching pieces -/

namespace ScopeTracker

/-- Dispatch a list of pieces in order. -/
def dispatchAll (t : ScopeTracker) (ps : List Piece) (schema : Schema) : ScopeTracker :=
  ps.foldl (fun t p => t.dispatchToken p.text p.anchor schema) t

@[simp] theorem dispatchAll_nil (t : ScopeTracker) (schema : Schema) :
    t.dispatchAll [] schema = t := rfl

@[simp] theorem dispatchAll_cons (t : ScopeTracker) (p : Piece) (ps : List Piece)
    (schema : Schema) :
    t.dispatchAll (p :: ps) schema = (t.dispatchToken p.text p.anchor schema).dispatchAll ps schema :=
  rfl

theorem dispatchAll_append (t : ScopeTracker) (ps qs : List Piece) (schema : Schema) :
    t.dispatchAll (ps ++ qs) schema = (t.dispatchAll ps schema).dispatchAll qs schema :=
  List.foldl_append ..

theorem flushGap_eq (t : ScopeTracker) (gap : Bytes) (anchor : State) (schema : Schema) :
    t.flushGap gap anchor schema = t.dispatchAll (gapPieces gap anchor) schema := by
  rw [flushGap, dispatchAll, gapPieces, List.foldl_map]

/-! ### Nothing is buffered by a dispatch -/

theorem pending_resolveMember (t : ScopeTracker) (ident : Bytes) (schema : Schema) :
    (t.resolveMember ident schema).1.pending = t.pending := by
  unfold resolveMember
  repeat' split
  all_goals rfl

theorem pending_bindIdent (t : ScopeTracker) (text : Bytes) (preState : State)
    (schema : Schema) : (t.bindIdent text preState schema).1.pending = t.pending := by
  unfold bindIdent
  repeat' split
  all_goals first | rfl | exact t.pending_resolveMember text schema

theorem pending_onIdent (t : ScopeTracker) (text : Bytes) (preState : State) (schema : Schema) :
    (t.onIdent text preState schema).1.pending = t.pending := by
  simp only [onIdent]
  split <;> split <;> simp only [pending_bindIdent]

theorem pending_onDot (t : ScopeTracker) : t.onDot.pending = t.pending := by
  unfold onDot
  dsimp only
  repeat' split
  all_goals rfl

theorem pending_onPipe (t : ScopeTracker) (preState : State) :
    (t.onPipe preState).pending = t.pending := by
  unfold onPipe bindLambda
  dsimp only
  repeat' split
  all_goals rfl

theorem pending_onOpen (t : ScopeTracker) (preState : State) :
    (t.onOpen preState).pending = t.pending := by
  unfold onOpen openMethod
  dsimp only
  repeat' split
  all_goals rfl

theorem pending_foldl_restoreBinder (saves : List BinderSave) (t : ScopeTracker) :
    (saves.foldl restoreBinder t).pending = t.pending := by
  induction saves generalizing t with
  | nil => rfl
  | cons save saves ih => rw [List.foldl_cons, ih]; rfl

theorem pending_foldl_restoreScope (saves : List ScopeSave) (t : ScopeTracker) :
    (saves.foldl restoreScope t).pending = t.pending := by
  induction saves generalizing t with
  | nil => rfl
  | cons save saves ih => rw [List.foldl_cons, ih]; rfl

theorem pending_restore (t : ScopeTracker) :
    t.restoreBinders.restoreScopes.pending = t.pending := by
  rw [restoreScopes, pending_foldl_restoreScope, restoreBinders]
  exact pending_foldl_restoreBinder ..

theorem pending_onClose (t : ScopeTracker) : t.onClose.pending = t.pending := by
  have h := t.pending_restore
  unfold onClose
  dsimp only
  repeat' split
  all_goals exact h

theorem pending_dispatchLexeme (t : ScopeTracker) (lex : Lexeme) (preState : State)
    (schema : Schema) : (t.dispatchLexeme lex preState schema).1.pending = t.pending := by
  cases lex with
  | ident text => exact t.pending_onIdent text preState schema
  | dot => exact t.pending_onDot
  | pipe => exact t.pending_onPipe preState
  | «open» => exact t.pending_onOpen preState
  | close => exact t.pending_onClose
  | cmp => simp only [dispatchLexeme]; split <;> rfl
  | _ => rfl

@[simp] theorem pending_dispatchToken (t : ScopeTracker) (bytes : Bytes) (preState : State)
    (schema : Schema) : (t.dispatchToken bytes preState schema).pending = t.pending := by
  have h := t.pending_dispatchLexeme (classify bytes) preState schema
  unfold dispatchToken
  dsimp only
  repeat' split
  all_goals first | rfl | exact h

@[simp] theorem pending_dispatchAll (t : ScopeTracker) (ps : List Piece) (schema : Schema) :
    (t.dispatchAll ps schema).pending = t.pending := by
  induction ps generalizing t with
  | nil => rfl
  | cons p ps ih => rw [dispatchAll_cons, ih, pending_dispatchToken]

theorem pending_new (ps : List Piece) (schema : Schema) :
    (new.dispatchAll ps schema).pending = none := pending_dispatchAll new ps schema

/-! ## Observing is lexing and dispatching -/

/-- The rule a buffered lexeme carries: the one its anchor establishes, the
operand rule dropped. -/
def carriedPosition (t : ScopeTracker) (anchor : State) : L2Position :=
  match t.openingPosition anchor with
  | .reValue _ => .none
  | narrowed => narrowed

/-- The tracker with the lexer's open lexeme in its buffer. -/
def hold (t : ScopeTracker) (l : Lexer) : ScopeTracker :=
  { t with pending := l.state.lexemeKind.map fun k =>
      ⟨k, l.seg, l.anchor, t.carriedPosition l.anchor⟩ }

/-- The tracker with the buffer emptied. -/
def core (t : ScopeTracker) : ScopeTracker := { t with pending := none }

theorem core_of_pending {t : ScopeTracker} (h : t.pending = none) : t.core = t := by
  unfold core
  rw [← h]

@[simp] theorem core_hold {t : ScopeTracker} (h : t.pending = none) (l : Lexer) :
    (t.hold l).core = t := by
  rw [← core_of_pending h]
  rfl

/-- The walker has read what the lexer has read. In a token that continues
a buffered lexeme the buffer still holds the front of the segment. -/
inductive Walker.Follows (t : ScopeTracker) (l : Lexer) : Walker → Prop where
  | continuing {k : LexKind} {buf seg : Bytes} (hkind : l.state.lexemeKind = some k)
      (hseg : l.seg = buf ++ seg) :
      Walker.Follows t l ⟨l.state, l.stack, seg, l.anchor, true,
        { t with pending := some ⟨k, buf, l.anchor, t.carriedPosition l.anchor⟩ }⟩
  | fresh : Walker.Follows t l ⟨l.state, l.stack, l.seg, l.anchor, false, t⟩

theorem beginWalk_follows {t : ScopeTracker} (ht : t.pending = none) {l : Lexer}
    (hl : l.Settled) (schema : Schema) :
    Walker.Follows t l ((t.hold l).beginWalk l.pda schema) := by
  unfold beginWalk hold
  cases hk : l.state.lexemeKind with
  | some k =>
    simp only [Option.map_some, Lexer.pda, hk, if_true]
    exact .continuing hk (by simp)
  | none =>
    simp only [Option.map_none, Lexer.pda]
    obtain ⟨hseg, hanchor⟩ := hl hk
    have hcore := core_of_pending ht
    rw [core] at hcore
    rw [hcore]
    nth_rewrite 1 [← hanchor]
    have : Walker.Follows t l ⟨l.state, l.stack, l.seg, l.anchor, false, t⟩ := .fresh
    rw [hseg] at this
    rw [hanchor] at this ⊢
    exact this

theorem Walker.Follows.read {t : ScopeTracker} (ht : t.pending = none) {l : Lexer} {w : Walker}
    (h : Walker.Follows t l w) (schema : Schema) (b : UInt8) (c : State × List Frame) :
    Walker.Follows (t.dispatchAll (l.completed c) schema) (l.read b c) (w.read schema b c) := by
  have hcore := core_of_pending ht
  rw [core] at hcore
  cases h with
  | continuing hkind hseg =>
    rename_i k buf seg
    unfold Walker.read Lexer.completed Lexer.read
    simp only [hkind]
    by_cases hc : c.1.lexemeKind = some k
    · simp only [hc, if_true]
      rw [dispatchAll_nil]
      have hl : c.1.lexemeKind = some k := hc
      exact .continuing (l := ⟨c.1, c.2, l.seg ++ [b], l.anchor⟩) hl (by simp [hseg])
    · have hne : some k ≠ c.1.lexemeKind := fun h => hc h.symm
      simp only [hc, hne, if_false, emitLexeme]
      have hps : l.pieces = [⟨l.seg, l.anchor⟩] := by
        unfold Lexer.pieces
        simp only [hkind]
      rw [hps, dispatchAll_cons, dispatchAll_nil, hseg, hcore]
      exact .fresh
  | fresh =>
    unfold Walker.read Lexer.completed Lexer.read
    dsimp only
    cases hk : l.state.lexemeKind with
    | some k =>
      by_cases hc : c.1.lexemeKind = some k
      · simp only [hc, if_true]
        rw [dispatchAll_nil]
        exact .fresh
      · have hne : some k ≠ c.1.lexemeKind := fun h => hc h.symm
        have hps : l.pieces = [⟨l.seg, l.anchor⟩] := by
          unfold Lexer.pieces
          simp only [hk]
        simp only [hc, hne, if_false, emitLexeme]
        rw [hps, dispatchAll_cons, dispatchAll_nil]
        exact .fresh
    | none =>
      have hps : l.pieces = gapPieces l.seg l.anchor := by
        unfold Lexer.pieces
        simp only [hk]
      cases hc : c.1.lexemeKind with
      | some k =>
        simp only [Option.isSome_some, if_true, reduceCtorEq, if_false]
        rw [hps, flushGap_eq]
        exact .fresh
      | none =>
        simp only [Option.isSome_none, Bool.false_eq_true, if_false, if_true]
        rw [dispatchAll_nil]
        exact .fresh

theorem Walker.Follows.walk {t : ScopeTracker} (ht : t.pending = none) {l l' : Lexer}
    {w : Walker} (h : Walker.Follows t l w) (schema : Schema) {bytes : Bytes} {ps : List Piece}
    (hfeed : l.feed bytes = some (l', ps)) :
    ∃ w', w.walk schema bytes = .ok w' ∧ Walker.Follows (t.dispatchAll ps schema) l' w' := by
  induction bytes generalizing t l w ps with
  | nil =>
    simp only [Lexer.feed, Option.some.injEq, Prod.mk.injEq] at hfeed
    obtain ⟨rfl, rfl⟩ := hfeed
    exact ⟨w, rfl, h⟩
  | cons b rest ih =>
    rw [Lexer.feed] at hfeed
    split at hfeed
    · cases hfeed
    · rename_i c hc
      split at hfeed
      · cases hfeed
      · rename_i l₁ qs hf
        simp only [Option.some.injEq, Prod.mk.injEq] at hfeed
        obtain ⟨rfl, rfl⟩ := hfeed
        have hconf : Pushdown.advance step (w.state, w.stack) b = some c := by
          cases h <;> exact hc
        have hread := h.read ht schema b c
        obtain ⟨w', hw, hfol⟩ := ih (by simpa using ht) hread hf
        refine ⟨w', ?_, ?_⟩
        · rw [Walker.walk, hconf]
          exact hw
        · rw [dispatchAll_append]
          exact hfol

theorem Walker.Follows.finish {t : ScopeTracker} (ht : t.pending = none) {l : Lexer} {w : Walker}
    (h : Walker.Follows t l w) (schema : Schema) :
    w.finish schema = (t.dispatchAll l.cutPieces schema).hold l.cut := by
  have hcore := core_of_pending ht
  rw [core] at hcore
  cases h with
  | continuing hkind hseg =>
    unfold Walker.finish Lexer.cutPieces Lexer.cut hold bufferTrailing
    simp [hkind, hseg]
  | fresh =>
    unfold Walker.finish Lexer.cutPieces Lexer.cut hold
    dsimp only
    cases hk : l.state.lexemeKind with
    | some k =>
      simp only [bufferTrailing, hk, Option.isSome_some, if_true, dispatchAll_nil,
        Option.map_some, Bool.false_eq_true, if_false]
      rfl
    | none =>
      have hps : l.pieces = gapPieces l.seg l.anchor := by
        unfold Lexer.pieces
        simp only [hk]
      simp only [Option.isSome_none, Bool.false_eq_true, if_false, hk, Option.map_none, hps,
        flushGap_eq]
      exact (core_of_pending (by simpa using ht)).symm

/-- **Observing a token is lexing it and dispatching the pieces.** -/
theorem observe_eq {t : ScopeTracker} (ht : t.pending = none) {l l' : Lexer} (hl : l.Settled)
    {bytes : Bytes} {ps : List Piece} (h : l.token bytes = some (l', ps)) (schema : Schema) :
    (t.hold l).observe bytes l.pda schema = (t.dispatchAll ps schema).hold l' := by
  unfold Lexer.token at h
  split at h
  · cases h
  · rename_i l₁ qs hfeed
    simp only [Option.some.injEq, Prod.mk.injEq] at h
    obtain ⟨rfl, rfl⟩ := h
    obtain ⟨w, hw, hfol⟩ := (beginWalk_follows ht hl schema).walk ht schema hfeed
    rw [observe, hw]
    simp only
    rw [hfol.finish (by simpa using ht), dispatchAll_append]

end ScopeTracker

/-! ## Runs of tokens -/

/-- Commit one token to an automaton and a tracker, as `accept_token` does
under a schema. -/
def feedToken (schema : Schema) (c : Pda × ScopeTracker) (tok : Bytes) :
    Option (Pda × ScopeTracker) :=
  match c.1.advanceAll tok with
  | .ok pda => some (pda, c.2.observe tok c.1 schema)
  | .error _ => none

/-- Commit a run of tokens. -/
def drive (schema : Schema) (c : Pda × ScopeTracker) : List Bytes → Option (Pda × ScopeTracker)
  | [] => some c
  | tok :: rest =>
    match feedToken schema c tok with
    | none => none
    | some c' => drive schema c' rest

/-- The configuration a stream starts from. -/
def freshStart : Pda × ScopeTracker := (.new, .new)

/-- The constraint after a run of tokens, `none` if the run dies. -/
def positionAfter (schema : Schema) (toks : List Bytes) : Option L2Position :=
  (drive schema freshStart toks).map fun c => c.2.position c.1.state

theorem drive_append (schema : Schema) (c : Pda × ScopeTracker) (toks more : List Bytes) :
    drive schema c (toks ++ more) = (drive schema c toks).bind fun c' => drive schema c' more := by
  induction toks generalizing c with
  | nil => rfl
  | cons tok toks ih =>
    rw [List.cons_append, drive, drive]
    cases feedToken schema c tok with
    | none => rfl
    | some c' => exact ih c'

/-- A run of tokens dies exactly when the automaton dies on their bytes. -/
theorem drive_eq_none_iff {schema : Schema} {c : Pda × ScopeTracker} {toks : List Bytes} :
    drive schema c toks = none ↔ run step c.1.config toks.flatten = none := by
  induction toks generalizing c with
  | nil => simp [drive]
  | cons tok toks ih =>
    rw [drive, feedToken, List.flatten_cons, run_append]
    cases hadv : c.1.advanceAll tok with
    | ok p =>
      rw [Pda.advanceAll_eq_ok.mp hadv, Option.bind_some]
      exact ih
    | error dead =>
      have hnone : run step c.1.config tok = none := by
        cases hrun : run step c.1.config tok with
        | none => rfl
        | some d =>
          have hok : c.1.advanceAll tok = .ok (Pda.ofConfig d) := Pda.advanceAll_eq_ok.mpr hrun
          rw [hadv] at hok
          cases hok
      simp [hnone]

namespace Lexer

theorem token_pda {l l' : Lexer} {bytes : Bytes} {ps : List Piece}
    (h : l.token bytes = some (l', ps)) : l.pda.advanceAll bytes = .ok l'.pda := by
  unfold token at h
  split at h
  · cases h
  · rename_i hf
    cases h
    rw [pda_cut]
    exact Pda.advanceAll_eq_ok.mpr (feed_pda hf)

theorem token_of_advanceAll {l : Lexer} {p : Pda} {bytes : Bytes}
    (h : l.pda.advanceAll bytes = .ok p) :
    ∃ l' ps, l.token bytes = some (l', ps) ∧ l'.pda = p := by
  obtain ⟨l', ps, hf⟩ := feed_of_run (Pda.advanceAll_eq_ok.mp h)
  have htok : l.token bytes = some (l'.cut, ps ++ l'.cutPieces) := by
    unfold token
    rw [hf]
  refine ⟨_, _, htok, ?_⟩
  have hpda := token_pda htok
  rw [h] at hpda
  exact (Except.ok.inj hpda).symm

theorem settled_tokens {l l' : Lexer} {toks : List Bytes} {ps : List Piece} (hl : l.Settled)
    (h : l.tokens toks = some (l', ps)) : l'.Settled := by
  induction toks generalizing l ps with
  | nil =>
    simp only [tokens, Option.some.injEq, Prod.mk.injEq] at h
    exact h.1 ▸ hl
  | cons tok toks ih =>
    rw [tokens] at h
    split at h
    · cases h
    · rename_i htok
      split at h
      · cases h
      · rename_i hrest
        cases h
        exact ih (settled_token htok) hrest

end Lexer

/-- **A run of tokens is one fold over its pieces.** -/
theorem drive_eq {schema : Schema} {t : ScopeTracker} (ht : t.pending = none) {l l' : Lexer}
    (hl : l.Settled) {toks : List Bytes} {ps : List Piece} (h : l.tokens toks = some (l', ps)) :
    drive schema (l.pda, t.hold l) toks = some (l'.pda, (t.dispatchAll ps schema).hold l') := by
  induction toks generalizing t l ps with
  | nil =>
    simp only [Lexer.tokens, Option.some.injEq, Prod.mk.injEq] at h
    obtain ⟨rfl, rfl⟩ := h
    rfl
  | cons tok toks ih =>
    rw [Lexer.tokens] at h
    split at h
    · cases h
    · rename_i l₁ qs htok
      split at h
      · cases h
      · rename_i l₂ rs hrest
        simp only [Option.some.injEq, Prod.mk.injEq] at h
        obtain ⟨rfl, rfl⟩ := h
        rw [drive, feedToken, Lexer.token_pda htok]
        simp only
        rw [observe_eq ht hl htok, ih (by simpa using ht) (Lexer.settled_token htok) hrest,
          dispatchAll_append]

/-- Conversely, whatever a run of tokens leaves behind was dispatched by
the lexer's pieces. -/
theorem tokens_of_drive {schema : Schema} {t : ScopeTracker} (ht : t.pending = none) {l : Lexer}
    (hl : l.Settled) {toks : List Bytes} {c : Pda × ScopeTracker}
    (h : drive schema (l.pda, t.hold l) toks = some c) :
    ∃ l' ps, l.tokens toks = some (l', ps) ∧
      c = (l'.pda, (t.dispatchAll ps schema).hold l') := by
  induction toks generalizing t l with
  | nil =>
    simp only [drive, Option.some.injEq] at h
    exact ⟨l, [], rfl, h.symm⟩
  | cons tok toks ih =>
    rw [drive, feedToken] at h
    cases hadv : l.pda.advanceAll tok with
    | error dead =>
      rw [hadv] at h
      cases h
    | ok p =>
      obtain ⟨l₁, qs, htok, rfl⟩ := Lexer.token_of_advanceAll hadv
      rw [hadv] at h
      simp only at h
      rw [observe_eq ht hl htok] at h
      obtain ⟨l', rs, hrest, hc⟩ := ih (by simpa using ht) (Lexer.settled_token htok) h
      exact ⟨l', qs ++ rs, by rw [Lexer.tokens, htok]; simp only [hrest],
        by rw [hc, dispatchAll_append]⟩

/-- The start of a stream, in the lexer's terms. -/
theorem freshStart_eq : freshStart = (Lexer.start.pda, ScopeTracker.new.hold Lexer.start) := rfl

/-- The pieces of a live stream and the tracker they leave. -/
theorem pieces_of_drive {schema : Schema} {toks : List Bytes} {p : Pda} {t : ScopeTracker}
    (h : drive schema freshStart toks = some (p, t)) :
    ∃ l ps, Lexer.start.tokens toks = some (l, ps) ∧ l.Settled ∧ p = l.pda ∧
      t = (ScopeTracker.new.dispatchAll ps schema).hold l := by
  rw [freshStart_eq] at h
  obtain ⟨l, ps, htoks, hc⟩ := tokens_of_drive rfl Lexer.settled_start h
  simp only [Prod.mk.injEq] at hc
  exact ⟨l, ps, htoks, Lexer.settled_tokens Lexer.settled_start htoks, hc.1, hc.2⟩

end PureCard
