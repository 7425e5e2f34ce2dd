/-
PureCard.Tokenization — what the cut of a stream into tokens can change.

A lexeme goes on across token boundaries, so a boundary inside a lexeme or
at its edge changes nothing. A structural gap ends with its token: the
pieces after a boundary are munched on their own, and they are dispatched
under the state at the boundary instead of the gap's first state. That is
visible in two ways. A two-byte operator or a keyword cut in the middle is
two other pieces; and a `|`, an opening delimiter or a keyword that reads
its anchor may read another one.

`HarmlessCut` excludes exactly these two, `HarmlessMerge` removes one such
boundary, and `drive_recut` says that streams linked by such removals, in
either direction, drive the tracker identically, and go on doing so under
every continuation. `tokenization_dependent` shows the first kind at work:
`==` cut in two does not arm the operand rule.
-/
import PureCard.Schema.Lexing
import Mathlib.Logic.Relation

namespace PureCard

open Pushdown ScopeTracker

/-! ## How a dispatch reads its anchor -/

/-- The ways `on_ident` reads the state an identifier opened at. -/
inductive IdentSlot where
  | refvar
  | member
  | value
  | typed
  | column
  | plain
  deriving DecidableEq, Repr

def identSlot : State → IdentSlot
  | .afterDollar => .refvar
  | .afterDot => .member
  | .expectValue | .expectValueReq => .value
  | .afterColon | .afterColonWs => .typed
  | .sawTilde => .column
  | _ => .plain

/-- Two anchors a piece cannot tell apart. -/
def SameReading (lex : Lexeme) (a s : State) : Prop :=
  match lex with
  | .pipe => (a = .start ∨ a = .expectSource) ↔ (s = .start ∨ s = .expectSource)
  | .open => a = .sawTilde ↔ s = .sawTilde
  | .ident _ => identSlot a = identSlot s
  | _ => True

theorem bindIdent_eq_slot (t : ScopeTracker) (text : Bytes) (preState : State)
    (schema : Schema) : t.bindIdent text preState schema =
      match identSlot preState with
      | .refvar => ({ t with pendingRefvar := some text }, none)
      | .member => t.resolveMember text schema
      | .value => ({ t with lambdaFirstIdent := some text }, none)
      | .typed =>
        if schema.hasClass text then (t, none) else ({ t with lambdaFirstIdent := some text }, none)
      | .column | .plain => (t, none) := by
  cases preState <;> rfl

theorem recordsColumn_eq_slot (t : ScopeTracker) (preState : State) : t.recordsColumn preState =
      match identSlot preState with
      | .column => true
      | .value => t.tildeOpen.head? == some true
      | _ => false := by
  cases preState <;> rfl

theorem onIdent_congr {a s : State} (h : identSlot a = identSlot s) (t : ScopeTracker)
    (text : Bytes) (schema : Schema) : t.onIdent text a schema = t.onIdent text s schema := by
  simp only [onIdent, bindIdent_eq_slot, recordsColumn_eq_slot, h]

theorem onPipe_congr {a s : State}
    (h : (a = .start ∨ a = .expectSource) ↔ (s = .start ∨ s = .expectSource))
    (t : ScopeTracker) : t.onPipe a = t.onPipe s := by
  simp only [onPipe, h]

theorem onOpen_congr {a s : State} (h : a = .sawTilde ↔ s = .sawTilde) (t : ScopeTracker) :
    t.onOpen a = t.onOpen s := by
  simp only [onOpen, h]

/-- A piece does the same under two anchors it cannot tell apart. -/
theorem dispatchToken_congr {bytes : Bytes} {a s : State} (h : SameReading (classify bytes) a s)
    (t : ScopeTracker) (schema : Schema) :
    t.dispatchToken bytes a schema = t.dispatchToken bytes s schema := by
  have hlex : t.dispatchLexeme (classify bytes) a schema =
      t.dispatchLexeme (classify bytes) s schema := by
    cases hc : classify bytes with
    | ident text =>
      rw [hc] at h
      exact onIdent_congr h t text schema
    | pipe =>
      rw [hc] at h
      simp only [dispatchLexeme, onPipe_congr h t]
    | «open» =>
      rw [hc] at h
      simp only [dispatchLexeme, onOpen_congr h t]
    | _ => rfl
  simp only [dispatchToken, hlex]

theorem dispatchAll_gapPieces_congr {gap : Bytes} {a s : State}
    (h : ∀ piece ∈ gapTokens gap, SameReading (classify piece) a s) (t : ScopeTracker)
    (schema : Schema) :
    t.dispatchAll (gapPieces gap a) schema = t.dispatchAll (gapPieces gap s) schema := by
  unfold gapPieces
  generalize gapTokens gap = pieces at h
  induction pieces generalizing t with
  | nil => rfl
  | cons piece pieces ih =>
    rw [List.map_cons, List.map_cons, dispatchAll_cons, dispatchAll_cons,
      dispatchToken_congr (h piece (by simp)) t schema]
    exact ih _ fun p hp => h p (by simp [hp])

/-- A structural byte dispatched twice does what it does once. -/
theorem dispatchToken_other_idem {u v w : Bytes} (hu : classify u = .other)
    (hv : classify v = .other) (hw : classify w = .other) (t : ScopeTracker) (a s : State)
    (schema : Schema) :
    (t.dispatchToken u a schema).dispatchToken v s schema = t.dispatchToken w a schema := by
  simp only [dispatchToken, hu, hv, hw, dispatchLexeme]
  rfl

/-! ## Boundaries -/

/-- The bytes of `v`, read on from `c`, before a lexeme opens. -/
def leadingGap (c : State × List Frame) : Bytes → Bytes
  | [] => []
  | b :: rest =>
    match Pushdown.advance step c b with
    | none => []
    | some c' => if c'.1.lexemeKind.isSome then [] else b :: leadingGap c' rest

/-- Munching a gap in two parts gives the pieces of the whole: no operator
and no keyword is cut. An `&&` may be, its halves being read alike. -/
inductive SplitsClean (front back : Bytes) : Prop where
  | append (h : gapTokens (front ++ back) = gapTokens front ++ gapTokens back)
  | amp (before after : List Bytes) (hwhole : gapTokens (front ++ back) =
        before ++ [Byte.amp, Byte.amp] :: after)
      (hfront : gapTokens front = before ++ [[Byte.amp]])
      (hback : gapTokens back = [Byte.amp] :: after)

/-- A token boundary at `l`, with `v` the token after it, that changes
nothing: it is inside a lexeme or at its end, or it cuts no piece of the
gap and no later piece of the gap reads the state at the boundary
differently from the gap's own anchor. -/
def HarmlessCut (l : Lexer) (v : Bytes) : Prop :=
  l.state.lexemeKind.isSome ∨
    (SplitsClean l.seg (leadingGap (l.state, l.stack) v) ∧
      ∀ piece ∈ gapTokens (leadingGap (l.state, l.stack) v),
        SameReading (classify piece) l.anchor l.state)

/-- `toks'` is `toks` with one harmless boundary removed. -/
inductive HarmlessMerge : List Bytes → List Bytes → Prop where
  | mk {front : List Bytes} {u v : Bytes} (back : List Bytes) {l l₁ : Lexer} {ps qs : List Piece}
      (hfront : Lexer.start.tokens front = some (l, ps)) (hu : l.feed u = some (l₁, qs))
      (hcut : HarmlessCut l₁ v) :
      HarmlessMerge (front ++ u :: v :: back) (front ++ (u ++ v) :: back)

namespace Lexer

theorem feed_append {l l₁ l₂ : Lexer} {u v : Bytes} {ps qs : List Piece}
    (hu : l.feed u = some (l₁, ps)) (hv : l₁.feed v = some (l₂, qs)) :
    l.feed (u ++ v) = some (l₂, ps ++ qs) := by
  induction u generalizing l ps with
  | nil =>
    simp only [feed, Option.some.injEq, Prod.mk.injEq] at hu
    obtain ⟨rfl, rfl⟩ := hu
    exact hv
  | cons b rest ih =>
    rw [feed] at hu
    split at hu
    · cases hu
    · rename_i c hc
      split at hu
      · cases hu
      · rename_i hf
        cases hu
        rw [List.cons_append, feed, hc]
        simp only [ih hf, List.append_assoc]

/-- Reading on through a gap: the segment read before it only matters for
the pieces that gap completes. -/
theorem feed_leadingGap {c d : State × List Frame} (hk : c.1.lexemeKind = none) {v : Bytes}
    (h : run step c v = some d) :
    (leadingGap c v = v ∧ d.1.lexemeKind = none ∧
      ∀ seg anchor, (Lexer.mk c.1 c.2 seg anchor).feed v =
        some (⟨d.1, d.2, seg ++ v, anchor⟩, [])) ∨
    (∃ l' qs, ∀ seg anchor, (Lexer.mk c.1 c.2 seg anchor).feed v =
        some (l', gapPieces (seg ++ leadingGap c v) anchor ++ qs)) := by
  induction v generalizing c with
  | nil =>
    simp only [run_nil, Option.some.injEq] at h
    subst h
    exact .inl ⟨rfl, hk, fun seg anchor => by rw [List.append_nil]; rfl⟩
  | cons b rest ih =>
    rw [run_cons] at h
    obtain ⟨e, he, hrest⟩ := Option.bind_eq_some_iff.mp h
    have hadv : Pushdown.advance step (c.1, c.2) b = some e := he
    cases hek : e.1.lexemeKind with
    | some k =>
      -- the lexeme opens here: the gap is over
      have hgap : leadingGap c (b :: rest) = [] := by
        rw [leadingGap, he]
        simp [hek]
      have hread : ∀ seg anchor, (Lexer.mk c.1 c.2 seg anchor).read b e = ⟨e.1, e.2, [b], c.1⟩ := by
        intro seg anchor
        unfold Lexer.read
        simp [hk, hek]
      have hdone : ∀ seg anchor,
          (Lexer.mk c.1 c.2 seg anchor).completed e = gapPieces seg anchor := by
        intro seg anchor
        unfold Lexer.completed Lexer.pieces
        simp [hk, hek]
      obtain ⟨l', qs, hf⟩ := feed_of_run (l := ⟨e.1, e.2, [b], c.1⟩) hrest
      refine .inr ⟨l', qs, fun seg anchor => ?_⟩
      rw [feed, hadv]
      simp only [hread, hdone, hf, hgap, List.append_nil]
    | none =>
      have hgap : leadingGap c (b :: rest) = b :: leadingGap e rest := by
        rw [leadingGap, he]
        simp [hek]
      have hread : ∀ seg anchor,
          (Lexer.mk c.1 c.2 seg anchor).read b e = ⟨e.1, e.2, seg ++ [b], anchor⟩ := by
        intro seg anchor
        unfold Lexer.read
        simp [hk, hek]
      have hdone : ∀ seg anchor, (Lexer.mk c.1 c.2 seg anchor).completed e = [] := by
        intro seg anchor
        unfold Lexer.completed
        simp [hk, hek]
      rcases ih hek hrest with ⟨hall, hdk, hf⟩ | ⟨l', qs, hf⟩
      · refine .inl ⟨by rw [hgap, hall], hdk, fun seg anchor => ?_⟩
        rw [feed, hadv]
        simp only [hread, hdone, hf, List.append_assoc, List.singleton_append, List.nil_append]
      · refine .inr ⟨l', qs, fun seg anchor => ?_⟩
        rw [feed, hadv]
        simp only [hread, hdone, hf, hgap, List.append_assoc, List.singleton_append,
          List.nil_append]

end Lexer

/-! ## Removing a boundary -/

/-- The pieces of a gap cut at a harmless boundary do what the pieces of
the whole gap do. -/
theorem dispatchAll_split {front back : Bytes} {a s : State} (hsplit : SplitsClean front back)
    (hread : ∀ piece ∈ gapTokens back, SameReading (classify piece) a s) (t : ScopeTracker)
    (schema : Schema) :
    t.dispatchAll (gapPieces (front ++ back) a) schema =
      (t.dispatchAll (gapPieces front a) schema).dispatchAll (gapPieces back s) schema := by
  rw [← dispatchAll_gapPieces_congr hread]
  cases hsplit with
  | append h => rw [gapPieces, h, List.map_append, dispatchAll_append]; rfl
  | amp before after hwhole hfront hback =>
    have hone : classify [Byte.amp] = .other := by decide
    have htwo : classify [Byte.amp, Byte.amp] = .other := by decide
    rw [gapPieces, gapPieces, gapPieces, hwhole, hfront, hback, List.map_append, List.map_append,
      dispatchAll_append, dispatchAll_append]
    simp only [List.map_cons, List.map_nil, dispatchAll_cons, dispatchAll_nil]
    rw [dispatchToken_other_idem hone hone htwo]

/-- Cut at a harmless boundary or not, a live pair of tokens leaves the
same lexer and does the same to every tracker. -/
theorem tokens_merge {l l₁ : Lexer} {u v : Bytes} {ps : List Piece} {d : State × List Frame}
    (hu : l.feed u = some (l₁, ps)) (hcut : HarmlessCut l₁ v)
    (hv : run step l₁.pda.config v = some d) :
    ∃ l' es es', l.tokens [u, v] = some (l', es) ∧ l.tokens [u ++ v] = some (l', es') ∧
      ∀ (t : ScopeTracker) (schema : Schema), t.dispatchAll es schema = t.dispatchAll es' schema := by
  -- what the two readings of `v` have to agree on
  have assemble : ∀ {l₂ l₂' : Lexer} {qs qs' : List Piece},
      l₁.cut.feed v = some (l₂, qs) → l₁.feed v = some (l₂', qs') → l₂.cut = l₂'.cut →
      (∀ (t : ScopeTracker) (schema : Schema),
        t.dispatchAll (l₁.cutPieces ++ (qs ++ l₂.cutPieces)) schema =
          t.dispatchAll (qs' ++ l₂'.cutPieces) schema) →
      ∃ l' es es', l.tokens [u, v] = some (l', es) ∧ l.tokens [u ++ v] = some (l', es') ∧
        ∀ (t : ScopeTracker) (schema : Schema),
          t.dispatchAll es schema = t.dispatchAll es' schema := by
    intro l₂ l₂' qs qs' hf hf' hc hd
    refine ⟨l₂.cut, (ps ++ l₁.cutPieces) ++ (qs ++ l₂.cutPieces), (ps ++ qs') ++ l₂'.cutPieces,
      ?_, ?_, fun t schema => ?_⟩
    · simp only [Lexer.tokens, Lexer.token, hu, hf, List.append_nil]
    · simp only [Lexer.tokens, Lexer.token, Lexer.feed_append hu hf', List.append_nil, hc]
    · rw [List.append_assoc, List.append_assoc, dispatchAll_append, hd, ← dispatchAll_append]
  cases hk : l₁.state.lexemeKind with
  | some k =>
    have hid : l₁.cut = l₁ := by
      unfold Lexer.cut
      simp [hk]
    have hnil : l₁.cutPieces = [] := by
      unfold Lexer.cutPieces
      simp [hk]
    obtain ⟨l₂, qs, hf⟩ := Lexer.feed_of_run hv
    exact assemble (by rw [hid]; exact hf) hf rfl fun t schema => by rw [hnil, List.nil_append]
  | none =>
    have hid : l₁.cut = ⟨l₁.state, l₁.stack, [], l₁.state⟩ := by
      unfold Lexer.cut
      simp [hk]
    have hps : l₁.cutPieces = gapPieces l₁.seg l₁.anchor := by
      unfold Lexer.cutPieces Lexer.pieces
      simp [hk]
    have hgap : SplitsClean l₁.seg (leadingGap (l₁.state, l₁.stack) v) ∧
        ∀ piece ∈ gapTokens (leadingGap (l₁.state, l₁.stack) v),
          SameReading (classify piece) l₁.anchor l₁.state := by
      rcases hcut with h | h
      · rw [hk] at h
        cases h
      · exact h
    have hdisp := fun t schema => dispatchAll_split hgap.1 hgap.2 t schema
    rcases Lexer.feed_leadingGap (c := (l₁.state, l₁.stack)) hk hv with
      ⟨hall, hdk, hf⟩ | ⟨l', qs, hf⟩
    · -- `v` stays in the gap
      rw [hall] at hdisp
      refine assemble (by rw [hid]; exact hf [] l₁.state) (hf l₁.seg l₁.anchor) ?_ ?_
      · unfold Lexer.cut
        simp [hdk]
      · intro t schema
        have hend : ∀ seg anchor, (Lexer.mk d.1 d.2 seg anchor).cutPieces = gapPieces seg anchor := by
          intro seg anchor
          unfold Lexer.cutPieces Lexer.pieces
          simp [hdk]
        rw [hps, hend, hend, List.nil_append, List.nil_append, List.nil_append, dispatchAll_append]
        exact (hdisp t schema).symm
    · -- a lexeme opens in `v`
      refine assemble (by rw [hid]; exact hf [] l₁.state) (hf l₁.seg l₁.anchor) rfl ?_
      intro t schema
      rw [hps, List.nil_append, ← List.append_assoc, ← List.append_assoc, dispatchAll_append,
        dispatchAll_append, dispatchAll_append, ← hdisp, ← dispatchAll_append, ← dispatchAll_append,
        List.append_assoc]

/-- Two tokens with a harmless boundary between them drive the tracker as
the one token they make up. -/
theorem drive_merge {t : ScopeTracker} (ht : t.pending = none) {l l₁ : Lexer} (hl : l.Settled)
    {u v : Bytes} {ps : List Piece} (hu : l.feed u = some (l₁, ps)) (hcut : HarmlessCut l₁ v)
    (schema : Schema) :
    drive schema (l.pda, t.hold l) [u, v] = drive schema (l.pda, t.hold l) [u ++ v] := by
  cases hv : run step l₁.pda.config v with
  | none =>
    -- the stream dies in `v` either way
    have hdead : run step l.pda.config (u ++ v) = none := by
      rw [run_append, Lexer.feed_pda hu, Option.bind_some, hv]
    rw [drive_eq_none_iff.mpr (by simpa using hdead), drive_eq_none_iff.mpr (by simpa using hdead)]
  | some d =>
    obtain ⟨l', es, es', hes, hes', hdisp⟩ := tokens_merge hu hcut hv
    rw [drive_eq ht hl hes, drive_eq ht hl hes', hdisp]

/-- One harmless boundary less, whatever comes after. -/
theorem HarmlessMerge.drive_eq {toks toks' : List Bytes} (h : HarmlessMerge toks toks')
    (schema : Schema) : drive schema freshStart toks = drive schema freshStart toks' := by
  cases h with
  | mk back hfront hu hcut =>
    rename_i front u v l l₁ ps qs
    have hl := Lexer.settled_tokens Lexer.settled_start hfront
    have hpre : drive schema freshStart front =
        some (l.pda, (ScopeTracker.new.dispatchAll ps schema).hold l) := by
      rw [freshStart_eq]
      exact PureCard.drive_eq rfl Lexer.settled_start hfront
    have hmid := drive_merge (t := ScopeTracker.new.dispatchAll ps schema) (by simp [ScopeTracker.new])
      hl hu hcut schema
    rw [drive_append, drive_append, hpre, Option.bind_some, Option.bind_some,
      show u :: v :: back = [u, v] ++ back from rfl, show (u ++ v) :: back = [u ++ v] ++ back from rfl,
      drive_append, drive_append, hmid]

theorem HarmlessMerge.append {toks toks' : List Bytes} (h : HarmlessMerge toks toks')
    (more : List Bytes) : HarmlessMerge (toks ++ more) (toks' ++ more) := by
  cases h with
  | mk back hfront hu hcut =>
    simp only [List.append_assoc, List.cons_append]
    exact .mk (back ++ more) hfront hu hcut

/-- Two cuts of a stream that differ by harmless boundaries only. -/
def Recut : List Bytes → List Bytes → Prop := Relation.EqvGen HarmlessMerge

/-- Recutting does not change the text. -/
theorem recut_flatten {toks toks' : List Bytes} (h : Recut toks toks') :
    toks.flatten = toks'.flatten := by
  induction h with
  | rel _ _ h =>
    cases h with
    | mk back hfront hu hcut => simp
  | refl _ => rfl
  | symm _ _ _ ih => exact ih.symm
  | trans _ _ _ _ _ ih₁ ih₂ => exact ih₁.trans ih₂

/-- **Tokenization independence, up to harmless boundaries.** Two cuts of
one stream that differ by harmless boundaries only leave the same
automaton and the same tracker, so the same position, prefix, columns and
fused target; and so does every common continuation. -/
theorem drive_recut {toks toks' : List Bytes} (h : Recut toks toks') (schema : Schema)
    (more : List Bytes) :
    drive schema freshStart (toks ++ more) = drive schema freshStart (toks' ++ more) := by
  induction h with
  | rel _ _ h => exact (h.append more).drive_eq schema
  | refl _ => rfl
  | symm _ _ _ ih => exact ih.symm
  | trans _ _ _ _ _ ih₁ ih₂ => exact ih₁.trans ih₂

/-- The boundary inside the method name `filter` is harmless. -/
theorem drive_recut_inside_lexeme :
    Recut [ascii "|A.all()->fil", ascii "ter(x|$x.n=="] [ascii "|A.all()->filter(x|$x.n=="] ∧
    drive .sample freshStart ([ascii "|A.all()->fil", ascii "ter(x|$x.n=="] ++ [ascii "1"]) =
      drive .sample freshStart ([ascii "|A.all()->filter(x|$x.n=="] ++ [ascii "1"]) := by
  have hfeed : ((Lexer.start.feed (ascii "|A.all()->fil")).map
      fun r => r.1.state.lexemeKind.isSome) = some true := by decide +kernel
  obtain ⟨⟨l, ps⟩, hu, hl⟩ := Option.map_eq_some_iff.mp hfeed
  have h : Recut [ascii "|A.all()->fil", ascii "ter(x|$x.n=="]
      [ascii "|A.all()->filter(x|$x.n=="] :=
    .rel _ _ (@HarmlessMerge.mk [] _ _ [] Lexer.start l [] ps rfl hu (.inl hl))
  exact ⟨h, drive_recut h .sample [ascii "1"]⟩

/-- **Without the condition the claim is false**: `==` in one token arms
the operand rule, `=` `=` in two tokens does not. -/
theorem tokenization_dependent :
    let whole := [ascii "|A.all()->filter(x|$x.n", ascii "=="]
    let split := [ascii "|A.all()->filter(x|$x.n", ascii "=", ascii "="]
    whole.flatten = split.flatten ∧ (∀ tok ∈ whole ++ split, tok ≠ []) ∧
      positionAfter .sample whole = some (.reValue .numeric) ∧
      positionAfter .sample split = some .none := by
  decide +kernel

end PureCard
