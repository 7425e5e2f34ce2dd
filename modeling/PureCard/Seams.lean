/-
PureCard.Seams — tokens that run from one lexeme into the next.

A tokenizer merges across lexemes: `->filter(` may be one token, or the end
of a name and the blank behind it (`tests/bpe_split_soundness.rs`, the
merged lanes). `Cuts` are the tokenizations of a sentence in which any
number of seams are covered so; `Item.Seam` says which byte may follow an
item in its own token, since an operator or a name would go on with some.

The rules see such a token at its first byte only, inside the item it
starts with; the tracker munches it as its parts, the boundary being
harmless in the sense of `Tokenization`. So a way of passages passes in
every tokenization, `Goes.reaches`, and a way to an accepting state is a
replay of the session, `Reaches.replay_ok`.
-/
import PureCard.Sentences

namespace PureCard

open Pushdown Completion ScopeTracker

/-! ## Tokenizations -/

/-- The byte may stand behind the item in the token the item ends in. -/
def Item.Seam : Item → UInt8 → Prop
  | .mark m, c => ∀ b ∈ m.getLast?, isTwoByteOp b c = false
  | .word _, c => EndsWord c
  | .blank _, _ => True

/-- A tokenization of a sentence: an item ends with a token, or the token
`t` runs on with the bytes `u` of what follows. -/
inductive Cuts : List Item → List Bytes → Prop where
  | nil : Cuts [] []
  | apart {i : Item} {items : List Item} {toks rest : List Bytes} (h : i.Tokens toks)
      (hrest : Cuts items rest) : Cuts (i :: items) (toks ++ rest)
  | joined {i : Item} {items : List Item} {toks rest : List Bytes} {t u : Bytes}
      (h : i.Tokens (toks ++ [t])) (hseam : ∀ c ∈ u.head?, i.Seam c)
      (hrest : Cuts items (u :: rest)) : Cuts (i :: items) (toks ++ (t ++ u) :: rest)

instance (i : Item) (c : UInt8) : Decidable (i.Seam c) := by
  cases i
  · exact inferInstanceAs (Decidable (∀ _ ∈ _, _))
  · exact inferInstanceAs (Decidable (_ ∧ _))
  · exact inferInstanceAs (Decidable True)

/-- One more lexeme in front, as a token or merged with the first one. -/
def mergeInto : Bool → Bytes → List Bytes → List Bytes
  | true, t, u :: toks => (t ++ u) :: toks
  | _, t, toks => t :: toks

/-- The tokens of a lexeme lane: each lexeme is one token, or is merged
with what follows. -/
def merged : List (Item × Bool) → List Bytes
  | [] => []
  | (i, glue) :: rest => mergeInto glue i.text (merged rest)

/-- No lexeme is empty, and the bytes behind the merged ones may stand
there. -/
def seamsHold : List (Item × Bool) → Bool
  | [] => true
  | (i, glue) :: rest => !i.text.isEmpty && seamsHold rest &&
    (!glue || (merged rest).head?.all fun u => u.head?.all fun c => decide (i.Seam c))

theorem Item.tokens_whole {i : Item} (hi : i.text ≠ []) : i.Tokens [i.text] := by
  cases i with
  | mark m => exact .mark m
  | word w => exact .word (by simp [Item.text]) (by simpa using hi)
  | blank w => exact .blank (by simp [Item.text]) (by simpa using hi)

theorem Cuts.merged {l : List (Item × Bool)} (h : seamsHold l = true) :
    Cuts (l.map Prod.fst) (PureCard.merged l) := by
  induction l with
  | nil => exact .nil
  | cons item rest ih =>
    obtain ⟨i, glue⟩ := item
    simp only [seamsHold, Bool.and_eq_true, Bool.or_eq_true, Bool.not_eq_true'] at h
    obtain ⟨⟨hne, hrest⟩, hseam⟩ := h
    have hi := Item.tokens_whole (i := i) (by simpa using hne)
    have hcut := ih hrest
    show Cuts (i :: rest.map Prod.fst) (mergeInto glue i.text (PureCard.merged rest))
    revert hcut hseam
    generalize PureCard.merged rest = toks
    intro hseam hcut
    cases glue with
    | false => exact .apart hi hcut
    | true =>
      cases toks with
      | nil => exact .apart hi hcut
      | cons u toks =>
        have hends : i.Tokens ([] ++ [i.text]) := hi
        refine .joined hends (fun c hc => ?_) hcut
        rw [Option.mem_def] at hc
        simpa [hc] using hseam

/-- A tokenization spells its sentence. -/
theorem Cuts.flatten {items : List Item} {toks : List Bytes} (h : Cuts items toks) :
    toks.flatten = (items.map Item.text).flatten := by
  induction h with
  | nil => rfl
  | apart h _ ih => rw [List.flatten_append, h.flatten, ih, List.map_cons, List.flatten_cons]
  | joined h _ _ ih =>
    have htext := h.flatten
    rw [List.flatten_append, List.flatten_singleton] at htext
    rw [List.map_cons, List.flatten_cons, ← htext, ← ih, List.flatten_append, List.flatten_cons,
      List.flatten_cons, List.append_assoc, List.append_assoc]

/-! ## The gap a token begins with -/

theorem leadingGap_append {c d : State × List Frame} {t : Bytes}
    (h : RunsIn step (fun s => s.lexemeKind = none) c t d) (u : Bytes) :
    leadingGap c (t ++ u) = t ++ leadingGap d u := by
  induction h with
  | nil c => rfl
  | cons hstep hd _ ih =>
    rw [List.cons_append, leadingGap, hstep]
    simp [hd, ih]

theorem leadingGap_prefix (c : State × List Frame) (u : Bytes) : leadingGap c u <+: u := by
  induction u generalizing c with
  | nil => exact List.nil_prefix
  | cons b u ih =>
    rw [leadingGap]
    split
    · exact List.nil_prefix
    · split
      · exact List.nil_prefix
      · exact (List.prefix_cons_inj b).mpr (ih _)

theorem leadingGap_word {k : LexKind} {c d : State × List Frame} {w : Bytes} (hw : w ≠ [])
    (h : InLexeme k c w d) (u : Bytes) : leadingGap c (w ++ u) = [] := by
  obtain ⟨b, w, rfl⟩ := List.exists_cons_of_ne_nil hw
  cases h with
  | cons hstep hd _ =>
    rw [List.cons_append, leadingGap, hstep]
    simp [hd]

/-- The gap the token begins with has no keyword. -/
def Unkeyed (p : Point) (u : Bytes) : Prop :=
  ∀ b ∈ leadingGap (p.state, p.stack) u, isIdentStart b = false

theorem spells_piece {ps : List Bytes} {x p : Bytes} (h : Spells ps x) (hp : p ∈ ps) {b : UInt8}
    (hb : b ∈ p) : b ∈ x := by
  induction h with
  | nil => cases hp
  | ws _ _ ih => exact List.mem_cons_of_mem _ (ih hp)
  | piece q _ ih =>
    rcases List.mem_cons.mp hp with rfl | hp
    · exact List.mem_append_left _ hb
    · exact List.mem_append_right _ (ih hp)

/-- Without a keyword the pieces tell only the two states of a pipe and of
an opener apart. -/
theorem sameReading_of {a s : State} (h : SameSide a s) {x : Bytes}
    (hx : ∀ b ∈ x, isIdentStart b = false) :
    ∀ piece ∈ gapTokens x, SameReading (classify piece) a s := by
  intro piece hpiece
  unfold SameReading
  split
  · exact h.1
  · exact h.2
  · rename_i text hident
    obtain ⟨-, b, u, rfl, hb⟩ := classify_ident hident
    have hno := hx b (spells_piece (spells_gapTokens x) hpiece (by simp))
    rw [hb] at hno
    cases hno
  · trivial

theorem SameSide.refl (s : State) : SameSide s s := ⟨Iff.rfl, Iff.rfl⟩

/-! ## Harmless seams -/

theorem IsMark.gapTokens_append {m : Bytes} (h : IsMark m) {x : Bytes}
    (hseam : ∀ c ∈ x.head?, (Item.mark m).Seam c) : gapTokens (m ++ x) = m :: gapTokens x := by
  rcases h.shape with ⟨b, rfl, hws, -⟩ | ⟨a, b, rfl, hop⟩
  · refine gapTokens_single hws ?_ (h.unkeyed b (by simp))
    cases x with
    | nil => rfl
    | cons c x => exact hseam c (by simp) b (by simp)
  · exact gapTokens_op hop x

theorem gapTokens_ws_append {w : Bytes} (hws : ∀ b ∈ w, isWs b = true) (x : Bytes) :
    gapTokens (w ++ x) = gapTokens x := by
  induction w with
  | nil => rfl
  | cons b w ih =>
    rw [List.cons_append, gapTokens_ws (Reader.isAsciiWhitespace_of_ws (hws b (by simp))),
      ih fun c hc => hws c (by simp [hc])]

section

variable {schema : Schema}

/-- Where the automaton stands behind the tokens. -/
theorem Reaches.at_end {toks : List Bytes} {p : Point} (h : Reaches schema toks p) :
    ∃ l ps, Lexer.start.tokens toks = some (l, ps) ∧ l.Settled ∧ l.state = p.state ∧
      l.stack = p.stack := by
  obtain ⟨l, ps, hl, hstate, hstack, -⟩ := h.read
  exact ⟨l, ps, hl, Lexer.settled_tokens Lexer.settled_start hl, hstate, hstack⟩

/-- The boundary behind a token `t` is harmless. -/
def SeamAt (toks : List Bytes) (t u : Bytes) : Prop :=
  ∃ l ps l₁ qs, Lexer.start.tokens toks = some (l, ps) ∧ l.feed t = some (l₁, qs) ∧ HarmlessCut l₁ u

/-- Behind a token that runs through a gap. -/
theorem Reaches.seam_gap {toks : List Bytes} {p : Point} (hp : Reaches schema toks p) {t u : Bytes}
    (ht : t ≠ []) {c : State × List Frame} {tracker : ScopeTracker}
    (hrun : RunsIn step (fun s => s.lexemeKind = none) (p.state, p.stack) t c)
    (hside : SameSide p.state c.1) (hu : Unkeyed ⟨c.1, c.2, tracker⟩ u)
    (hclean : gapTokens (t ++ leadingGap c u) = gapTokens t ++ gapTokens (leadingGap c u)) :
    SeamAt toks t u := by
  obtain ⟨l, ps, hl, hsettled, hstate, hstack⟩ := hp.at_end
  rw [← hstate, ← hstack] at hrun
  refine ⟨l, ps, _, _, hl, Lexer.feed_gap hsettled ht hrun, .inr ⟨.append hclean, ?_⟩⟩
  rw [← hstate] at hside
  exact sameReading_of hside hu

/-- Covered or not, a harmless seam leaves the stream where it is. -/
theorem SeamAt.drive_eq {toks : List Bytes} {t u : Bytes} (h : SeamAt toks t u) (schema : Schema)
    (back : List Bytes) : drive schema freshStart (toks ++ (t ++ u) :: back) =
      drive schema freshStart (toks ++ t :: u :: back) := by
  obtain ⟨l, ps, l₁, qs, hl, ht, hcut⟩ := h
  exact ((HarmlessMerge.mk back hl ht hcut).drive_eq schema).symm

/-- The tokens read alike. -/
theorem SeamAt.tokens_eq {toks : List Bytes} {t u : Bytes} (h : SeamAt toks t u) (schema : Schema)
    {back : List Bytes} {l : Lexer} {ps : List Piece}
    (hl : Lexer.start.tokens (toks ++ t :: u :: back) = some (l, ps)) :
    ∃ ps', Lexer.start.tokens (toks ++ (t ++ u) :: back) = some (l, ps') ∧
      new.dispatchAll (ps' ++ l.pieces) schema = new.dispatchAll (ps ++ l.pieces) schema := by
  obtain ⟨l₀, ps₀, l₁, qs, hl₀, ht, hcut⟩ := h
  have hfeed : run step (l₀.state, l₀.stack) t = some l₁.pda.config := Lexer.feed_pda ht
  have hrun := Lexer.run_tokens hl
  rw [List.flatten_append, List.flatten_cons, List.flatten_cons, run_append, Lexer.run_tokens hl₀,
    Option.bind_some, run_append, hfeed, Option.bind_some, run_append] at hrun
  obtain ⟨d, hd, -⟩ := Option.bind_eq_some_iff.mp hrun
  obtain ⟨l₂, es, es', hes, hes', hdisp⟩ := tokens_merge ht hcut hd
  rw [show t :: u :: back = [t, u] ++ back from rfl, Lexer.tokens_append hl₀,
    Lexer.tokens_append hes, Option.map_map, Option.map_eq_some_iff] at hl
  obtain ⟨⟨l', rs⟩, hback, hsame⟩ := hl
  cases hsame
  refine ⟨ps₀ ++ (es' ++ rs), ?_, ?_⟩
  · rw [show (t ++ u) :: back = [t ++ u] ++ back from rfl, Lexer.tokens_append hl₀,
      Lexer.tokens_append hes', hback]
    rfl
  · simp only [dispatchAll_append, hdisp]

theorem SeamAt.passes_iff {toks : List Bytes} {t u : Bytes} (h : SeamAt toks t u)
    (back : List Bytes) (tok : Bytes) : Passes schema (toks ++ (t ++ u) :: back) tok ↔
      Passes schema (toks ++ t :: u :: back) tok := by
  unfold Passes
  rw [h.drive_eq]

/-- A point behind the two tokens is one behind the token they make up. -/
theorem Reaches.join {toks : List Bytes} {t u : Bytes} {back : List Bytes} {p : Point}
    (h : Reaches schema (toks ++ t :: u :: back) p) (hseam : SeamAt toks t u)
    (htok : Passes schema toks (t ++ u)) : Reaches schema (toks ++ (t ++ u) :: back) p := by
  obtain ⟨l, ps, hl, hstate, hstack, htracker⟩ := h.read
  obtain ⟨ps', hl', hdisp⟩ := hseam.tokens_eq schema hl
  refine ⟨?_, fun tok hout hsplit => (hseam.passes_iff back tok).mpr (h.leaves tok hout ?_), l, ps',
    hl', hstate, hstack, hdisp.trans htracker⟩
  · intro front tok rest hcons
    rcases List.append_eq_append_iff.mp hcons with ⟨a, rfl, ha⟩ | ⟨a, rfl, ha⟩
    · -- the token is the joined one, or comes later
      cases a with
      | nil =>
        obtain ⟨rfl, rfl⟩ := List.cons.inj ha
        rwa [List.append_nil]
      | cons x a =>
        obtain ⟨rfl, rfl⟩ := List.cons.inj ha
        exact (hseam.passes_iff a tok).mpr (h.passed _ tok rest (by simp))
    · -- it comes before the joined one, or is it
      cases a with
      | nil =>
        obtain ⟨rfl, rfl⟩ := List.cons.inj ha
        rwa [List.append_nil] at htok
      | cons x a =>
        obtain ⟨rfl, rfl⟩ := List.cons.inj ha
        exact h.passed front tok (a ++ t :: u :: back) (by simp)
  · intro b v hcons hb
    obtain ⟨hdot, hnext⟩ := hsplit b v hcons hb
    refine ⟨hdot, ?_⟩
    rw [List.append_assoc, List.cons_append] at hnext ⊢
    exact (hseam.passes_iff (back ++ [[Byte.dot]]) _).mp hnext

/-! ## Tokens that run on -/

theorem IsMark.extends {m : Bytes} (h : IsMark m) (u : Bytes) : Outside (m ++ u) := by
  obtain ⟨b, v, rfl, htail⟩ := h.outside.first
  refine ⟨⟨b, v ++ u, rfl, htail⟩, ?_⟩
  intro c w hcons
  obtain ⟨rfl, hrest⟩ := List.cons.inj hcons
  rcases h.shape with ⟨b, hb, -, hdash⟩ | ⟨a, b, hab, -⟩
  · exact absurd (List.cons.inj hb).1.symm hdash
  · obtain ⟨-, rfl⟩ := List.cons.inj hab
    obtain ⟨rfl, -⟩ := List.cons.inj hrest
    exact h.outside.negative b [] rfl

/-- Behind a dot the automaton waits for the name. -/
theorem state_behind_dot {c d : State × List Frame}
    (h : RunsIn step (fun s => s.lexemeKind = none) c [Byte.dot] d) :
    Pushdown.advance step c Byte.dot = some (.afterDot, d.2) := by
  cases h with
  | cons hstep hd hrest =>
    cases hrest
    obtain ⟨cls, hb, hrow⟩ := advance_check checkEdges_dotRow hstep
    have hdot : d.1 = .afterDot := by simpa [dotRow, hb, hd] using hrow
    rw [hstep, ← hdot]

section

variable {toks back : List Bytes} {p r : Point} {t u : Bytes}

/-- A mark runs on: a dot may be the first byte of a fused navigation. -/
theorem Reaches.join_mark (hp : Reaches schema toks p) (hm : IsMark t) {c : State × List Frame}
    (hside : SameSide p.state c.1)
    (hrun : RunsIn step (fun s => s.lexemeKind = none) (p.state, p.stack) t c)
    {tracker : ScopeTracker} (hkey : Unkeyed ⟨c.1, c.2, tracker⟩ u)
    (hseam : ∀ b ∈ u.head?, (Item.mark t).Seam b) (hr : Reaches schema (toks ++ t :: u :: back) r) :
    Reaches schema (toks ++ (t ++ u) :: back) r := by
  obtain ⟨b, v, rfl, -⟩ := hm.outside.first
  refine hr.join (hp.seam_gap (by simp) hrun hside hkey ?_) (hp.leaves _ (hm.extends u) ?_)
  · rw [hm.gapTokens_eq]
    refine hm.gapTokens_append fun d hd => hseam d ?_
    obtain ⟨y, hy⟩ := leadingGap_prefix c u
    rw [← hy, List.head?_append, Option.mem_def.mp hd]
    rfl
  · intro d y hcons hd
    cases v with
    | cons e v =>
      obtain ⟨-, hcons⟩ := List.cons.inj hcons
      obtain ⟨rfl, -⟩ := List.cons.inj hcons
      have hno := hm.unkeyed e (by simp)
      rw [hd] at hno
      cases hno
    | nil =>
      obtain ⟨rfl, rfl⟩ := List.cons.inj hcons
      exact ⟨⟨c.2, state_behind_dot hrun⟩, hr.passed _ _ back (by simp)⟩

/-- Whitespace runs on. -/
theorem Reaches.join_blank (hp : Reaches schema toks p) {ts : List Bytes} {s : State}
    (hw : Waits (p.state, p.stack) (ts ++ [t]).flatten s) (hside : SameSide p.state s)
    (hne : ∀ x ∈ ts ++ [t], x ≠ []) (hkey : Unkeyed ⟨s, p.stack, p.tracker⟩ u)
    (hr : Reaches schema (toks ++ ts ++ t :: u :: back) r) :
    Reaches schema (toks ++ ts ++ (t ++ u) :: back) r := by
  have hws : ∀ x ∈ ts ++ [t], ∀ b ∈ x, isWs b = true := fun x hx b hb =>
    hw.ws b (List.mem_flatten_of_mem hx hb)
  have ht := hne t (by simp)
  have htws := hws t (by simp)
  have hfront : ∀ x ∈ ts, x ≠ [] := fun x hx => hne x (List.mem_append_left _ hx)
  obtain ⟨q, hq, -, hreach⟩ := hw.reaches hp hfront fun x hx => hws x (List.mem_append_left _ hx)
  have hstays : SameSide q s := by
    rcases hq with rfl | rfl
    · exact hside
    · exact .refl _
  have hblank := gapTokens_blank fun x hx => Reader.isAsciiWhitespace_of_ws (htws x hx)
  obtain ⟨b, v, rfl⟩ := List.exists_cons_of_ne_nil ht
  have hb := htws b (by simp)
  refine hr.join (hreach.seam_gap ht (hw.runs ht htws hq) hstays hkey ?_)
    (hreach.leaves _ (outside_of_ws hb _) (splits_of_plain (plain_of_ws hb _) _))
  rw [gapTokens_ws_append htws, hblank, List.nil_append]

/-- A name or a literal runs on. -/
theorem Reaches.join_word (hformed : NamesFormed schema) (hp : Reaches schema toks p)
    (hgap : p.state.lexemeKind = none) {ts : List Bytes} {k : LexKind} {s : State}
    (hread : InLexeme k (p.state, p.stack) (ts ++ [t]).flatten (s, p.stack))
    (hadm : Admits schema p.tracker p.state (ts ++ [t]).flatten) (hne : ∀ x ∈ ts ++ [t], x ≠ [])
    (hu : u ≠ []) (hseam : ∀ c ∈ u.head?, EndsWord c)
    (hr : Reaches schema (toks ++ ts ++ t :: u :: back) r) :
    Reaches schema (toks ++ ts ++ (t ++ u) :: back) r := by
  have ht := hne t (by simp)
  obtain ⟨ps, hl, -, hk, -⟩ := hp.in_flight hgap (by simp) hne hread
  rw [← List.append_assoc] at hl
  obtain ⟨l, qs, rs, hl, hlast, -⟩ := Lexer.tokens_split hl
  obtain ⟨c, v, rfl⟩ := List.exists_cons_of_ne_nil hu
  refine hr.join ⟨l, qs, ?_⟩ (hp.passes_word hformed hgap hread hadm
    (fun x hx => hne x (List.mem_append_left _ hx))
    (.beyond (by simp) ht (hseam c (by simp))) (by simp))
  cases hfeed : l.feed t with
  | none => simp [Lexer.tokens, Lexer.token, hfeed] at hlast
  | some r =>
    simp only [Lexer.tokens, Lexer.token, hfeed, Option.some.injEq, Prod.mk.injEq] at hlast
    refine ⟨r.1, r.2, hl, rfl, .inl ?_⟩
    rw [← r.1.state_cut, hlast.1, hk]
    rfl

end

/-- **A passage runs on**: its last token may cover bytes of what follows,
where these are read on from its end. -/
theorem Passage.joined (hformed : NamesFormed schema) {p q r : Point} {i : Item}
    (h : Passage schema p i q) {toks : List Bytes} (hp : Reaches schema toks p) {ts : List Bytes}
    {t u : Bytes} (hts : i.Tokens (ts ++ [t])) (hseam : ∀ c ∈ u.head?, i.Seam c) (hu : u ≠ [])
    (hkey : Unkeyed q u) {back : List Bytes} (hr : Reaches schema (toks ++ ts ++ t :: u :: back) r) :
    Reaches schema (toks ++ ts ++ (t ++ u) :: back) r := by
  cases h with
  | @mark m _ hm hside hrun =>
    have hone : ts ++ [t] = [] ++ [m] := hts.of_mark
    obtain ⟨rfl, hlast⟩ := List.append_inj' hone rfl
    cases hlast
    rw [List.append_nil] at hr ⊢
    exact hp.join_mark hm hside hrun hkey hseam hr
  | blank hw hside =>
    obtain ⟨rfl, hne⟩ := hts.parts (by simp)
    exact hp.join_blank hw hside hne hkey hr
  | word _ hgap hread hadm =>
    obtain ⟨rfl, hne⟩ := hts.parts (by simp)
    exact hp.join_word hformed hgap hread hadm hne hu hseam hr

/-! ## Ways -/

theorem Passage.nonempty {p q : Point} {i : Item} (h : Passage schema p i q) {toks : List Bytes}
    (hts : i.Tokens toks) : toks ≠ [] ∧ ∀ t ∈ toks, t ≠ [] := by
  cases h with
  | mark hm _ _ =>
    obtain ⟨b, u, rfl, -⟩ := hm.outside.first
    rw [hts.of_mark]
    simp
  | blank hw _ =>
    obtain ⟨hflat, hne⟩ := hts.parts (by simp)
    refine ⟨?_, hne⟩
    rintro rfl
    exact hw.nonempty hflat.symm
  | word hw _ _ _ =>
    obtain ⟨hflat, hne⟩ := hts.parts (by simp)
    refine ⟨?_, hne⟩
    rintro rfl
    exact hw hflat.symm

/-- The first token of an item, also one that runs on. -/
theorem Passage.unkeyed {p q : Point} {i : Item} (h : Passage schema p i q) {t : Bytes}
    {ts : List Bytes} (hts : i.Tokens (t :: ts)) {u : Bytes} (hu : ts = [] → Unkeyed q u)
    (hend : ts ≠ [] → u = []) : Unkeyed p (t ++ u) := by
  have ht := (h.nonempty hts).2 t (by simp)
  intro b hb
  cases h with
  | mark hm _ hrun =>
    obtain ⟨rfl, rfl⟩ := List.cons.inj hts.of_mark
    rw [leadingGap_append hrun] at hb
    rcases List.mem_append.mp hb with hb | hb
    · exact hm.unkeyed b hb
    · exact hu rfl b hb
  | blank hw _ =>
    obtain ⟨rfl, hne⟩ := hts.parts (by simp)
    have hws : ∀ x ∈ t, isWs x = true := fun x hx => hw.ws x (List.mem_flatten_of_mem (by simp) hx)
    rw [leadingGap_append (hw.runs ht hws (.inl rfl))] at hb
    rcases List.mem_append.mp hb with hb | hb
    · have hblank := hws b hb
      grind [isWs, isIdentStart, isAsciiAlphabetic, isAsciiLowercase]
    · by_cases hmore : ts = []
      · exact hu hmore b hb
      · rw [hend hmore] at hb
        cases hb
  | word hw _ hread _ =>
    obtain ⟨rfl, hne⟩ := hts.parts (by simp)
    rw [List.flatten_cons] at hread
    obtain ⟨d, hfirst, -⟩ := hread.split
    rw [leadingGap_word ht hfirst] at hb
    cases hb

theorem Goes.unkeyed {p q : Point} {items : List Item} (h : Goes schema p items q)
    {toks : List Bytes} (hcut : Cuts items toks) : ∀ u ∈ toks.head?, u ≠ [] ∧ Unkeyed p u := by
  induction hcut generalizing p with
  | nil => simp
  | @apart i items toks rest hts _ _ =>
    cases h with
    | pass hi _ =>
      obtain ⟨hne, hall⟩ := hi.nonempty hts
      obtain ⟨t, toks, rfl⟩ := List.exists_cons_of_ne_nil hne
      intro u hu
      obtain rfl : t = u := by simpa using hu
      have hkey := hi.unkeyed hts (u := []) (fun _ b hb => by cases hb) fun _ => rfl
      rw [List.append_nil] at hkey
      exact ⟨hall t (by simp), hkey⟩
  | @joined i items toks rest t u hts _ _ ih =>
    cases h with
    | pass hi hrest =>
      obtain ⟨-, hall⟩ := hi.nonempty hts
      obtain ⟨hune, hukey⟩ := ih hrest u (by simp)
      cases toks with
      | nil =>
        intro x hx
        obtain rfl : t ++ u = x := by simpa using hx
        exact ⟨by simp [hune], hi.unkeyed hts (fun _ => hukey) fun h => absurd rfl h⟩
      | cons x toks =>
        intro y hy
        obtain rfl : x = y := by simpa using hy
        have hkey := hi.unkeyed hts (u := []) (by simp) fun _ => rfl
        rw [List.append_nil] at hkey
        exact ⟨hall x (by simp), hkey⟩

/-- **A way of passages passes in every tokenization.** -/
theorem Goes.reaches (hformed : NamesFormed schema) {p q : Point} {items : List Item}
    (h : Goes schema p items q) {toks : List Bytes} (hp : Reaches schema toks p) {more : List Bytes}
    (hcut : Cuts items more) : Reaches schema (toks ++ more) q := by
  induction hcut generalizing p toks with
  | nil =>
    cases h
    rwa [List.append_nil]
  | apart hts _ ih =>
    cases h with
    | pass hi hrest =>
      rw [← List.append_assoc]
      exact ih hrest (hi.reaches hformed hp hts)
  | @joined i items ts rest t u hts hseam hcut ih =>
    cases h with
    | pass hi hrest =>
      obtain ⟨hu, hkey⟩ := hrest.unkeyed hcut u (by simp)
      have hr := ih hrest (hi.reaches hformed hp hts)
      rw [← List.append_assoc]
      refine hi.joined hformed hp hts hseam hu hkey ?_
      simpa using hr

/-! ## Sessions -/

namespace Session

open Decoding

theorem afterTokens_restarted (g : CompiledGrammar) (schema : Schema) (os : List Op) :
    (restarted g (some schema) os).AfterTokens schema [] := ⟨schema_ops _ os, rfl, rfl⟩

/-- A turn on a token of the table is the next token of the stream. -/
theorem AfterTokens.turn {s s' : Session} {toks : List Bytes} (h : s.AfterTokens schema toks)
    {id : Nat} (hturn : s.Turn id s') {vocab : Vocab} (hvocab : s.grammar.vocab = vocab)
    (hid : id < vocab.eosBit) : s'.AfterTokens schema (toks ++ [vocab.bytesOrEmpty id]) := by
  have hcall := (h.call .mask).call (.accept id)
  have hgrammar : s.allowedMask.grammar.vocab = vocab := (vocab_call s .mask).trans hvocab
  rw [Session.call, Session.call, hturn.accepted] at hcall
  simp only [streamStep, hturn.accepted, Feed.cut, hgrammar, if_neg (Nat.ne_of_lt hid)] at hcall
  exact hcall

/-- **The way through a stream is a run of the session.** -/
theorem replays_of_passed {s : Session} {vocab : Vocab} (hread : s.HasRead vocab [])
    (hafter : s.AfterTokens schema []) {ids : List Nat} (hids : ∀ id ∈ ids, id < vocab.eosBit)
    (hpass : ∀ front tok rest, ids.map vocab.bytesOrEmpty = front ++ tok :: rest →
      Passes schema front tok)
    (hlive : ∃ p, Pda.new.advanceAll (ids.map vocab.bytesOrEmpty).flatten = .ok p) :
    ∃ s', Replays s ids s' ∧ s'.AfterTokens schema (ids.map vocab.bytesOrEmpty) ∧
      textOf (sign vocab) ids = (ids.map vocab.bytesOrEmpty).flatten := by
  induction ids using List.reverseRecOn with
  | nil => exact ⟨s, .nil s, hafter, rfl⟩
  | append_singleton ids id ih =>
    have hmap : (ids ++ [id]).map vocab.bytesOrEmpty =
        ids.map vocab.bytesOrEmpty ++ [vocab.bytesOrEmpty id] := by simp
    rw [hmap] at hpass hlive ⊢
    obtain ⟨p, hp⟩ := hlive
    rw [List.flatten_append, List.flatten_singleton] at hp
    obtain ⟨q, hq, htok⟩ := Pda.advanceAll_append.mp hp
    obtain ⟨s₁, hrun, hafter₁, htext⟩ := ih (fun i hi => hids i (by simp [hi]))
      (fun f t r hsplit => hpass f t (r ++ [vocab.bytesOrEmpty id]) (by rw [hsplit]; simp)) ⟨q, hq⟩
    have hread₁ := hread.replays hrun
    rw [List.nil_append, htext] at hread₁
    have hid : id < vocab.eosBit := hids id (by simp)
    have hallows : s₁.allows id = true := by
      have hid₁ : id < s₁.grammar.eosBit := by
        have heos : s₁.grammar.eosBit = vocab.eosBit := congrArg Vocab.eosBit hread₁.vocab
        rwa [heos]
      have hbytes : s₁.grammar.vocab.bytesOrEmpty id = vocab.bytesOrEmpty id := by rw [hread₁.vocab]
      have hpda : s₁.pda = q := Except.ok.inj (hread₁.live.symm.trans hq)
      refine (allows_token hread₁.memo hid₁ hbytes).mpr ⟨?_, (hpass _ _ [] rfl).legal hafter₁⟩
      rw [hpda]
      exact Pda.admits_iff.mpr ⟨p, htok⟩
    obtain ⟨s', hturn⟩ := hread₁.turns hallows
    refine ⟨s', hrun.append (.cons hturn (.nil s')), hafter₁.turn hturn hread₁.vocab hid, ?_⟩
    rw [textOf_append, htext, textOf_cons, textOf_nil, sign_of_lt hid]
    simp [Sign.spelled]

end Session

/-- **The way through a whole query is a replay.** -/
theorem Reaches.replay_ok {p : Point} {g : CompiledGrammar} {ids : List Nat}
    (h : Reaches schema (ids.map g.vocab.bytesOrEmpty) p)
    (hdone : (⟨p.state, p.stack⟩ : Pda).isAccepting = true) (hids : ∀ id ∈ ids, id < g.eosBit)
    (os : List Session.Op) :
    ∃ s', (Session.restarted g (some schema) os).replayTokens ids g.eosBit = .ok s' := by
  obtain ⟨l, ps, htoks, hstate, hstack, -⟩ := h.read
  have hlive :
      Pda.new.advanceAll (ids.map g.vocab.bytesOrEmpty).flatten = .ok ⟨p.state, p.stack⟩ := by
    refine Pda.advanceAll_eq_ok.mpr ?_
    have hrun := Lexer.run_tokens htoks
    rwa [hstate, hstack] at hrun
  have hread := Session.hasRead_restarted g (some schema) os
  obtain ⟨s', hrun, -, htext⟩ := Session.replays_of_passed hread
    (Session.afterTokens_restarted g schema os) hids h.passed ⟨_, hlive⟩
  rcases hread.replayTokens_cases ids with ⟨_, _, _, hok⟩ | ⟨_, _, hno, _⟩ |
    ⟨front, id, rest, s₁, rfl, hfront, hclear, _⟩
  · exact ⟨_, hok⟩
  · rw [htext] at hno
    exact absurd ⟨_, hlive, hdone⟩ hno
  · obtain ⟨s₂, hfront', hrest⟩ := hrun.split
    cases hrest with
    | cons hturn _ =>
      rw [hfront.unique hfront', hturn.allowed] at hclear
      cases hclear

end

end PureCard
