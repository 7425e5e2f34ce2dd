/-
PureCard.NamePieces — a legal name, however it is cut.

A vocabulary cuts names where it likes. From a position with no lexeme
open a legal name is read as one lexeme (`tokens_open`), so the rule that
was found there stays with it, and every piece keeps it a front of itself.
A source path that begins like the keyword `let` is the exception: the
automaton reads its first letters in states that are no lexeme, and no
rule applies behind them (`InKeyword`).

The piece that ends the name may carry more bytes. They pass if nothing
goes on with the name; among recorded columns something may, and then the
longer column decides (`split_names`).
-/
import PureCard.DeadEnds
import PureCard.FusedDots
import PureCard.Schema.Members
import PureCard.StringColumns

namespace PureCard

open Pushdown Completion ScopeTracker

namespace Lexer

/-! ## One lexeme in pieces -/

theorem token_nil {l : Lexer} (h : l.Settled) : l.token [] = some (l, []) := by
  rw [token, feed]
  cases hk : l.state.lexemeKind with
  | some k => simp [cut, cutPieces, hk]
  | none =>
    obtain ⟨hseg, hanchor⟩ := h hk
    have hsame : (⟨l.state, l.stack, [], l.state⟩ : Lexer) = l := by
      obtain ⟨s, st, seg, a⟩ := l
      cases hseg
      cases hanchor
      rfl
    simp [cut, cutPieces, hk, Reader.pieces_gap hk, hseg, hsame]

/-- Tokens that stay inside the lexeme in flight make it longer. -/
theorem tokens_inside {l l' : Lexer} {k : LexKind} (hk : l.state.lexemeKind = some k)
    {toks : List Bytes} {d : State × List Frame}
    (h : InLexeme k (l.state, l.stack) toks.flatten d) {ps : List Piece}
    (htoks : l.tokens toks = some (l', ps)) :
    l' = ⟨d.1, d.2, l.seg ++ toks.flatten, l.anchor⟩ ∧ ps = [] := by
  induction toks generalizing l ps with
  | nil =>
    simp only [tokens, Option.some.injEq, Prod.mk.injEq] at htoks
    obtain ⟨rfl, rfl⟩ := htoks
    cases h
    simp
  | cons tok toks ih =>
    rw [List.flatten_cons] at h
    obtain ⟨e, htok, hrest⟩ := h.split
    have he : e.1.lexemeKind = some k := by
      by_cases hnil : tok = []
      · subst hnil
        cases htok
        exact hk
      · exact htok.last hnil
    rw [tokens, token_inside hk htok he] at htoks
    dsimp only at htoks
    split at htoks
    · cases htoks
    · rename_i l₂ qs hmore
      cases htoks
      obtain ⟨rfl, rfl⟩ := ih (l := ⟨e.1, e.2, l.seg ++ tok, l.anchor⟩) he hrest hmore
      simp

/-- Tokens that are the front of a lexeme open it. -/
theorem tokens_open {l l' : Lexer} (hsettled : l.Settled) (hgap : l.state.lexemeKind = none)
    {k : LexKind} {toks : List Bytes} {d : State × List Frame}
    (h : InLexeme k (l.state, l.stack) toks.flatten d) {ps : List Piece}
    (htoks : l.tokens toks = some (l', ps)) :
    ps = [] ∧ (toks.flatten = [] ∧ l' = l ∨
      toks.flatten ≠ [] ∧ l' = ⟨d.1, d.2, toks.flatten, l.state⟩) := by
  induction toks generalizing ps with
  | nil =>
    simp only [tokens, Option.some.injEq, Prod.mk.injEq] at htoks
    exact ⟨htoks.2.symm, .inl ⟨rfl, htoks.1.symm⟩⟩
  | cons tok toks ih =>
    by_cases hnil : tok = []
    · subst hnil
      rw [tokens, token_nil hsettled] at htoks
      dsimp only at htoks
      split at htoks
      · cases htoks
      · rename_i l₂ qs hmore
        cases htoks
        exact ih h hmore
    · rw [List.flatten_cons] at h ⊢
      obtain ⟨e, htok, hrest⟩ := h.split
      rw [tokens, token_opens hsettled hgap hnil htok] at htoks
      dsimp only at htoks
      split at htoks
      · cases htoks
      · rename_i l₂ qs hmore
        cases htoks
        have hinside : InLexeme k
            ((⟨e.1, e.2, tok, l.state⟩ : Lexer).state, (⟨e.1, e.2, tok, l.state⟩ : Lexer).stack)
            toks.flatten d := hrest
        obtain ⟨rfl, rfl⟩ := tokens_inside (htok.last hnil) hinside hmore
        exact ⟨rfl, .inr ⟨by simp [hnil], rfl⟩⟩

end Lexer

/-! ## A path that begins like the keyword -/

/-- The states inside the front of `let`. -/
def keywordStates : List State := [.letL, .letLe, .letLet]

/-- A source path that begins like the keyword is in flight, so far as a
gap, or as a lexeme that opened inside the keyword. -/
def Lexer.InKeyword (l : Lexer) : Prop :=
  l.state ∈ keywordStates ∨ l.state ∈ sourcePathStates ∧ l.anchor ∈ keywordStates

theorem lexemeKind_keyword {s : State} (h : s ∈ keywordStates) : s.lexemeKind = none := by
  simp only [keywordStates, List.mem_cons, List.not_mem_nil, or_false] at h
  rcases h with rfl | rfl | rfl <;> rfl

theorem openingPosition_keyword {t : ScopeTracker} {s : State} (h : s ∈ keywordStates) :
    t.openingPosition s = .none := by
  simp only [keywordStates, List.mem_cons, List.not_mem_nil, or_false] at h
  rcases h with rfl | rfl | rfl <;> rfl

def IsPathByte (b : UInt8) : Prop := isIdentTail b = true ∨ b = Byte.colon

theorem IsPathByte.not_ws {b : UInt8} (h : IsPathByte b) : isWs b = false := by
  rw [Bool.eq_false_iff]
  intro hws
  have hspace := Reader.isAsciiWhitespace_of_ws hws
  rcases h with h | rfl
  · rw [isAsciiWhitespace_of_tail h] at hspace
    cases hspace
  · revert hspace
    decide

/-- Inside the keyword a path byte stays there, or is read as in any
path. -/
theorem keyword_move {s : State} (hs : s ∈ keywordStates) (st : List Frame) {b : UInt8}
    (hb : IsPathByte b) :
    (∃ s' ∈ keywordStates, isIdentTail b = true ∧
        Pushdown.advance step (s, st) b = some (s', st)) ∨
      Pushdown.advance step (s, st) b = Pushdown.advance step (.inSourceIdent, st) b := by
  simp only [keywordStates, List.mem_cons, List.not_mem_nil, or_false] at hs
  rcases hs with rfl | rfl | rfl
  · by_cases he : b = Byte.e
    · subst he
      exact .inl ⟨.letLe, by simp [keywordStates], by decide, rfl⟩
    · exact .inr (by simp [Pushdown.advance, step, he])
  · by_cases ht : b = Byte.t
    · subst ht
      exact .inl ⟨.letLet, by simp [keywordStates], by decide, rfl⟩
    · exact .inr (by simp [Pushdown.advance, step, ht])
  · exact .inr (by simp [Pushdown.advance, step, hb.not_ws])

/-- What is a path behind a letter is one behind the front of the
keyword. -/
theorem run_keyword {u : Bytes} (hu : ∀ b ∈ u, IsPathByte b) {c d : State × List Frame}
    (h : InLexeme .ident c u d) (hc : c.1 = .inSourceIdent) {s : State} (hs : s ∈ keywordStates) :
    run step (s, c.2) u ≠ none := by
  induction h generalizing s with
  | nil c => simp
  | @cons c e d b u hstep he hrest ih =>
    obtain ⟨s₀, st⟩ := c
    cases hc
    have hst := (next_of_lexeme hstep he).2
    rw [run_cons]
    rcases keyword_move hs st (hu b List.mem_cons_self) with ⟨s', hs', htail, hadv⟩ | hsame
    · have hstay : e.1 = .inSourceIdent := by
        have hpath : Pushdown.advance step (.inSourceIdent, st) b = some (.inSourceIdent, st) := by
          simp [Pushdown.advance, step, inSourceIdent, htail, Move.apply]
        rw [hpath] at hstep
        cases hstep
        rfl
      rw [hadv, Option.bind_some, ← hst]
      exact ih (fun x hx => hu x (List.mem_cons_of_mem b hx)) hstay hs'
    · rw [hsame, hstep, Option.bind_some, hrest.run_eq]
      simp

namespace Lexer

theorem InKeyword.read {l : Lexer} (h : l.InKeyword) {b : UInt8} (hb : IsPathByte b)
    {c : State × List Frame} (hadv : Pushdown.advance step (l.state, l.stack) b = some c) :
    (l.read b c).InKeyword := by
  rcases h with hs | ⟨hs, ha⟩
  · have hgap : l.state.lexemeKind = none := lexemeKind_keyword hs
    rcases keyword_move hs l.stack hb with ⟨s', hs', _, hmove⟩ | hsame
    · rw [hmove, Option.some.injEq] at hadv
      subst hadv
      rw [Lexer.read_same b (hgap.trans (lexemeKind_keyword hs').symm)]
      exact .inl hs'
    · have hpath := (sourceStep (hsame ▸ hadv) hb).2 (by simp [sourcePathStates])
      have hne : l.state.lexemeKind ≠ c.1.lexemeKind := by simp [hgap, lexemeKind_sourcePath hpath]
      rw [Lexer.read_other b hne]
      exact .inr ⟨hpath, hs⟩
  · have hpath := (sourceStep hadv hb).2 hs
    rw [Lexer.read_same b ((lexemeKind_sourcePath hs).trans (lexemeKind_sourcePath hpath).symm)]
    exact .inr ⟨hpath, ha⟩

theorem InKeyword.feed {l l' : Lexer} (h : l.InKeyword) {w : Bytes} (hw : ∀ b ∈ w, IsPathByte b)
    {ps : List Piece} (hfeed : l.feed w = some (l', ps)) : l'.InKeyword := by
  induction w generalizing l ps with
  | nil =>
    simp only [Lexer.feed, Option.some.injEq, Prod.mk.injEq] at hfeed
    exact hfeed.1 ▸ h
  | cons b w ih =>
    rw [Lexer.feed] at hfeed
    split at hfeed
    · cases hfeed
    · rename_i c hc
      split at hfeed
      · cases hfeed
      · rename_i l₁ qs hrest
        cases hfeed
        exact ih (h.read (hw b List.mem_cons_self) hc)
          (fun x hx => hw x (List.mem_cons_of_mem b hx)) hrest

theorem InKeyword.cut {l : Lexer} (h : l.InKeyword) : l.cut.InKeyword := by
  rcases h with hs | ⟨hs, ha⟩
  · exact .inl (by rw [l.state_cut]; exact hs)
  · rw [Lexer.cut_lexeme (lexemeKind_sourcePath hs)]
    exact .inr ⟨hs, ha⟩

/-- Tokens of path bytes keep to the keyword. -/
theorem InKeyword.tokens {l l' : Lexer} (h : l.InKeyword) {toks : List Bytes}
    (hw : ∀ b ∈ toks.flatten, IsPathByte b) {ps : List Piece}
    (htoks : l.tokens toks = some (l', ps)) : l'.InKeyword := by
  induction toks generalizing l ps with
  | nil =>
    simp only [Lexer.tokens, Option.some.injEq, Prod.mk.injEq] at htoks
    exact htoks.1 ▸ h
  | cons tok toks ih =>
    rw [Lexer.tokens, Lexer.token] at htoks
    split at htoks
    · cases htoks
    · rename_i l₁ qs htok
      split at htok
      · cases htok
      · rename_i l₂ rs hfeed
        cases htok
        split at htoks
        · cases htoks
        · rename_i l₃ ss hrest
          cases htoks
          have hhead : ∀ b ∈ tok, IsPathByte b := fun b hb => hw b (by simp [hb])
          have htail : ∀ b ∈ toks.flatten, IsPathByte b := by
            intro b hb
            exact hw b (by rw [List.flatten_cons]; exact List.mem_append_right tok hb)
          exact ih (h.feed hhead hfeed).cut htail hrest

/-- Tokens that begin a path with an `l` at a block statement. -/
theorem tokens_keyword {l l' : Lexer} (hsettled : l.Settled)
    (hs : l.state = .blockStmt ∨ l.state = .blockStmtClose) {toks : List Bytes} {u : Bytes}
    (hu : toks.flatten <+: Byte.l :: u) (hbytes : ∀ b ∈ u, IsPathByte b) {ps : List Piece}
    (htoks : l.tokens toks = some (l', ps)) :
    toks.flatten = [] ∧ l' = l ∧ ps = [] ∨ toks.flatten ≠ [] ∧ l'.InKeyword := by
  induction toks generalizing ps with
  | nil =>
    simp only [Lexer.tokens, Option.some.injEq, Prod.mk.injEq] at htoks
    exact .inl ⟨rfl, htoks.1.symm, htoks.2.symm⟩
  | cons tok toks ih =>
    cases tok with
    | nil =>
      rw [tokens, token_nil hsettled] at htoks
      dsimp only at htoks
      split at htoks
      · cases htoks
      · rename_i l₂ qs hmore
        cases htoks
        exact ih hu hmore
    | cons b w =>
      rw [List.flatten_cons, List.cons_append] at hu ⊢
      obtain ⟨rfl, hw⟩ := List.cons_prefix_cons.mp hu
      have hpath : ∀ x ∈ w ++ toks.flatten, IsPathByte x := fun x hx => hbytes x (hw.subset hx)
      have hadv : Pushdown.advance step (l.state, l.stack) Byte.l = some (.letL, l.stack) := by
        rcases hs with hs | hs <;> rw [hs] <;> rfl
      have hgap : l.state.lexemeKind = none := by rcases hs with hs | hs <;> rw [hs] <;> rfl
      have hopened : (l.read Byte.l (.letL, l.stack)).InKeyword := by
        rw [Lexer.read_same Byte.l (by rw [hgap]; rfl)]
        exact .inl (by simp [keywordStates])
      rw [tokens, token, feed, hadv] at htoks
      dsimp only at htoks
      refine .inr ⟨by simp, ?_⟩
      split at htoks
      · cases htoks
      · rename_i l₁ qs htok
        split at htok
        · cases htok
        · rename_i l₂ rs hfeed
          cases htok
          split at hfeed
          · cases hfeed
          · rename_i l₃ ss hrest
            cases hfeed
            split at htoks
            · cases htoks
            · rename_i l₄ us hmore
              cases htoks
              have hfed := hopened.feed (fun x hx => hpath x (List.mem_append_left _ hx)) hrest
              exact hfed.cut.tokens (fun x hx => hpath x (List.mem_append_right w hx)) hmore

/-- A run of tokens splits where its list does. -/
theorem tokens_split {l l' : Lexer} {toks more : List Bytes} {ps : List Piece}
    (h : l.tokens (toks ++ more) = some (l', ps)) :
    ∃ l₁ qs rs, l.tokens toks = some (l₁, qs) ∧ l₁.tokens more = some (l', rs) ∧
      ps = qs ++ rs := by
  induction toks generalizing l ps with
  | nil => exact ⟨l, [], ps, rfl, h, rfl⟩
  | cons tok toks ih =>
    rw [List.cons_append, tokens] at h
    split at h
    · cases h
    · rename_i l₁ qs htok
      split at h
      · cases h
      · rename_i l₂ rs hmore
        cases h
        obtain ⟨l₃, us, vs, hus, hvs, rfl⟩ := ih hmore
        refine ⟨l₃, qs ++ us, vs, ?_, hvs, by rw [List.append_assoc]⟩
        rw [tokens, htok]
        dsimp only
        rw [hus]

theorem run_tokens {l l' : Lexer} {toks : List Bytes} {ps : List Piece}
    (h : l.tokens toks = some (l', ps)) :
    run step (l.state, l.stack) toks.flatten = some (l'.state, l'.stack) := by
  induction toks generalizing l ps with
  | nil =>
    simp only [tokens, Option.some.injEq, Prod.mk.injEq] at h
    rw [h.1]
    rfl
  | cons tok toks ih =>
    rw [tokens] at h
    split at h
    · cases h
    · rename_i l₁ qs htok
      split at h
      · cases h
      · rename_i l₂ rs hmore
        cases h
        have hrun : run step (l.state, l.stack) tok = some (l₁.state, l₁.stack) :=
          Pda.advanceAll_eq_ok.mp (token_pda htok)
        rw [List.flatten_cons, run_append, hrun, Option.bind_some]
        exact ih hmore

end Lexer

/-! ## The names of a position -/

/-- The names of classes and the database are paths, and those of members
are identifiers. -/
structure NamesFormed (schema : Schema) : Prop where
  paths : ∀ p ∈ schema.sourcePaths, IsClasspath p
  members : ∀ cls, ∀ m ∈ schema.memberNames cls, IsIdent m

/-- The legal names of a position, as they stand in a query. -/
inductive LegalName (schema : Schema) (columns : List Bytes) : L2Position → Bytes → Prop where
  | source {n : Bytes} (h : n ∈ schema.sourcePaths) : LegalName schema columns .sourceIdent n
  | member {cls n : Bytes} (h : n ∈ schema.memberNames cls) :
      LegalName schema columns (.member cls) n
  | row {n : Bytes} (h : n ∈ columns) (hbare : IsIdent n) :
      LegalName schema columns .relationColumn n
  | column {c : Bytes} (h : c ∈ columns) : LegalName schema columns .column (quote c)

/-- What holds of every name a schema declares holds of every member. -/
theorem forall_memberNames {data : SchemaData} {P : Bytes → Prop}
    (hclasses : ∀ e ∈ data.classes.entries, (∀ p ∈ e.2.properties, P p.name) ∧
      ∀ q ∈ e.2.qualifiedProperties, P q.name)
    (hends : ∀ a ∈ data.associations, P a.ends.1.propertyName ∧ P a.ends.2.propertyName)
    (cls : Bytes) : ∀ m ∈ (Schema.ofData data).memberNames cls, P m := by
  intro m hm
  obtain ⟨cls', -, r, hr⟩ := Schema.mem_memberNames.mp hm
  cases hr with
  | property hinfo hprop hname =>
    exact hname ▸ (hclasses _ (AList.mem_lookup_iff.mp hinfo)).1 _ hprop
  | qualified hinfo hprop hname =>
    exact hname ▸ (hclasses _ (AList.mem_lookup_iff.mp hinfo)).2 _ hprop
  | navigation hopposite _ hname =>
    obtain ⟨a, ha, hpair⟩ := hopposite
    have hboth := hends a ha
    rcases hpair with hpair | hpair <;> rw [hpair] at hboth
    · exact hname ▸ hboth.2
    · exact hname ▸ hboth.1

theorem pathBytes_of_ident {n : Bytes} (h : IsIdent n) : ∀ b ∈ n, isIdentTail b = true := by
  obtain ⟨b, u, rfl, hb, hu⟩ := h
  intro x hx
  rcases List.mem_cons.mp hx with rfl | hx
  · exact isIdentTail_of_start hb
  · exact hu x hx

theorem IsClasspath.pathBytes {p : Bytes} (h : IsClasspath p) : ∀ b ∈ p, IsPathByte b := by
  induction h with
  | name h => exact fun b hb => .inl (pathBytes_of_ident h b hb)
  | join _ hn ih =>
    intro b hb
    simp only [List.mem_append, List.mem_cons] at hb
    rcases hb with hb | rfl | rfl | hb
    · exact ih b hb
    · exact .inr rfl
    · exact .inr rfl
    · exact .inl (pathBytes_of_ident hn b hb)

/-- How a name is read where no lexeme is open: as one lexeme, or as a
path that begins like the keyword. -/
inductive Lexer.ReadsName (l : Lexer) (n : Bytes) : Prop where
  | lexeme {k : LexKind} {d : State × List Frame} (h : InLexeme k (l.state, l.stack) n d)
  | keyword {v : Bytes} {d : State × List Frame}
      (hs : l.state = .blockStmt ∨ l.state = .blockStmtClose) (hn : n = Byte.l :: v)
      (hbytes : ∀ b ∈ v, IsPathByte b) (h : InLexeme .ident (.inSourceIdent, l.stack) v d)

theorem LegalName.reads {schema : Schema} (hformed : NamesFormed schema) {columns : List Bytes}
    {l : Lexer} {pos : L2Position} {n : Bytes} (hruled : Ruled l.state pos)
    (h : LegalName schema columns pos n) : l.ReadsName n := by
  obtain ⟨s, st, seg, a⟩ := l
  cases h with
  | source h =>
    have hpath := hformed.paths n h
    have hbytes := hpath.pathBytes
    obtain ⟨b, v, rfl, hb, hread⟩ := hpath.read
    cases hruled with
    | source hs =>
      by_cases hkey : s ≠ .expectSource ∧ b = Byte.l
      · have hblock : s = .blockStmt ∨ s = .blockStmtClose := by
          simpa [sourceStates, hkey.1] using hs
        exact .keyword hblock (by rw [hkey.2]) (fun x hx => hbytes x (by simp [hx])) (hread st)
      · refine .lexeme (.cons (d := (.inSourceIdent, st)) ?_ rfl (hread st))
        have hl : s ≠ .expectSource → (b == Byte.l) = false := fun hs =>
          beq_eq_false_iff_ne.mpr fun he => hkey ⟨hs, he⟩
        simp only [sourceStates, List.mem_cons, List.not_mem_nil, or_false] at hs
        rcases hs with rfl | rfl | rfl
        · simp [Pushdown.advance, step, hb, isWs_of_start hb, Move.apply]
        · have hl := hl (by decide)
          simp only [Byte.l] at hl
          simp [Pushdown.advance, step, blockStmt, pick, hb, isWs_of_start hb, hl, Move.apply]
        · have hl := hl (by decide)
          simp only [Byte.l] at hl
          simp [Pushdown.advance, step, blockStmt, pick, hb, isWs_of_start hb, hl, Move.apply]
  | member h =>
    cases hruled
    exact .lexeme ((hformed.members _ n h).read st)
  | row h hbare =>
    cases hruled
    exact .lexeme (hbare.read st)
  | column h =>
    cases hruled with
    | column hs => exact .lexeme (quote_read _ hs st)

namespace Lexer

/-- The automaton reads the name. -/
theorem ReadsName.run_ne_none {l : Lexer} {n : Bytes} (h : l.ReadsName n) :
    run step (l.state, l.stack) n ≠ none := by
  cases h with
  | lexeme h => simp [h.run_eq]
  | keyword hs hn hbytes h =>
    subst hn
    have hadv : Pushdown.advance step (l.state, l.stack) Byte.l = some (.letL, l.stack) := by
      rcases hs with hs | hs <;> rw [hs] <;> rfl
    rw [run_cons, hadv, Option.bind_some]
    exact run_keyword hbytes h rfl (by simp [keywordStates])

/-- No rule applies inside the keyword. -/
theorem InKeyword.position {l : Lexer} (h : l.InKeyword) (t : ScopeTracker) :
    (t.hold l).position l.state = .none := by
  rcases h with hs | ⟨hs, ha⟩
  · rw [(position_gap t (lexemeKind_keyword hs)).1, openingPosition_keyword hs]
  · rw [(position_flying t (lexemeKind_sourcePath hs)).1, ScopeTracker.carriedPosition,
      openingPosition_keyword ha]

/-- **A front of the name.** Behind tokens that spell it the name is still
to be read as before or is in flight, or it is read inside the keyword. -/
theorem ReadsName.tokens {l l' : Lexer} (hsettled : l.Settled) (hgap : l.state.lexemeKind = none)
    {n : Bytes} (h : l.ReadsName n) {toks : List Bytes} (hfront : toks.flatten <+: n)
    {ps : List Piece} (htoks : l.tokens toks = some (l', ps)) :
    ps = [] ∧ (toks.flatten = [] ∧ l' = l ∨ toks.flatten ≠ [] ∧ l'.state.lexemeKind ≠ none ∧
        l'.seg = toks.flatten ∧ l'.anchor = l.state) ∨
      l.state ∈ sourceStates ∧ l'.InKeyword := by
  cases h with
  | @lexeme k d h =>
    obtain ⟨rest, rfl⟩ := hfront
    obtain ⟨e, hread, _⟩ := h.split
    obtain ⟨rfl, hopen⟩ := tokens_open hsettled hgap hread htoks
    refine .inl ⟨rfl, ?_⟩
    rcases hopen with hnil | ⟨hne, rfl⟩
    · exact .inl hnil
    · exact .inr ⟨hne, by simp [hread.last hne], rfl, rfl⟩
  | keyword hs hn hbytes _ =>
    subst hn
    rcases tokens_keyword hsettled hs hfront hbytes htoks with ⟨hnil, hl, rfl⟩ | ⟨_, hkey⟩
    · exact .inl ⟨rfl, .inl ⟨hnil, hl⟩⟩
    · exact .inr ⟨by rcases hs with hs | hs <;> simp [sourceStates, hs], hkey⟩

end Lexer

/-! ## A name under its rule -/

/-- Behind a quoted column only a quote goes on with a quoted column. -/
theorem quote_of_live_quote {columns : List Bytes} {c : Bytes} {b : UInt8}
    (h : Live {n | n ∈ columns.map quote} (quote c ++ [b])) : b = Byte.quote := by
  obtain ⟨n, hn, v, hv⟩ := h
  obtain ⟨c', _, rfl⟩ := List.mem_map.mp hn
  have hvalue : State.expectValue ∈ valueStates := by simp [valueStates]
  have hread := quote_read c' hvalue []
  rw [← hv] at hread
  obtain ⟨e, hfront, _⟩ := hread.split
  have hrun := hfront.run_eq
  rw [run_concat, (quote_read c hvalue []).run_eq, Option.bind_some] at hrun
  by_contra hb
  have hgap := (quiet_behind_string hrun hb).1
  rw [hfront.last (by simp)] at hgap
  cases hgap

theorem not_live_of_pathBytes {names : List Bytes} (hnames : ∀ m ∈ names, ∀ x ∈ m, IsPathByte x)
    {b : UInt8} (hb : ¬ IsPathByte b) (n : Bytes) : ¬ Live {m | m ∈ names} (n ++ [b]) := by
  rintro ⟨m, hm, hpre⟩
  exact hb (hnames m hm b (hpre.subset (by simp)))

theorem verdict_ne_off_of_ended {names : Set Bytes} {n : Bytes} (hn : n ∈ names) {b : UInt8}
    (hoff : ¬ Live names (n ++ [b])) (hb : isIdentTail b = false) (t : Bytes) :
    verdict names EndsIdent n (b :: t) ≠ .off := by
  have hends : EndsIdent b := hb
  rw [verdict, if_neg hoff, if_pos ⟨hn, hends⟩]
  simp

section

variable {schema : Schema} {columns : List Bytes} {pos : L2Position} {n : Bytes}

theorem LegalName.rule (h : LegalName schema columns pos n) :
    ∃ kind names, pos.rule schema columns = some (kind, names) ∧ n ∈ names := by
  cases h with
  | source h => exact ⟨_, _, rule_sourceIdent, List.mem_append_left _ h⟩
  | member h => exact ⟨_, _, rule_member, h⟩
  | row h _ => exact ⟨_, _, rule_relationColumn, h⟩
  | column h => exact ⟨_, _, rule_column, List.mem_map_of_mem h⟩

/-- Every piece of a legal name is kept. -/
theorem LegalName.keeps_piece (h : LegalName schema columns pos n) {u f rest : Bytes}
    (hsplit : u ++ f ++ rest = n) : legalAt schema pos u columns f = true := by
  obtain ⟨kind, names, hrule, hn⟩ := h.rule
  exact keeps_of_live hrule ⟨n, hn, rest, hsplit⟩

/-- A token that ends the name is judged by what goes on with it. -/
theorem keeps_end {kind : TrieKind} {names : List Bytes}
    (hrule : pos.rule schema columns = some (kind, names)) (hn : n ∈ names) {u f : Bytes}
    (hsplit : u ++ f = n) (b : UInt8) (t : Bytes) :
    legalAt schema pos u columns (f ++ b :: t) = true ↔
      (isCandidate (f ++ b :: t) kind (decide (u ≠ [])) = true →
        verdict {m | m ∈ names} EndsIdent n (b :: t) ≠ .off) := by
  subst hsplit
  have hlive : Live {m | m ∈ names} (u ++ f) := .of_mem hn
  rw [legalAt_rule hrule, keepsFrom_iff, verdict_append hlive]
  exact ⟨fun h => h (.inr hlive.of_append), fun h _ => h⟩

/-- **The token that ends a legal name** is kept, unless recorded columns
go on with the name and the token leaves them all. -/
theorem LegalName.keeps_end_iff (hformed : NamesFormed schema)
    (h : LegalName schema columns pos n) {u f : Bytes} (hsplit : u ++ f = n) (hf : f ≠ [])
    {b : UInt8} (htail : isIdentTail b = false) (hquote : b ≠ Byte.quote) (hcolon : b ≠ Byte.colon)
    (t : Bytes) : legalAt schema pos u columns (f ++ b :: t) = true ↔
      ¬ (pos = .relationColumn ∧ verdict {c | c ∈ columns} EndsIdent n (b :: t) = .off) := by
  have hpath : ¬ IsPathByte b := by
    rintro (hb | hb)
    · rw [hb] at htail
      cases htail
    · exact hcolon hb
  cases h with
  | source h =>
    have hnames : ∀ m ∈ schema.sourcePaths ++ [letKeyword], ∀ x ∈ m, IsPathByte x := by
      intro m hm x hx
      rcases List.mem_append.mp hm with hm | hm
      · exact (hformed.paths m hm).pathBytes x hx
      · rw [List.mem_singleton.mp hm] at hx
        exact .inl (pathBytes_of_ident isIdent_letKeyword x hx)
    have hmem : n ∈ schema.sourcePaths ++ [letKeyword] := List.mem_append_left _ h
    rw [keeps_end rule_sourceIdent hmem hsplit]
    have hkept := verdict_ne_off_of_ended hmem (not_live_of_pathBytes hnames hpath n) htail t
    exact iff_of_true (fun _ => hkept) fun hrow => by cases hrow.1
  | @member cls _ h =>
    have hnames : ∀ m ∈ schema.memberNames cls, ∀ x ∈ m, IsPathByte x := fun m hm x hx =>
      .inl (pathBytes_of_ident (hformed.members cls m hm) x hx)
    rw [keeps_end rule_member h hsplit]
    have hkept := verdict_ne_off_of_ended h (not_live_of_pathBytes hnames hpath n) htail t
    exact iff_of_true (fun _ => hkept) fun hrow => by cases hrow.1
  | @column c h =>
    have hmem : quote c ∈ columns.map quote := List.mem_map_of_mem h
    rw [keeps_end rule_column hmem hsplit]
    have hkept := verdict_ne_off_of_ended hmem (fun hlive => hquote (quote_of_live_quote hlive))
      htail t
    exact iff_of_true (fun _ => hkept) fun hrow => by cases hrow.1
  | row h hbare =>
    rw [keeps_end rule_relationColumn h hsplit]
    have hcand : isCandidate (f ++ b :: t) .ident (decide (u ≠ [])) = true := by
      obtain ⟨x, v, rfl⟩ := List.exists_cons_of_ne_nil hf
      exact pathBytes_of_ident hbare x (by rw [← hsplit]; simp)
    rw [hcand]
    simp

/-- Only a string holds a dot. -/
theorem LegalName.ne_dot (hformed : NamesFormed schema) (h : LegalName schema columns pos n)
    (hmem : Byte.dot ∈ n) : pos = .column := by
  have hdot : ¬ IsPathByte Byte.dot := by
    rintro (hb | hb)
    · revert hb
      decide
    · revert hb
      decide
  cases h with
  | source h => exact absurd ((hformed.paths n h).pathBytes _ hmem) hdot
  | @member cls _ h =>
    exact absurd (.inl (pathBytes_of_ident (hformed.members cls n h) _ hmem)) hdot
  | row _ hbare => exact absurd (.inl (pathBytes_of_ident hbare _ hmem)) hdot
  | column _ => rfl

end

theorem ScopeTracker.fused_of_value {t : ScopeTracker} {l : Lexer}
    (hk : l.state.lexemeKind ≠ none) (ha : l.anchor ∈ valueStates) (schema : Schema) :
    (t.hold l).fusedNavPosition schema = none := by
  obtain ⟨k, hk⟩ := Option.ne_none_iff_exists'.mp hk
  simp only [valueStates, List.mem_cons, List.not_mem_nil, or_false] at ha
  rcases ha with ha | ha <;> simp [fusedNavPosition, hold, hk, ha]

namespace Session

/-! ## A session in the middle of a name -/

theorem streamStep_append (s : Session) (toks : List Bytes) {c : Call} (hc : c ≠ .reset) :
    s.streamStep toks c = toks ++ s.streamStep [] c := by
  cases c with
  | accept id =>
    rw [streamStep, streamStep]
    cases (s.callAcceptToken id).2 <;> simp
  | reset => exact absurd rfl hc
  | mask => simp [streamStep]
  | shared state => simp [streamStep]

/-- What calls without a reset accept comes behind what was accepted. -/
theorem stream_append (s : Session) (toks : List Bytes) {calls : List Call}
    (h : ∀ c ∈ calls, c ≠ .reset) : s.stream toks calls = toks ++ s.stream [] calls := by
  induction calls generalizing s toks with
  | nil => simp [stream]
  | cons c rest ih =>
    have hrest : ∀ c ∈ rest, c ≠ .reset := fun c hc => h c (by simp [hc])
    rw [stream, stream, streamStep_append s toks (h c (by simp)), ih _ _ hrest,
      ih (s.call c).1 (s.streamStep [] c) hrest, List.append_assoc]

/-- Behind the front `u` of a name, the session reads the rest of it, and
what it makes of a piece is what the rule of the name makes of it; no rule
stands inside the keyword. -/
structure InName (s : Session) (schema : Schema) (columns : List Bytes) (pos : L2Position)
    (n u : Bytes) : Prop where
  memo : s.MemoValid
  admits : ∀ f rest, u ++ f ++ rest = n → s.pda.admits f = true
  legal : ∀ f r, f ≠ [] → u ++ f <+: n →
    s.legal (f ++ r) = legalAt schema pos u columns (f ++ r) ∨
      (pos = .sourceIdent ∧ s.legal (f ++ r) = true)

theorem inName_of_calls {g : CompiledGrammar} {schema : Schema} (hformed : NamesFormed schema)
    {calls : List Call} {s : Session} (hs : s = ((build g (some schema)).runCalls calls).1)
    (hgap : s.pda.state.lexemeKind = none) {n : Bytes}
    (hn : LegalName schema s.tracker.emittedColumns (s.tracker.position s.pda.state) n)
    {more : List Call} (hmore : ∀ c ∈ more, c ≠ .reset)
    (hfront : (s.stream [] more).flatten <+: n) :
    (s.runCalls more).1.InName schema s.tracker.emittedColumns (s.tracker.position s.pda.state) n
      (s.stream [] more).flatten := by
  have hafter : s.AfterTokens schema _ := hs ▸ (afterTokens_build g schema).runCalls calls
  have hmemo : (s.runCalls more).1.MemoValid :=
    hs ▸ (((Beside.build g (some schema)).runCalls calls).2.runCalls more).2.memo
  generalize (build g (some schema)).stream [] calls = toks at hafter
  obtain ⟨l, ps, htoks, hsettled, hpda, htracker⟩ := pieces_of_drive hafter.driven
  have hafter' := hafter.runCalls more
  rw [stream_append s toks hmore] at hafter'
  obtain ⟨l', ps', htoks', -, hpda', htracker'⟩ := pieces_of_drive hafter'.driven
  generalize s.stream [] more = front at *
  obtain ⟨l₁, qs, rs, hfirst, hfrontToks, rfl⟩ := Lexer.tokens_split htoks'
  rw [htoks] at hfirst
  cases hfirst
  -- the name is read from where the session stands
  have hgap' : l.state.lexemeKind = none := by
    rw [hpda] at hgap
    exact hgap
  have hpos : s.tracker.position s.pda.state = (new.dispatchAll ps schema).openingPosition l.state := by
    rw [htracker, hpda]
    exact (position_gap _ hgap').1
  have hcolumns : s.tracker.emittedColumns = (new.dispatchAll ps schema).emittedStrings := by
    rw [htracker]
    rfl
  have hruled := ruled_openingPosition (new.dispatchAll ps schema) l.state
  rw [hpos, hcolumns] at hn ⊢
  have hreads := hn.reads hformed hruled
  refine ⟨hmemo, ?_, ?_⟩
  · intro f rest hsplit
    have hrun := hreads.run_ne_none
    rw [← hsplit, List.append_assoc, run_append, Lexer.run_tokens hfrontToks, Option.bind_some] at hrun
    rw [hpda', Pda.admits]
    exact run_isSome_of_append step (Option.isSome_iff_ne_none.mpr hrun)
  · intro f r hf hpre
    obtain ⟨x, v, rfl⟩ := List.exists_cons_of_ne_nil hf
    have hx : x ∈ n := hpre.subset (by simp)
    have hplain : x ≠ Byte.dot → ∀ b rest, x :: v ++ r = Byte.dot :: b :: rest →
        isIdentStart b = false := fun hne b rest heq => absurd (List.cons.inj heq).1 hne
    rcases hreads.tokens hsettled hgap' hfront hfrontToks with ⟨rfl, hwhere⟩ | ⟨hblock, hkey⟩
    · left
      rw [List.append_nil] at htracker'
      rcases hwhere with ⟨hnil, rfl⟩ | ⟨hne, hk, hseg, hanchor⟩
      · -- no column begins with a dot
        have hx : x ≠ Byte.dot := by
          rintro rfl
          have hcolumn := hn.ne_dot hformed hx
          rw [hcolumn] at hn
          cases hn
          rw [hnil] at hpre
          obtain ⟨w, hw⟩ := hpre
          exact absurd (List.cons.inj hw).1 (by decide)
        obtain ⟨hposition, hprefix⟩ := position_gap (new.dispatchAll ps schema) hgap'
        rw [legal_of_ne_dot hafter'.schema_eq (hplain hx), htracker', hpda', hnil]
        show legalAt schema (((new.dispatchAll ps schema).hold l').position l'.state)
          ((new.dispatchAll ps schema).hold l').narrowPrefix _ _ = _
        rw [hposition, hprefix]
        rfl
      · obtain ⟨k, hk'⟩ := Option.ne_none_iff_exists'.mp hk
        obtain ⟨hposition, hprefix⟩ := position_flying (new.dispatchAll ps schema) hk'
        have hcarried : (new.dispatchAll ps schema).carriedPosition l'.anchor =
            (new.dispatchAll ps schema).openingPosition l.state := by
          rw [hanchor, carriedPosition]
          generalize (new.dispatchAll ps schema).openingPosition l.state = pos at hn
          cases hn <;> rfl
        have hlegal : (s.runCalls more).1.legal (x :: v ++ r) = legalAt schema
            ((s.runCalls more).1.tracker.position (s.runCalls more).1.pda.state)
            (s.runCalls more).1.tracker.narrowPrefix (s.runCalls more).1.tracker.emittedColumns
            (x :: v ++ r) := by
          by_cases hx' : x = Byte.dot
          · -- a dot inside a quoted column
            subst hx'
            have hvalue : l'.anchor ∈ valueStates := by
              rw [hn.ne_dot hformed hx] at hruled
              rw [hanchor]
              generalize l.state = state at hruled
              cases hruled
              assumption
            have hfused := fused_of_value (t := new.dispatchAll ps schema) hk hvalue schema
            simp only [legal, hafter'.schema_eq, htracker', hfused, Bool.and_true]
          · exact legal_of_ne_dot hafter'.schema_eq (hplain hx')
        rw [hlegal, htracker', hpda']
        show legalAt schema (((new.dispatchAll ps schema).hold l').position l'.state)
          ((new.dispatchAll ps schema).hold l').narrowPrefix _ _ = _
        rw [hposition, hprefix, hcarried, hseg]
        rfl
    · right
      have hsource : (new.dispatchAll ps schema).openingPosition l.state = .sourceIdent := by
        simp only [sourceStates, List.mem_cons, List.not_mem_nil, or_false] at hblock
        rcases hblock with hb | hb | hb <;> rw [hb] <;> rfl
      have hx' : x ≠ Byte.dot := by
        rintro rfl
        rw [hn.ne_dot hformed hx] at hsource
        cases hsource
      refine ⟨hsource, ?_⟩
      rw [legal_of_ne_dot hafter'.schema_eq (hplain hx'), htracker', hpda']
      show legalAt schema (((new.dispatchAll (ps ++ rs) schema).hold l').position l'.state) _ _ _ = _
      rw [hkey.position]
      rfl

/-- **A legal name, however it is cut.** From a position with no lexeme
open, every piece of a legal name is allowed once the pieces before it
were accepted, whatever else the host asked for in between. A token that
ends the name with its last piece is allowed unless recorded columns go on
with the name and the token leaves them all. -/
theorem split_names (g : CompiledGrammar) {schema : Schema} (hformed : NamesFormed schema)
    (calls : List Call) {s : Session} (hs : s = ((build g (some schema)).runCalls calls).1)
    (hgap : s.pda.state.lexemeKind = none) {n : Bytes}
    (hn : LegalName schema s.tracker.emittedColumns (s.tracker.position s.pda.state) n)
    {more : List Call} (hmore : ∀ c ∈ more, c ≠ .reset) :
    (∀ id f rest, id < s.grammar.eosBit → s.grammar.vocab.bytesOrEmpty id = f → f ≠ [] →
      (s.stream [] more).flatten ++ f ++ rest = n → (s.runCalls more).1.allows id = true) ∧
    ∀ id f b t, id < s.grammar.eosBit → s.grammar.vocab.bytesOrEmpty id = f ++ b :: t → f ≠ [] →
      (s.stream [] more).flatten ++ f = n →
      isIdentTail b = false → b ≠ Byte.quote → b ≠ Byte.colon →
      (s.runCalls more).1.pda.admits (f ++ b :: t) = true →
      ((s.runCalls more).1.allows id = true ↔
        ¬ (s.tracker.position s.pda.state = .relationColumn ∧
          verdict {c | c ∈ s.tracker.emittedColumns} EndsIdent n (b :: t) = .off)) := by
  have hvocab : (s.runCalls more).1.grammar.vocab = s.grammar.vocab := s.vocab_runCalls more
  have heos : (s.runCalls more).1.grammar.eosBit = s.grammar.eosBit := congrArg Vocab.eosBit hvocab
  have hin := fun hfront => inName_of_calls hformed hs hgap hn hmore hfront
  constructor
  · intro id f rest hid hbytes hf hsplit
    obtain ⟨hmemo, hadmits, hlegal⟩ := hin ⟨f ++ rest, by rw [← hsplit, List.append_assoc]⟩
    rw [← hvocab] at hbytes
    rw [allows_token hmemo (heos ▸ hid) hbytes]
    refine ⟨hadmits f rest hsplit, ?_⟩
    have hkept := hn.keeps_piece hsplit
    rcases hlegal f [] hf ⟨rest, hsplit⟩ with hrule | ⟨_, hfree⟩
    · rw [List.append_nil] at hrule
      rw [hrule, hkept]
    · rwa [List.append_nil] at hfree
  · intro id f b t hid hbytes hf hsplit htail hquote hcolon hadmits
    obtain ⟨hmemo, -, hlegal⟩ := hin ⟨f, hsplit⟩
    rw [← hvocab] at hbytes
    rw [allows_token hmemo (heos ▸ hid) hbytes, ← hn.keeps_end_iff hformed hsplit hf htail hquote
      hcolon t]
    rcases hlegal f (b :: t) hf (hsplit ▸ List.prefix_rfl) with hrule | ⟨hsource, hfree⟩
    · rw [hrule]
      exact ⟨fun h => h.2, fun h => ⟨hadmits, h⟩⟩
    · -- inside the keyword no rule stands, and the rule of a source keeps the token
      have hkept := (hn.keeps_end_iff hformed hsplit hf htail hquote hcolon t).mpr fun h => by
        rw [hsource] at h
        cases h.1
      exact iff_of_true ⟨hadmits, hfree⟩ hkept

/-! ### A column that goes on with another -/

/-- A stream behind two columns of which one goes on with the other, the
shorter one, and two tokens that end it. -/
def rowVocab : Vocab :=
  ⟨[ascii "|A.all()->project(~", ascii "[a:x|1,'a b':x|1]", ascii ")->filter(r|$r.", ascii "a",
    ascii "a)", ascii "a =="], 6⟩

/-- The session at the row. -/
def atRow : Session :=
  ((build (.compile rowVocab) (some .sample)).runCalls [.accept 0, .accept 1, .accept 2]).1

theorem namesFormed_sample : NamesFormed .sample where
  paths := pathsFormed_sample
  members cls m hm := by
    have hname : ∀ n ∈ [ascii "n", ascii "s", ascii "m", ascii "toB", ascii "toA"], IsIdent n := by
      intro n hn
      simp only [List.mem_cons, List.not_mem_nil, or_false] at hn
      rcases hn with rfl | rfl | rfl | rfl | rfl
      all_goals exact ⟨_, _, rfl, by decide, by decide +kernel⟩
    exact hname m (forall_memberNames (by decide +kernel) (by decide +kernel) cls m hm)

theorem legalName_atRow : LegalName .sample atRow.tracker.emittedColumns
    (atRow.tracker.position atRow.pda.state) (ascii "a") := by
  have hpos : atRow.tracker.position atRow.pda.state = .relationColumn := by decide +kernel
  rw [hpos]
  refine .row (by decide +kernel) ⟨97, [], rfl, by decide, by simp⟩

/-- The column is allowed, and so is a token that closes the call behind
it. -/
theorem split_names_column : atRow.allows 3 = true ∧
    (atRow.allows 4 = true ↔ ¬ (atRow.tracker.position atRow.pda.state = .relationColumn ∧
      verdict {c | c ∈ atRow.tracker.emittedColumns} EndsIdent (ascii "a") [Byte.rparen] = .off)) := by
  have hgap : atRow.pda.state.lexemeKind = none := by decide +kernel
  have hmore : ∀ c ∈ ([] : List Call), c ≠ .reset := fun c hc => by cases hc
  have hids : 3 < atRow.grammar.eosBit ∧ 4 < atRow.grammar.eosBit := by decide +kernel
  have hpiece : atRow.grammar.vocab.bytesOrEmpty 3 = ascii "a" := by decide +kernel
  have hend : atRow.grammar.vocab.bytesOrEmpty 4 = ascii "a" ++ Byte.rparen :: [] := by
    decide +kernel
  have hadmits : atRow.pda.admits (ascii "a" ++ Byte.rparen :: []) = true := by decide +kernel
  have hname : ascii "a" ≠ [] := by decide
  obtain ⟨hpieces, hends⟩ := split_names (.compile rowVocab) namesFormed_sample
    [.accept 0, .accept 1, .accept 2] rfl hgap legalName_atRow hmore
  exact ⟨hpieces 3 _ [] hids.1 hpiece hname rfl,
    hends 4 _ _ [] hids.2 hend hname rfl (by decide) (by decide) (by decide) hadmits⟩

/-- A token that ends it with a blank is masked. -/
theorem column_ended_by_blank : atRow.pda.state.lexemeKind = none ∧
    LegalName .sample atRow.tracker.emittedColumns
      (atRow.tracker.position atRow.pda.state) (ascii "a") ∧
    atRow.grammar.vocab.bytes 5 = some (ascii "a" ++ Byte.space :: ascii "==") ∧
    atRow.pda.admits (ascii "a" ++ Byte.space :: ascii "==") = true ∧ atRow.allows 3 = true ∧
    atRow.allows 5 = false :=
  ⟨by decide +kernel, legalName_atRow, by decide +kernel, by decide +kernel, by decide +kernel,
    by decide +kernel⟩

end Session

end PureCard
