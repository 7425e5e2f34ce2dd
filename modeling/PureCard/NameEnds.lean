/-
PureCard.NameEnds — the token behind the first bytes of a name.

While a name is in flight the rule of its position looks at a token that
begins with an identifier byte, and reads it on from the bytes so far. So
it masks what leaves every name there. A token that begins with any other
byte is not looked at, whether the name is finished or not; behind a
finished class path a `:` passes, and at the top of a query the keyword
`let` passes as a name.

A source path that begins with an `l` in a block is no lexeme at first
(`Lexer.InKeyword`), and no rule stands behind its first byte.

`name_ends` says exactly which tokens are masked that make the name no
legal one.
-/
import PureCard.NamePieces

namespace PureCard

open Pushdown Completion ScopeTracker

/-! ## A name in flight -/

/-- The bytes of the keyword up to the state. -/
def keywordFront : State → Bytes
  | .letL => [Byte.l]
  | .letLe => [Byte.l, Byte.e]
  | .letLet => letKeyword
  | _ => []

/-- An identifier or a path is open: the position it opened at, the state
it opened in, and its bytes. -/
inductive Session.OpenName (s : Session) (schema : Schema) : L2Position → State → Bytes → Prop where
  | ruled {p : Pending} {names : List Bytes} (hp : s.tracker.pending = some p)
      (hkind : p.kind = .ident)
      (hrule : p.pos.rule schema s.tracker.emittedColumns = some (.ident, names)) :
      OpenName s schema p.pos p.anchor p.buf
  | keyword (hs : s.pda.state ∈ keywordStates) :
      OpenName s schema .sourceIdent s.pda.state (keywordFront s.pda.state)
  | behind {p : Pending} (hp : s.tracker.pending = some p) (hkind : p.kind = .ident)
      (ha : p.anchor ∈ keywordStates) :
      OpenName s schema .sourceIdent p.anchor (keywordFront p.anchor ++ p.buf)

section

variable {schema : Schema} {columns names : List Bytes} {pos : L2Position}

/-- Every legal name of a position is a name of its rule. -/
theorem mem_of_legalNames {kind : TrieKind} (hrule : pos.rule schema columns = some (kind, names))
    {state : State} {n : Bytes} (h : n ∈ legalNames schema columns state pos) : n ∈ names := by
  cases pos with
  | none => cases hrule
  | reValue tc => cases hrule
  | sourceIdent =>
    cases hrule
    rw [legalNames] at h
    split at h
    · exact List.mem_append_left _ h
    · exact h
  | _ =>
    cases hrule
    exact h

/-- Inside a name a token that begins with an identifier byte is read on
from the bytes so far. -/
theorem keeps_within_iff (hrule : pos.rule schema columns = some (.ident, names)) {p : Bytes}
    (hp : Live {n | n ∈ names} p) {b : UInt8} (hb : isIdentTail b = true) (r : Bytes) :
    legalAt schema pos p columns (b :: r) = true ↔
      verdict {n | n ∈ names} EndsIdent [] (p ++ b :: r) ≠ .off := by
  have hcand : isCandidate (b :: r) .ident (decide (p ≠ [])) = true := hb
  have hfrom : verdict {n | n ∈ names} EndsIdent [] (p ++ b :: r) =
      verdict {n | n ∈ names} EndsIdent p (b :: r) := verdict_append (p := []) (u := p) hp (b :: r)
  rw [legalAt_rule hrule, keepsFrom_iff, hcand, hfrom]
  exact ⟨fun h => h (.inr hp) rfl, fun h _ _ => h⟩

/-- A byte outside names ends every name of an identifier rule, a `:`
behind a path excepted. -/
theorem L2Position.ends_dot (hrule : pos.rule schema columns = some (.ident, names)) :
    pos.Ends Byte.dot := by
  have htail : isIdentTail Byte.dot = false := by decide
  cases pos with
  | none => cases hrule
  | reValue tc => cases hrule
  | column => cases hrule
  | sourceIdent => exact ⟨htail, by decide⟩
  | member cls => exact htail
  | relationColumn => exact htail

/-- Behind an unfinished name the fused rule is silent. -/
theorem fused_of_unfinished {toks : List Bytes} {l : Lexer} {ps : List Piece}
    (h : Lexer.start.tokens toks = some (l, ps)) {k : LexKind} (hk : l.state.lexemeKind = some k)
    (hrule : ((new.dispatchAll ps schema).carriedPosition l.anchor).rule schema columns =
      some (.ident, names))
    (hseg : l.seg ∉ legalNames schema columns l.anchor
      ((new.dispatchAll ps schema).carriedPosition l.anchor)) :
    ((new.dispatchAll ps schema).hold l).fusedNavPosition schema = none := by
  have hpending : ((new.dispatchAll ps schema).hold l).pending =
      some ⟨k, l.seg, l.anchor, (new.dispatchAll ps schema).carriedPosition l.anchor⟩ := by
    simp [hold, hk]
  by_cases ha : l.anchor = .afterDot
  · obtain ⟨_, hbefore⟩ := truthful_of_tokens h
    rw [Lexer.opensAt, if_pos (by simp [hk]), ha] at hbefore
    obtain ⟨_, hexcl⟩ := @nav_behind_dot schema ps hbefore
    have hmember : ((new.dispatchAll ps schema).hold l).navFromMember l.seg schema = none := by
      show (new.dispatchAll ps schema).navFromMember l.seg schema = none
      rw [carriedPosition, ha, openingPosition] at hrule hseg
      rw [navFromMember]
      cases hcolumn : (new.dispatchAll ps schema).dotIsColumn with
      | true => rw [hexcl hcolumn]
      | false =>
        cases hbase : (new.dispatchAll ps schema).dotBase with
        | none => rfl
        | some base =>
          simp only [hcolumn, hbase] at hseg
          have hnone : schema.resolve base l.seg = none := by
            rw [← Option.not_isSome_iff_eq_none, Schema.isSome_resolve]
            exact hseg
          simp only [hnone]
    rw [fusedNavPosition, hpending]
    simp only [ha, hmember]
    split <;> [rfl; (split <;> rfl)]
  · have hdollar : l.anchor ≠ .afterDollar := by
      rintro hdollar
      rw [carriedPosition, hdollar] at hrule
      cases hrule
    rw [fusedNavPosition, hpending]
    dsimp only
    split
    · rfl
    · split
      · rfl
      · split
        · contradiction
        · contradiction
        · rfl

end

namespace Session

/-- Inside the keyword only the fused rule may stand. -/
theorem legal_of_free {s : Session} {schema : Schema} (hschema : s.schema = some schema)
    (hfree : s.tracker.position s.pda.state = .none) (bytes : Bytes) :
    s.legal bytes = false ↔ ∃ fused, s.tracker.fusedNavPosition schema = some fused ∧
      legalFused schema fused s.tracker.emittedColumns bytes = false := by
  have hkept : ∀ pfx columns, legalAt schema .none pfx columns bytes = true := fun _ _ => rfl
  simp only [legal, hschema, hfree, hkept, Bool.true_and]
  cases s.tracker.fusedNavPosition schema <;> simp

/-- **Which tokens a name in flight masks.** Let an identifier or a path be
open, the bytes so far the front of a legal name, and take a token the
automaton admits that makes it no legal name. With a rule at the place it
opened, the token is masked exactly when it begins with an identifier byte
and does not slip through. Behind the front of the keyword there is no
rule, and only the rule of a fused dot can mask it. -/
theorem name_ends (g : CompiledGrammar) (schema : Schema) (calls : List Call) {s : Session}
    (hs : s = ((build g (some schema)).runCalls calls).1) {pos : L2Position} {anchor : State}
    {p : Bytes} (hopen : s.OpenName schema pos anchor p)
    (hlive : Live {n | n ∈ legalNames schema s.tracker.emittedColumns anchor pos} p) {id : Nat}
    (hid : id < s.grammar.eosBit) {bytes : Bytes}
    (hbytes : s.grammar.vocab.bytesOrEmpty id = bytes) (hadmits : s.pda.admits bytes = true)
    (hphantom : ¬ BeginsName (legalNames schema s.tracker.emittedColumns anchor pos) pos.Ends
      (p ++ bytes)) :
    s.allows id = false ↔
      (anchor ∉ keywordStates ∧ (∃ b r, bytes = b :: r ∧ isIdentTail b = true) ∧
        ¬ Slips schema s.tracker.emittedColumns anchor pos (p ++ bytes)) ∨
      (anchor ∈ keywordStates ∧ ∃ fused, s.tracker.fusedNavPosition schema = some fused ∧
        legalFused schema fused s.tracker.emittedColumns bytes = false) := by
  have hmemo : s.MemoValid := hs ▸ memoValid_runCalls g schema calls
  have hafter : s.AfterTokens schema _ := hs ▸ (afterTokens_build g schema).runCalls calls
  have hallows : s.allows id = false ↔ s.legal bytes = false := by
    rw [← Bool.not_eq_true, ← Bool.not_eq_true, allows_token hmemo hid hbytes]
    simp [hadmits]
  rw [hallows]
  obtain ⟨b, r, rfl⟩ : ∃ b r, bytes = b :: r := by
    refine List.exists_cons_of_ne_nil ?_
    rintro rfl
    rw [List.append_nil] at hphantom
    exact hphantom (.inl hlive)
  obtain ⟨l, ps, htoks, -, hpda, htracker⟩ := pieces_of_drive hafter.driven
  cases hopen with
  | keyword hs' =>
    have hfree : s.tracker.position s.pda.state = .none := by
      rw [position, lexemeKind_keyword hs']
      exact openingPosition_keyword hs'
    rw [legal_of_free hafter.schema_eq hfree]
    simp [hs']
  | @behind pd hp hkind ha =>
    have hfree : s.tracker.position s.pda.state = .none := by
      rw [htracker] at hp ⊢
      cases hk : l.state.lexemeKind with
      | none => simp [hold, hk] at hp
      | some k =>
        simp only [hold, hk, Option.map_some, Option.some.injEq] at hp
        subst hp
        rw [hpda]
        show ((new.dispatchAll ps schema).hold l).position l.state = .none
        rw [(position_flying _ hk).1, carriedPosition, openingPosition_keyword ha]
    rw [legal_of_free hafter.schema_eq hfree]
    simp [ha]
  | @ruled pd names hp hkind hrule =>
    rw [htracker] at hp
    cases hk : l.state.lexemeKind with
    | none => simp [hold, hk] at hp
    | some k =>
      simp only [hold, hk, Option.map_some, Option.some.injEq] at hp
      subst hp
      dsimp only at hrule hlive hphantom ⊢
      have hnot : l.anchor ∉ keywordStates := by
        intro ha
        rw [carriedPosition, openingPosition_keyword ha] at hrule
        cases hrule
      obtain ⟨hposition, hprefix⟩ := position_flying (new.dispatchAll ps schema) hk
      have hrules : legalAt schema (s.tracker.position s.pda.state) s.tracker.narrowPrefix
          s.tracker.emittedColumns (b :: r) = legalAt schema
            ((new.dispatchAll ps schema).carriedPosition l.anchor) l.seg s.tracker.emittedColumns
            (b :: r) := by
        rw [← hposition, ← hprefix, htracker, hpda]
        rfl
      have hmem : ∀ n ∈ legalNames schema s.tracker.emittedColumns l.anchor
          ((new.dispatchAll ps schema).carriedPosition l.anchor), n ∈ names := fun n hn =>
        mem_of_legalNames hrule hn
      have hlive' : Live {n | n ∈ names} l.seg := by
        obtain ⟨n, hn, hpre⟩ := hlive
        exact ⟨n, hmem n hn, hpre⟩
      cases hb : isIdentTail b with
      | true =>
        have hdot : ∀ c u, b :: r = Byte.dot :: c :: u → isIdentStart c = false := by
          intro c u heq
          rw [(List.cons.inj heq).1] at hb
          exact absurd hb (by decide)
        obtain ⟨x, v, hword⟩ : ∃ x v, l.seg ++ b :: r = x :: v :=
          List.exists_cons_of_ne_nil (by simp)
        rw [hword] at hphantom
        rw [legal_of_ne_dot hafter.schema_eq hdot, hrules, ← Bool.not_eq_true,
          keeps_within_iff hrule hlive' hb, hword, phantom_ne_off_iff hrule hphantom]
        simp [hnot, hb]
      | false =>
        -- the token is not looked at
        have hkept := keeps_of_not_tail hrule l.seg hb r
        have hlegal : s.legal (b :: r) = true := by
          by_cases hdot : b = Byte.dot
          · subst hdot
            have hfused := fused_of_unfinished htoks hk hrule fun hseg => hphantom
              (.inr ⟨l.seg, Byte.dot, r, rfl, hseg, L2Position.ends_dot hrule⟩)
            rw [← htracker] at hfused
            simp only [legal, hafter.schema_eq, hfused, Bool.and_true, hrules, hkept]
          · have hne : ∀ c u, b :: r = Byte.dot :: c :: u → isIdentStart c = false :=
              fun c u heq => absurd (List.cons.inj heq).1 hdot
            rw [legal_of_ne_dot hafter.schema_eq hne, hrules, hkept]
        rw [hlegal]
        simp [hnot, hb]

/-! ### The front of a member -/

/-- A stream in the middle of the member `toB`, an identifier byte no
member goes on with, and the end of the call. -/
def frontVocab : Vocab := ⟨[ascii "|A.all()->filter(x|$x.to", ascii "x", ascii ")"], 3⟩

/-- The session in the middle of the member. -/
def atFront : Session := ((build (.compile frontVocab) (some .sample)).runCalls [.accept 0]).1

theorem openName_atFront : atFront.OpenName .sample (.member (ascii "A")) .afterDot (ascii "to") := by
  have hpending : atFront.tracker.pending =
      some ⟨.ident, ascii "to", .afterDot, .member (ascii "A")⟩ := by decide +kernel
  exact .ruled hpending rfl rule_member

theorem live_atFront : Live {n | n ∈ legalNames .sample atFront.tracker.emittedColumns .afterDot
    (.member (ascii "A"))} (ascii "to") :=
  ⟨ascii "toB", by decide +kernel, by decide⟩

/-- A byte that leaves every member is masked. -/
theorem name_ends_letter : atFront.allows 1 = false := by
  have hid : 1 < atFront.grammar.eosBit := by decide +kernel
  have hbytes : atFront.grammar.vocab.bytesOrEmpty 1 = ascii "x" := by decide +kernel
  have hadmits : atFront.pda.admits (ascii "x") = true := by decide +kernel
  have hphantom : ¬ BeginsName (legalNames .sample atFront.tracker.emittedColumns .afterDot
      (.member (ascii "A"))) (L2Position.member (ascii "A")).Ends (ascii "to" ++ ascii "x") :=
    not_beginsName (by decide +kernel)
  refine (name_ends (.compile frontVocab) .sample [.accept 0] rfl openName_atFront live_atFront hid
    hbytes hadmits hphantom).mpr (.inl ⟨by decide, ⟨120, [], rfl, by decide⟩, ?_⟩)
  rintro ⟨kind, names, hrule, ⟨a, b, r, hsplit, ha, _, hb, hends⟩ | ⟨hpos, _⟩⟩
  · exact hends hb
  · cases hpos

/-- The end of the call closes the unfinished member. -/
theorem front_closed : atFront.OpenName .sample (.member (ascii "A")) .afterDot (ascii "to") ∧
    atFront.grammar.vocab.bytes 2 = some (ascii ")") ∧ atFront.allows 2 = true ∧
    ¬ BeginsName (legalNames .sample atFront.tracker.emittedColumns .afterDot
      (.member (ascii "A"))) (L2Position.member (ascii "A")).Ends (ascii "to" ++ ascii ")") :=
  ⟨openName_atFront, by decide +kernel, by decide +kernel, not_beginsName (by decide +kernel)⟩

end Session

end PureCard
