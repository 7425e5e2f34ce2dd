/-
PureCard.OpeningTokens — the first token of a name.

At a member, source, relation column or column position with no lexeme
open, the mask should hold no token that begins a phantom name. The trie
rules look at a token from its first byte on, and only if that byte can
stand in a name (or opens a string), so a name behind blanks is not looked
at; and a finished name followed by any byte outside names passes, also by
a `:` that goes on with a classpath or a quote that goes on with a string.

`opening_precision` says exactly which phantoms are masked: those that
begin with the token and do not slip through in one of these ways.
-/
import PureCard.Lockstep
import PureCard.SchemaMask
import PureCard.Schema.TrieRules

namespace PureCard

open Completion ScopeTracker

/-! ## The names of a position -/

/-- What the trie of a rule holds, and which lexemes it governs. -/
def L2Position.rule (schema : Schema) (columns : List Bytes) :
    L2Position → Option (TrieKind × List Bytes)
  | .sourceIdent => some (.ident, schema.sourcePaths ++ [letKeyword])
  | .member cls => some (.ident, schema.memberNames cls)
  | .column => some (.str, columns.map quote)
  | .relationColumn => some (.ident, columns)
  | .none | .reValue _ => Option.none

section

variable {schema : Schema} {columns : List Bytes}

theorem rule_sourceIdent : L2Position.sourceIdent.rule schema columns =
    some (.ident, schema.sourcePaths ++ [letKeyword]) := rfl

theorem rule_member {cls : Bytes} : (L2Position.member cls).rule schema columns =
    some (.ident, schema.memberNames cls) := rfl

theorem rule_column : L2Position.column.rule schema columns =
    some (.str, columns.map quote) := rfl

theorem rule_relationColumn : L2Position.relationColumn.rule schema columns =
    some (.ident, columns) := rfl

end

theorem legalAt_rule {schema : Schema} {columns : List Bytes} {pos : L2Position}
    {kind : TrieKind} {names : List Bytes} (h : pos.rule schema columns = some (kind, names))
    (pfx bytes : Bytes) :
    legalAt schema pos pfx columns bytes = keepsFrom (.fromNames names) kind pfx bytes := by
  cases pos with
  | none => cases h
  | reValue tc => cases h
  | _ =>
    cases h
    rfl

/-- A rule keeps the first token of a lexeme if it is none of its
candidates, or is not off. -/
theorem keepsFrom_nil {names : List Bytes} {kind : TrieKind} {b : UInt8} {t : Bytes} :
    keepsFrom (.fromNames names) kind [] (b :: t) = true ↔
      isCandidate (b :: t) kind false = true → Live {n | n ∈ names} (b :: t) ∨
        ∃ a c r, b :: t = a ++ c :: r ∧ a ∈ names ∧ ¬ Live {n | n ∈ names} (a ++ [c]) ∧
          EndsIdent c := by
  rw [keepsFrom_iff, verdict_cons_ne_off_iff]
  simp

/-- The byte a name of the position begins with. -/
def L2Position.Opens : L2Position → UInt8 → Prop
  | .column, b => b = Byte.quote
  | _, b => isIdentStart b = true

theorem L2Position.Opens.ne_dot {pos : L2Position} {b : UInt8} (h : pos.Opens b) :
    b ≠ Byte.dot := by
  have hquote : Byte.dot ≠ Byte.quote := by decide
  have hstart : isIdentStart Byte.dot = false := by decide
  rintro rfl
  cases pos with
  | column => exact hquote h
  | _ =>
    have h' : isIdentStart Byte.dot = true := h
    rw [hstart] at h'
    cases h'

/-- The byte that ends a name of the position: a `:` goes on with a
classpath, a quote goes on with a string. -/
def L2Position.Ends : L2Position → UInt8 → Prop
  | .column, b => b ≠ Byte.quote
  | .sourceIdent, b => isIdentTail b = false ∧ b ≠ Byte.colon
  | _, b => isIdentTail b = false

/-- The legal names where the automaton is at `state`: `let` is one in a
block only. -/
def legalNames (schema : Schema) (columns : List Bytes) (state : State) : L2Position → List Bytes
  | .sourceIdent =>
    if state = .expectSource then schema.sourcePaths else schema.sourcePaths ++ [letKeyword]
  | .member cls => schema.memberNames cls
  | .column => columns.map quote
  | .relationColumn => columns
  | .none | .reValue _ => []

/-- The bytes are the front of a name, or a name and a byte that ends it. -/
def BeginsName (names : List Bytes) (ends : UInt8 → Prop) (w : Bytes) : Prop :=
  Live {n | n ∈ names} w ∨ ∃ a b r, w = a ++ b :: r ∧ a ∈ names ∧ ends b

/-- How a phantom at the front of a token passes its rule: a name is
followed by a byte that goes on with it, or the phantom is the keyword of a
block at the top. -/
def Slips (schema : Schema) (columns : List Bytes) (state : State) (pos : L2Position) (w : Bytes) :
    Prop :=
  ∃ kind names, pos.rule schema columns = some (kind, names) ∧
    ((∃ a b r, w = a ++ b :: r ∧ a ∈ names ∧ ¬ Live {n | n ∈ names} (a ++ [b]) ∧
        isIdentTail b = false ∧ ¬ pos.Ends b) ∨
      (pos = .sourceIdent ∧ state = .expectSource ∧
        (w <+: letKeyword ∨ ∃ b r, w = letKeyword ++ b :: r ∧
          ¬ Live {n | n ∈ names} (letKeyword ++ [b]) ∧ isIdentTail b = false)))

/-- **A phantom stays on the way to a name exactly when it slips.** -/
theorem phantom_ne_off_iff {schema : Schema} {columns : List Bytes} {state : State}
    {pos : L2Position} {kind : TrieKind} {names : List Bytes}
    (hrule : pos.rule schema columns = some (kind, names)) {b : UInt8} {t : Bytes}
    (hphantom : ¬ BeginsName (legalNames schema columns state pos) pos.Ends (b :: t)) :
    verdict {n | n ∈ names} EndsIdent [] (b :: t) ≠ .off ↔
      Slips schema columns state pos (b :: t) := by
  rw [verdict_cons_ne_off_iff]
  simp only [List.nil_append]
  -- a legal name would end the phantom
  have hends : ∀ a c r, b :: t = a ++ c :: r → a ∈ legalNames schema columns state pos →
      ¬ pos.Ends c := fun a c r hsplit ha hc => hphantom (.inr ⟨a, c, r, hsplit, ha, hc⟩)
  have hlive : ¬ Live {n | n ∈ legalNames schema columns state pos} (b :: t) := fun h =>
    hphantom (.inl h)
  -- the rule's names are the legal ones, and the keyword at the top
  have hnames : ∀ n ∈ names, n ∈ legalNames schema columns state pos ∨
      (pos = .sourceIdent ∧ state = .expectSource ∧ n = letKeyword) := by
    intro n hn
    cases pos with
    | none => cases hrule
    | reValue tc => cases hrule
    | sourceIdent =>
      cases hrule
      by_cases hs : state = .expectSource
      · rcases List.mem_append.mp hn with hn | hn
        · exact .inl (by rw [legalNames, if_pos hs]; exact hn)
        · exact .inr ⟨rfl, hs, List.mem_singleton.mp hn⟩
      · exact .inl (by rw [legalNames, if_neg hs]; exact hn)
    | _ =>
      cases hrule
      exact .inl hn
  constructor
  · intro h
    refine ⟨kind, names, hrule, ?_⟩
    rcases h with ⟨n, hn, hpre⟩ | ⟨a, c, r, hsplit, ha, hoff, hc⟩
    · rcases hnames n hn with hn | ⟨hpos, hs, rfl⟩
      · exact absurd ⟨n, hn, hpre⟩ hlive
      · exact .inr ⟨hpos, hs, .inl hpre⟩
    · rcases hnames a ha with hl | ⟨hpos, hs, rfl⟩
      · exact .inl ⟨a, c, r, hsplit, ha, hoff, hc, hends a c r hsplit hl⟩
      · exact .inr ⟨hpos, hs, .inr ⟨c, r, hsplit, hoff, hc⟩⟩
  · rintro ⟨kind', names', hrule', hslip⟩
    rw [hrule] at hrule'
    cases hrule'
    rcases hslip with ⟨a, c, r, hsplit, ha, hoff, hc, _⟩ | ⟨rfl, _, hkey⟩
    · exact .inr ⟨a, c, r, hsplit, ha, hoff, hc⟩
    · cases hrule
      have hmem : letKeyword ∈ schema.sourcePaths ++ [letKeyword] := by simp
      rcases hkey with hpre | ⟨c, r, hsplit, hoff, hc⟩
      · exact .inl ⟨letKeyword, hmem, hpre⟩
      · exact .inr ⟨letKeyword, c, r, hsplit, hmem, hoff, hc⟩

/-- **A phantom passes its rule exactly when it slips.** -/
theorem keeps_phantom_iff {schema : Schema} {columns : List Bytes} {state : State}
    {pos : L2Position} {kind : TrieKind} {names : List Bytes}
    (hrule : pos.rule schema columns = some (kind, names)) {b : UInt8} {t : Bytes}
    (hb : pos.Opens b)
    (hphantom : ¬ BeginsName (legalNames schema columns state pos) pos.Ends (b :: t)) :
    legalAt schema pos [] columns (b :: t) = true ↔ Slips schema columns state pos (b :: t) := by
  have hcand : isCandidate (b :: t) kind false = true := by
    cases pos with
    | none => cases hrule
    | reValue tc => cases hrule
    | column =>
      cases hrule
      have hquote : b = Byte.quote := hb
      simp [isCandidate, hquote]
    | _ =>
      cases hrule
      exact isIdentTail_of_start hb
  rw [legalAt_rule hrule, keepsFrom_iff, ← phantom_ne_off_iff hrule hphantom]
  simp [hcand]

/-- Behind blanks nothing is looked at. -/
theorem keeps_behind_ws {schema : Schema} {columns : List Bytes} {pos : L2Position}
    {kind : TrieKind} {names : List Bytes} (hrule : pos.rule schema columns = some (kind, names))
    {w : UInt8} (hw : isAsciiWhitespace w = true) (t : Bytes) :
    legalAt schema pos [] columns (w :: t) = true := by
  have hcand : isCandidate (w :: t) kind false = false := by
    have htail : isIdentTail w = false := by
      rw [Bool.eq_false_iff]
      intro h
      rw [isAsciiWhitespace_of_tail h] at hw
      cases hw
    have hquote : w ≠ Byte.quote := by
      rintro rfl
      revert hw
      decide
    cases kind with
    | ident => exact htail
    | str => simp [isCandidate, hquote]
  rw [legalAt_rule hrule, keepsFrom_nil]
  intro h
  rw [hcand] at h
  cases h

namespace Session

/-- A session after any run of calls. -/
theorem memoValid_runCalls (g : CompiledGrammar) (schema : Schema) (calls : List Call) :
    ((build g (some schema)).runCalls calls).1.MemoValid :=
  ((Beside.build g (some schema)).runCalls calls).2.memo

/-- **Which phantoms are masked.** At a member, source, relation column or
column position with no lexeme open, take a token the automaton admits
that begins, after any blanks, with a name that is no legal one of the
position. It is masked exactly when there are no blanks and the name does
not slip through. -/
theorem opening_precision (g : CompiledGrammar) (schema : Schema) (calls : List Call)
    {s : Session} (hs : s = ((build g (some schema)).runCalls calls).1)
    (hgap : s.pda.state.lexemeKind = none) {kind : TrieKind} {names : List Bytes}
    (hrule : (s.tracker.position s.pda.state).rule schema s.tracker.emittedColumns =
      some (kind, names)) {id : Nat} (hid : id < s.grammar.eosBit)
    (hadmits : s.pda.admits (s.grammar.vocab.bytesOrEmpty id) = true) {ws name : Bytes}
    (hbytes : s.grammar.vocab.bytesOrEmpty id = ws ++ name)
    (hws : ∀ b ∈ ws, isAsciiWhitespace b = true)
    (hname : ∃ b t, name = b :: t ∧ (s.tracker.position s.pda.state).Opens b)
    (hphantom : ¬ BeginsName
      (legalNames schema s.tracker.emittedColumns s.pda.state (s.tracker.position s.pda.state))
      (s.tracker.position s.pda.state).Ends name) :
    s.allows id = false ↔ ws = [] ∧ ¬ Slips schema s.tracker.emittedColumns s.pda.state
      (s.tracker.position s.pda.state) name := by
  have hmemo : s.MemoValid := hs ▸ memoValid_runCalls g schema calls
  have hafter : s.AfterTokens schema _ := hs ▸ (afterTokens_build g schema).runCalls calls
  have hpfx : s.tracker.narrowPrefix = [] := by
    rw [narrowPrefix, (inStep_of_drive hafter.driven).gap hgap]
  obtain ⟨b, t, rfl, hb⟩ := hname
  have hnot : isAsciiWhitespace Byte.dot = false := by decide
  -- the rule of a fused dot is not asked
  have hfused : fusedPostDot (ws ++ b :: t) = none := by
    have hdot : ∀ (x : UInt8) (u : Bytes), x ≠ Byte.dot → fusedPostDot (x :: u) = none := by
      intro x u hx
      cases u with
      | nil => rfl
      | cons y u => rw [fusedPostDot, if_neg (fun h => hx h.1)]
    cases ws with
    | cons w ws =>
      refine hdot _ _ ?_
      rintro rfl
      rw [hws Byte.dot List.mem_cons_self] at hnot
      cases hnot
    | nil => exact hdot _ _ hb.ne_dot
  have hlegal : s.legal (ws ++ b :: t) = legalAt schema (s.tracker.position s.pda.state) []
      s.tracker.emittedColumns (ws ++ b :: t) := by
    have hpass : ∀ pos, legalFused schema pos s.tracker.emittedColumns (ws ++ b :: t) = true := by
      intro pos
      cases pos <;> simp only [legalFused, keepsFused, hfused]
    simp only [legal, hafter.schema_eq, hpfx]
    cases s.tracker.fusedNavPosition schema with
    | none => simp
    | some pos => simp [hpass pos]
  have hallows : s.allows id = true ↔ legalAt schema (s.tracker.position s.pda.state) []
      s.tracker.emittedColumns (ws ++ b :: t) = true := by
    rw [allows_iff hmemo, hadmits, hbytes, hlegal]
    have hne : id ≠ s.grammar.eosBit := Nat.ne_of_lt hid
    simp [hid, hne]
  rw [← Bool.not_eq_true, hallows]
  cases ws with
  | cons w ws =>
    rw [List.cons_append, keeps_behind_ws hrule (hws w List.mem_cons_self)]
    simp
  | nil =>
    rw [List.nil_append, keeps_phantom_iff hrule hb hphantom]
    simp

/-! ### Two tokens -/

/-- A word no name goes on with and that goes on with no name. -/
theorem not_beginsName {names : List Bytes} {w : Bytes} {ends : UInt8 → Prop}
    (h : names.all (fun n => !w.isPrefixOf n && !n.isPrefixOf w) = true) :
    ¬ BeginsName names ends w := by
  have hall : ∀ n ∈ names, ¬ w <+: n ∧ ¬ n <+: w := by
    intro n hn
    have hn' := List.all_eq_true.mp h n hn
    simp only [Bool.and_eq_true, Bool.not_eq_true', ← Bool.not_eq_true, List.isPrefixOf_iff_prefix]
      at hn'
    exact hn'
  rintro (⟨n, hn, hpre⟩ | ⟨a, b, r, rfl, ha, _⟩)
  · exact (hall n hn).1 hpre
  · exact (hall a ha).2 (List.prefix_append a _)

/-- A stream up to a navigation dot, and a name no class has, bare and
behind a blank. -/
def phantomVocab : Vocab := ⟨[ascii "|A.all()->filter(x|$x.", ascii "zzz", ascii " zzz"], 3⟩

/-- The session at the dot. -/
def atDot : Session := ((build (.compile phantomVocab) (some .sample)).runCalls [.accept 0]).1

theorem atDot_position : atDot.tracker.position atDot.pda.state = .member (ascii "A") := by
  decide +kernel

theorem zzz_phantom : ¬ BeginsName (Schema.sample.memberNames (ascii "A"))
    (L2Position.member (ascii "A")).Ends (ascii "zzz") :=
  not_beginsName (by decide +kernel)

/-- Bare, the phantom is masked. -/
theorem opening_precision_bare : atDot.allows 1 = false := by
  have hgap : atDot.pda.state.lexemeKind = none := by decide +kernel
  have hid : 1 < atDot.grammar.eosBit := by decide +kernel
  have hadmits : atDot.pda.admits (atDot.grammar.vocab.bytesOrEmpty 1) = true := by decide +kernel
  have hbytes : atDot.grammar.vocab.bytesOrEmpty 1 = [] ++ ascii "zzz" := by decide +kernel
  have hrule : (atDot.tracker.position atDot.pda.state).rule .sample atDot.tracker.emittedColumns =
      some (.ident, Schema.sample.memberNames (ascii "A")) := by
    rw [atDot_position]
    rfl
  have hname : ∃ b t, ascii "zzz" = b :: t ∧
      (atDot.tracker.position atDot.pda.state).Opens b := by
    refine ⟨122, ascii "zz", by decide, ?_⟩
    rw [atDot_position]
    exact show isIdentStart 122 = true by decide
  have hphantom : ¬ BeginsName (legalNames .sample atDot.tracker.emittedColumns atDot.pda.state
      (atDot.tracker.position atDot.pda.state)) (atDot.tracker.position atDot.pda.state).Ends
      (ascii "zzz") := by
    rw [atDot_position]
    exact zzz_phantom
  have hslips : ¬ Slips .sample atDot.tracker.emittedColumns atDot.pda.state
      (atDot.tracker.position atDot.pda.state) (ascii "zzz") := by
    rw [atDot_position]
    rintro ⟨kind, names, hr, ⟨a, b, r, hsplit, ha, _, hb, hends⟩ | ⟨hpos, _⟩⟩
    · exact hends hb
    · cases hpos
  exact (opening_precision (.compile phantomVocab) .sample [.accept 0] rfl hgap hrule hid hadmits
    hbytes (fun b hb => by cases hb) hname hphantom).mpr ⟨rfl, hslips⟩

/-- Behind a blank it is not. -/
theorem phantom_behind_blank : atDot.allows 2 = true ∧
    atDot.tracker.position atDot.pda.state = .member (ascii "A") ∧
    atDot.grammar.vocab.bytes 2 = some (Byte.space :: ascii "zzz") ∧
    ¬ BeginsName (Schema.sample.memberNames (ascii "A")) (L2Position.member (ascii "A")).Ends
      (ascii "zzz") :=
  ⟨by decide +kernel, atDot_position, by decide +kernel, zzz_phantom⟩

end Session

end PureCard
