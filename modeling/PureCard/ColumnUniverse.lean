/-
PureCard.ColumnUniverse — the columns a stream names.

A relation column is named right after a `~`, or as a key directly inside
a `~[`. The tracker records the first kind always and the second only
where it knows that the bracket opened a column set, which it reads off
the anchor of the bracket's gap. A gap has one anchor, the state before
its first byte, so the bracket is taken for a column set's only where it
begins its token.

`columnSets` is the bracket's kind read off the text alone. `Marked` is
the invariant that ties it to the tracker, for streams that begin a token
at every column set's bracket, and `columns_on_record` what follows: every
column named in the text so far is on record and stays admissible.
-/
import PureCard.Lockstep
import PureCard.SchemaMask

namespace PureCard

open Pushdown Scopes Completion ScopeTracker

/-! ## The columns of a text -/

/-- For each open frame, innermost first, whether a `~[` opened it: what
the next byte does. -/
def setsStep (c : State × List Frame) (sets : List Bool) (b : UInt8) : List Bool :=
  match step c.1 c.2.head? b with
  | .push _ _ => decide (c.1 = .sawTilde) :: sets
  | .pop _ => sets.tail
  | .next _ | .dead => sets

def setsFrom (c : State × List Frame) (sets : List Bool) : Bytes → List Bool
  | [] => sets
  | b :: rest =>
    match Pushdown.advance step c b with
    | some d => setsFrom d (setsStep c sets b) rest
    | none => sets

/-- The open frames of a text that are column sets. -/
def columnSets (w : Bytes) : List Bool := setsFrom Pda.new.config [] w

theorem setsFrom_concat {c d : State × List Frame} {w : Bytes} (h : run step c w = some d)
    (sets : List Bool) (b : UInt8) {e : State × List Frame}
    (hb : Pushdown.advance step d b = some e) :
    setsFrom c sets (w ++ [b]) = setsStep d (setsFrom c sets w) b := by
  induction w generalizing c sets with
  | nil =>
    cases h
    simp only [List.nil_append, setsFrom, hb]
  | cons a w ih =>
    rw [run_cons] at h
    obtain ⟨c', hc', hrest⟩ := Option.bind_eq_some_iff.mp h
    simp only [List.cons_append, setsFrom, hc']
    exact ih hrest _

theorem columnSets_concat {w : Bytes} {c d : State × List Frame} {b : UInt8}
    (hw : run step Pda.new.config w = some c) (hb : Pushdown.advance step c b = some d) :
    columnSets (w ++ [b]) = setsStep c (columnSets w) b :=
  setsFrom_concat hw [] b hb

/-- A column name may begin after the text: right after a `~`, or where a
value begins directly inside a column set. -/
def NamesColumn (u : Bytes) : Prop :=
  ∃ c, run step Pda.new.config u = some c ∧
    (c.1 = .sawTilde ∨ c.1 ∈ valueStates ∧ (columnSets u).head? = some true)

/-- `x` is a lexeme that opens after `u` and that `b` closes. -/
structure ClosedLexeme (k : LexKind) (u x : Bytes) (b : UInt8) : Prop where
  opened : Opened k u x
  ended : ∃ c, run step Pda.new.config (u ++ x ++ [b]) = some c ∧ c.1.lexemeKind ≠ some k

/-- The text names the column: bare, or as a quoted string. -/
inductive Introduces (w name : Bytes) : Prop where
  | bare (u : Bytes) (b : UInt8) (v : Bytes) (hw : w = u ++ name ++ [b] ++ v)
      (hplace : NamesColumn u) (hident : IsIdent name) (hclosed : ClosedLexeme .ident u name b)
  | quoted (u : Bytes) (b : UInt8) (v : Bytes) (hw : w = u ++ quote name ++ [b] ++ v)
      (hplace : NamesColumn u) (hclosed : ClosedLexeme .str u (quote name) b)

/-- Every `[` right after a `~` begins its token. -/
def BracketsBeginTokens (toks : List Bytes) : Prop :=
  ∀ front u v back, toks = front ++ (u ++ Byte.lbracket :: v) :: back → u ≠ [] →
    ∀ c, run step Pda.new.config (front.flatten ++ u) = some c → c.1 ≠ .sawTilde

/-! ## Cuts before column sets -/

/-- A cut stands before every `[` of a column set. -/
def SetsCut (syms : List Sym) : Prop :=
  ∀ xs ys st, syms = xs ++ .byte Byte.lbracket :: ys →
    run step Pda.new.config (symBytes xs) = some (.sawTilde, st) → ∃ zs, xs = zs ++ [.cut]

theorem SetsCut.of_append {xs ys : List Sym} (h : SetsCut (xs ++ ys)) : SetsCut xs := by
  intro as bs st has hrun
  refine h as (bs ++ ys) st ?_ hrun
  rw [has, List.append_assoc, List.cons_append]

theorem setsCut_symbols {toks : List Bytes} (h : BracketsBeginTokens toks) :
    SetsCut (symbols toks) := by
  intro xs ys st hxs hrun
  obtain ⟨front, u, v, back, htoks, rfl⟩ := symbols_eq_byte hxs
  by_cases hu : u = []
  · subst hu
    rcases List.eq_nil_or_concat front with rfl | ⟨front, tok, rfl⟩
    · cases hrun
    · refine ⟨symbols front ++ tok.map .byte, ?_⟩
      simp [symbols]
  · rw [symBytes_append, symBytes_symbols, symBytes_map] at hrun
    exact absurd rfl (h front u v back htoks hu _ hrun)

/-! ## The tracker's flags -/

namespace ScopeTracker

/-- **What a piece does to the flags of the open delimiters.** -/
theorem tildeOpen_dispatchToken (t : ScopeTracker) (bytes : Bytes) (preState : State)
    (schema : Schema) : (t.dispatchToken bytes preState schema).tildeOpen =
      match (classify bytes).nesting with
      | .opens => decide (preState = .sawTilde) :: t.tildeOpen
      | .closes => t.tildeOpen.tail
      | .flat => t.tildeOpen := by
  by_cases hws : classify bytes = .ws
  · rw [dispatchToken_ws hws, hws]
    rfl
  · rw [dispatchToken_eq rfl hws]
    change (t.dispatchLexeme (classify bytes) preState schema).1.tildeOpen = _
    cases hlex : classify bytes with
    | ident text =>
      have hbind := ((t.sawClass text schema).recorded_bindIdent text preState schema).2
      change (t.onIdent text preState schema).1.tildeOpen = t.tildeOpen
      rw [onIdent_eq]
      exact hbind
    | pipe =>
      change (t.onPipe preState).tildeOpen = t.tildeOpen
      unfold onPipe bindLambda
      dsimp only
      repeat' split
      all_goals rfl
    | «open» =>
      change (t.onOpen preState).tildeOpen = decide (preState = .sawTilde) :: t.tildeOpen
      unfold onOpen openMethod
      dsimp only
      repeat' split
      all_goals rfl
    | close =>
      change t.onClose.tildeOpen = t.tildeOpen.tail
      rw [onClose_eq, restoreScopes_eq, restoreBinders_eq]
    | dot =>
      change t.onDot.tildeOpen = t.tildeOpen
      unfold onDot
      dsimp only
      repeat' split
      all_goals rfl
    | cmp =>
      change (t.dispatchLexeme .cmp preState schema).1.tildeOpen = t.tildeOpen
      rw [dispatchLexeme]
      cases t.lastResolved <;> rfl
    | _ => rfl

theorem tildeOpen_dispatch_concat (t : ScopeTracker) (ps : List Piece) (p : Piece)
    (schema : Schema) : (t.dispatchAll (ps ++ [p]) schema).tildeOpen =
      match p.nesting with
      | .opens => decide (p.anchor = .sawTilde) :: (t.dispatchAll ps schema).tildeOpen
      | .closes => (t.dispatchAll ps schema).tildeOpen.tail
      | .flat => (t.dispatchAll ps schema).tildeOpen := by
  rw [dispatchAll_append]
  exact (t.dispatchAll ps schema).tildeOpen_dispatchToken p.text p.anchor schema

end ScopeTracker

/-! ## One byte -/

/-- What a byte does to the sets, by what it does to the stack. -/
theorem setsStep_eq {s : State} {st : List Frame} {b : UInt8} {c : State × List Frame}
    (h : Pushdown.advance step (s, st) b = some c) (sets : List Bool) :
    (c.2 = st → setsStep (s, st) sets b = sets) ∧
      (∀ f, c.2 = f :: st → setsStep (s, st) sets b = decide (s = .sawTilde) :: sets) ∧
      (∀ f, st = f :: c.2 → setsStep (s, st) sets b = sets.tail) := by
  unfold Pushdown.advance at h
  unfold setsStep
  have hself : ∀ (f : Frame) (st : List Frame), f :: st ≠ st := fun f st => List.cons_ne_self f st
  cases hm : step s st.head? b with
  | next s' =>
    rw [hm] at h
    cases h
    exact ⟨fun _ => rfl, fun f hf => absurd hf.symm (hself f st), fun f hf => absurd hf.symm (hself f st)⟩
  | push g s' =>
    rw [hm] at h
    cases h
    refine ⟨fun hst => absurd hst (hself g st), fun f _ => rfl, fun f hf => ?_⟩
    have hlen := congrArg List.length hf
    simp at hlen
    omega
  | pop s' =>
    rw [hm] at h
    cases h
    refine ⟨fun hst => ?_, fun f hf => ?_, fun f _ => rfl⟩
    · cases st with
      | nil => exact absurd hm (step_framed.pop_top s b s')
      | cons g st => exact absurd hst.symm (hself g st)
    · have hlen := congrArg List.length hf
      simp at hlen
  | dead =>
    rw [hm] at h
    cases h

/-- A column set's bracket is the only delimiter that opens at `~`. -/
theorem eq_lbracket_of_tilde {st : List Frame} {b : UInt8} {c : State × List Frame}
    (h : Pushdown.advance step (.sawTilde, st) b = some c) {f : Frame} (hc : c.2 = f :: st) :
    b = Byte.lbracket := by
  by_contra hb
  simp only [Pushdown.advance, step, if_neg hb] at h
  split at h
  · cases h
    exact List.cons_ne_self f st hc.symm
  · split at h
    · cases h
      exact List.cons_ne_self f st hc.symm
    · cases h

/-- Two last pieces that leave the same depth nest alike. -/
theorem nesting_eq_of_level {front : List Piece} {p q : Piece} {n : Nat}
    (hp : level Piece.nesting 0 (front ++ [p]) = some n)
    (hq : level Piece.nesting 0 (front ++ [q]) = some n) : p.nesting = q.nesting := by
  rw [level_append] at hp hq
  obtain ⟨m, hm, hp⟩ := Option.bind_eq_some_iff.mp hp
  rw [hm, Option.bind_some] at hq
  have hlast : ∀ r : Piece, level Piece.nesting m [r] = some n →
      (r.nesting = .opens ∧ n = m + 1) ∨ (r.nesting = .closes ∧ m = n + 1) ∨
        (r.nesting = .flat ∧ n = m) := by
    intro r hr
    cases hnest : r.nesting with
    | opens =>
      rw [level_opens hnest] at hr
      cases hr
      exact .inl ⟨rfl, rfl⟩
    | flat =>
      rw [level_flat hnest] at hr
      cases hr
      exact .inr (.inr ⟨rfl, rfl⟩)
    | closes =>
      cases m with
      | zero =>
        rw [level_closes_zero hnest] at hr
        cases hr
      | succ m =>
        rw [level_closes hnest] at hr
        cases hr
        exact .inr (.inl ⟨rfl, rfl⟩)
  rcases hlast p hp with ⟨hp, hn⟩ | ⟨hp, hn⟩ | ⟨hp, hn⟩ <;>
    rcases hlast q hq with ⟨hq, hn'⟩ | ⟨hq, hn'⟩ | ⟨hq, hn'⟩ <;>
    first | omega | rw [hp, hq]

theorem solo_of_delimiter {b : UInt8} (h : b ∈ delimiters) : Reader.Solo b := by
  have hall : delimiters.all (fun c => decide (Reader.Solo c)) = true := by decide +kernel
  simpa using List.all_eq_true.mp hall b h

theorem mem_delimiters {b : UInt8} (h : byteNesting b ≠ .flat) : b ∈ delimiters := by
  by_contra hb
  exact h (byteNesting_of_not_mem hb)

/-- Every column set of the text is flagged. -/
def Flagged (sets flags : List Bool) : Prop :=
  List.Forall₂ (fun a b => a = true → b = true) sets flags

theorem Flagged.head {sets flags : List Bool} (h : Flagged sets flags)
    (hsets : sets.head? = some true) : flags.head? = some true := by
  cases h with
  | nil => cases hsets
  | cons hab _ =>
    rw [List.head?_cons, Option.some.injEq] at hsets ⊢
    exact hab hsets

theorem Flagged.tail {sets flags : List Bool} (h : Flagged sets flags) :
    Flagged sets.tail flags.tail := by
  cases h with
  | nil => exact .nil
  | cons _ h => exact h

/-- The flags after one more byte. A column set's bracket must find the
gap anchored at the `~`. -/
theorem flagged_byte {schema : Schema} {sets : List Bool} {r : Reader} {n n' : Nat} {b : UInt8}
    {c : State × List Frame}
    (hadv : Pushdown.advance step (r.lexer.state, r.lexer.stack) b = some c)
    (hnested : Nested r n) (hnested' : Nested (r.byte b c) n')
    (hanchor : b = Byte.lbracket → r.lexer.state = .sawTilde → r.lexer.anchor = .sawTilde)
    (h : Flagged sets (new.dispatchAll r.all schema).tildeOpen) :
    Flagged (setsStep (r.lexer.state, r.lexer.stack) sets b)
      (new.dispatchAll (r.byte b c).all schema).tildeOpen := by
  obtain ⟨hsame, hpush, hpop⟩ := setsStep_eq hadv sets
  have hlevel := hnested.all
  have hlevel' := hnested'.all
  have hstack : (r.byte b c).lexer.stack = c.2 := Lexer.stack_read ..
  rw [hstack] at hlevel'
  have hstay : c.2 = r.lexer.stack → (byteNesting b = .flat ∨ r.lexer.state.lexemeKind ≠ none ∧
      r.lexer.state.lexemeKind = c.1.lexemeKind) →
      (new.dispatchAll (r.byte b c).all schema).tildeOpen =
        (new.dispatchAll r.all schema).tildeOpen := by
    intro hst hb
    have hgrew := r.all_byte b c
    rw [hst] at hlevel'
    generalize (r.byte b c).all = after at hgrew hlevel' ⊢
    cases hgrew with
    | drop _ _ => rfl
    | next a ha _ =>
      have hflat : byteNesting b = .flat := by
        rcases hb with hb | ⟨hne, heq⟩
        · exact hb
        · rcases ha with ⟨hkinds, _⟩ | ⟨hnone, _⟩
          · exact absurd heq hkinds
          · exact absurd hnone hne
      have hnest : (⟨[b], a⟩ : Piece).nesting = .flat := (nesting_singleton b).trans hflat
      rw [tildeOpen_dispatch_concat, hnest]
    | more front p hall _ =>
      rw [hall] at hlevel ⊢
      rw [tildeOpen_dispatch_concat, tildeOpen_dispatch_concat, nesting_eq_of_level hlevel hlevel']
  cases nestStep hadv with
  | str hs hc hst =>
    rw [hsame hst, hstay hst (.inr ⟨by simp [hs], hs.trans hc.symm⟩)]
    exact h
  | flat hb hst =>
    rw [hsame hst, hstay hst (.inl hb)]
    exact h
  | opens hb hc f hst =>
    have hne : byteNesting b ≠ .flat := by simp [hb]
    have hsolo := solo_of_delimiter (mem_delimiters hne)
    obtain ⟨a, ha, hall⟩ := Reader.all_byte_solo hsolo r hc
    have hnest : (⟨[b], a⟩ : Piece).nesting = .opens := (nesting_singleton b).trans hb
    rw [hpush f hst, hall, tildeOpen_dispatch_concat, hnest]
    refine .cons (fun hs => ?_) h
    rw [decide_eq_true_eq] at hs ⊢
    rcases ha with ⟨_, rfl⟩ | ⟨_, _, rfl⟩
    · exact hs
    · rw [hs] at hadv
      exact hanchor (eq_lbracket_of_tilde hadv hst) hs
  | closes hb hc f hst =>
    have hne : byteNesting b ≠ .flat := by simp [hb]
    have hsolo := solo_of_delimiter (mem_delimiters hne)
    obtain ⟨a, -, hall⟩ := Reader.all_byte_solo hsolo r hc
    have hnest : (⟨[b], a⟩ : Piece).nesting = .closes := (nesting_singleton b).trans hb
    rw [hpop f hst, hall, tildeOpen_dispatch_concat, hnest]
    exact h.tail

/-! ## Names as lexemes -/

theorem undouble_double (name : Bytes) :
    undouble (name.flatMap fun b => if b = Byte.quote then [Byte.quote, b] else [b]) = name := by
  induction name with
  | nil => rfl
  | cons b rest ih =>
    rw [List.flatMap_cons]
    by_cases hb : b = Byte.quote
    · rw [if_pos hb, hb, List.cons_append, List.cons_append, List.nil_append, undouble,
        if_pos ⟨rfl, rfl⟩, ih]
    · rw [if_neg hb, List.singleton_append]
      generalize (rest.flatMap fun b => if b = Byte.quote then [Byte.quote, b] else [b]) = tail
        at ih ⊢
      cases tail with
      | nil => simpa [undouble] using ih
      | cons c tail => simpa [undouble, hb] using ih

/-- **Quoting round trip.** -/
theorem unquote_quote (name : Bytes) : unquote (quote name) = name := by
  have hstrip : stripQuotes (quote name) =
      name.flatMap fun b => if b = Byte.quote then [Byte.quote, b] else [b] := by
    simp only [quote, stripQuotes, List.cons_append]
    rw [if_pos ⟨trivial, List.getLast?_concat⟩, List.dropLast_concat]
  rw [unquote, hstrip, undouble_double]

theorem classify_quote (name : Bytes) : classify (quote name) = .str name := by
  have hlex : ∀ u, u ≠ [] → classify (Byte.quote :: u) = .str (unquote (Byte.quote :: u)) := by
    intro u hu
    rcases classify_shape (Byte.quote :: u) with ⟨hws, _⟩ | ⟨b, v, hcons, hmem, _⟩ |
      ⟨b, hcons, _, _⟩ | ⟨b, v, hcons, hfirst⟩
    · simp [isAsciiWhitespace] at hws
    · obtain ⟨rfl, -⟩ := List.cons.inj hcons
      simp at hmem
    · exact absurd (List.cons.inj hcons).2 hu
    · obtain ⟨rfl, rfl⟩ := List.cons.inj hcons
      rw [hfirst, classifyFirst, if_pos rfl]
  have hquote := hlex ((name.flatMap fun b => if b = Byte.quote then [Byte.quote, b] else [b]) ++
    [Byte.quote]) (by simp)
  have heq : quote name = Byte.quote :: ((name.flatMap fun b =>
    if b = Byte.quote then [Byte.quote, b] else [b]) ++ [Byte.quote]) := rfl
  rw [← heq, unquote_quote] at hquote
  exact hquote

theorem IsIdent.isUtf8 {name : Bytes} (h : IsIdent name) : PureCard.isUtf8 name = true := by
  obtain ⟨b, u, rfl, hb, hu⟩ := h
  have hascii : ∀ c, isIdentTail c = true → c < 128 := by
    intro c hc
    grind [isIdentTail, isAsciiAlphanumeric, isAsciiAlphabetic, isAsciiLowercase, isAsciiDigit]
  refine isUtf8_of_ascii fun c hc => hascii c ?_
  rcases List.mem_cons.mp hc with rfl | hc
  · exact isIdentTail_of_start hb
  · exact hu c hc

theorem IsIdent.classify_eq {name : Bytes} (h : IsIdent name) : classify name = .ident name := by
  have hutf := h.isUtf8
  obtain ⟨b, u, rfl, hb, _⟩ := h
  exact classify_of_identStart hb hutf

/-- A lexeme opens at one place. -/
theorem Opened.unique {k : LexKind} {u u' x x' : Bytes} (h : Opened k u x) (h' : Opened k u' x')
    (heq : u ++ x = u' ++ x') : u = u' ∧ x = x' := by
  have hnot : ∀ {u u' x x' a : Bytes}, Opened k u x → Opened k u' x' → u' = u ++ a →
      x = a ++ x' → a = [] := by
    intro u u' x x' a h h' hu hx
    by_contra ha
    obtain ⟨c, hc, hk⟩ := h'.before
    obtain ⟨d, hd, hk'⟩ := h.inside a x' hx ha
    rw [hu, hd] at hc
    cases hc
    exact hk hk'
  rcases List.append_eq_append_iff.mp heq with ⟨a, hu, hx⟩ | ⟨a, hu, hx⟩
  · have ha := hnot h h' hu hx
    subst ha
    exact ⟨(by simpa using hu.symm), by simpa using hx⟩
  · have ha := hnot h' h hu hx
    subst ha
    exact ⟨(by simpa using hu), by simpa using hx.symm⟩

/-! ## The invariant -/

/-- The reader of a text, and the tracker it drives: the open lexeme
knows where it opened, the column sets are flagged, and every column named
by a closed lexeme is on record. -/
structure Marked (schema : Schema) (w : Bytes) (r : Reader) : Prop where
  traced : Traced w r
  nested : ∃ n, Nested r n
  lexeme : r.lexer.state.lexemeKind ≠ none → ∀ u, w = u ++ r.lexer.seg →
    (∃ st, run step Pda.new.config u = some (r.lexer.anchor, st)) ∧ columnSets u = columnSets w
  flags : Flagged (columnSets w) (new.dispatchAll r.all schema).tildeOpen
  recorded : ∀ name, Introduces w name → name ∈ (new.dispatchAll r.done schema).emittedStrings

theorem marked_start (schema : Schema) : Marked schema [] Reader.start := by
  refine ⟨traced_start, ⟨0, rfl, fun _ => rfl, fun hne => absurd rfl hne⟩, fun h => absurd rfl h,
    .nil, ?_⟩
  intro name h
  cases h with
  | bare u b v hw _ _ _ => simp at hw
  | quoted u b v hw _ _ => simp at hw

/-- A text that goes on names the columns it named, and one that its last
byte closes. -/
theorem introduces_concat {w name : Bytes} {b : UInt8} (h : Introduces (w ++ [b]) name) :
    Introduces w name ∨ ∃ k u x, w = u ++ x ∧ ClosedLexeme k u x b ∧ NamesColumn u ∧
      (k = .ident ∧ x = name ∧ IsIdent name ∨ k = .str ∧ x = quote name) := by
  have hsplit : ∀ {y : Bytes} {c : UInt8} {v : Bytes}, w ++ [b] = y ++ [c] ++ v →
      (w = y ∧ b = c) ∨ ∃ v', v = v' ++ [b] ∧ w = y ++ [c] ++ v' := by
    intro y c v hw
    rcases List.eq_nil_or_concat v with rfl | ⟨v', d, rfl⟩
    · rw [List.append_nil] at hw
      obtain ⟨hwy, hbc⟩ := List.append_inj' hw rfl
      exact .inl ⟨hwy, (List.cons.inj hbc).1⟩
    · rw [List.concat_eq_append, ← List.append_assoc] at hw
      obtain ⟨hwy, hbd⟩ := List.append_inj' hw rfl
      have hd : b = d := (List.cons.inj hbd).1
      exact .inr ⟨v', by rw [hd, List.concat_eq_append], hwy⟩
  cases h with
  | bare u c v hw hplace hident hclosed =>
    rcases hsplit hw with ⟨hwy, rfl⟩ | ⟨v', -, hwy⟩
    · exact .inr ⟨.ident, u, name, hwy, hclosed, hplace, .inl ⟨rfl, rfl, hident⟩⟩
    · exact .inl (.bare u c v' hwy hplace hident hclosed)
  | quoted u c v hw hplace hclosed =>
    rcases hsplit hw with ⟨hwy, rfl⟩ | ⟨v', -, hwy⟩
    · exact .inr ⟨.str, u, quote name, hwy, hclosed, hplace, .inr ⟨rfl, rfl⟩⟩
    · exact .inl (.quoted u c v' hwy hplace hclosed)

/-- A column name goes on record when its lexeme closes. -/
theorem Marked.record {schema : Schema} {w : Bytes} {r : Reader} (h : Marked schema w r)
    {k : LexKind} {u x name : Bytes} {b : UInt8} (hw : w = u ++ x) (hclosed : ClosedLexeme k u x b)
    (hplace : NamesColumn u)
    (hname : k = .ident ∧ x = name ∧ IsIdent name ∨ k = .str ∧ x = quote name) :
    name ∈ (new.dispatchAll r.all schema).emittedStrings := by
  obtain ⟨c, hc, hkc⟩ := hclosed.opened.inside x [] (by simp) hclosed.opened.nonempty
  have hconfig := h.traced.config
  rw [hw, hc] at hconfig
  cases hconfig
  have hkind : r.lexer.state.lexemeKind = some k := hkc
  -- the reader's segment is the lexeme
  obtain ⟨u', hwu, hopened⟩ := h.traced.opened k hkind
  obtain ⟨rfl, hx⟩ := hclosed.opened.unique hopened (hw.symm.trans hwu)
  obtain ⟨⟨st, hanchor⟩, hsets⟩ := h.lexeme (by simp [hkind]) u hwu
  have hall : r.all = r.done ++ [⟨x, r.lexer.anchor⟩] := by
    rw [Reader.all, Reader.pieces_lexeme (by simp [hkind]), hx]
  have hflat : (⟨x, r.lexer.anchor⟩ : Piece).nesting = .flat := by
    rw [Piece.nesting, Piece.lexeme]
    rcases hname with ⟨-, rfl, hident⟩ | ⟨-, rfl⟩
    · rw [hident.classify_eq]
      rfl
    · rw [classify_quote]
      rfl
  have hflags := h.flags
  rw [hall, tildeOpen_dispatch_concat, hflat, ← hsets] at hflags
  have hrecords : (new.dispatchAll r.done schema).recordsColumn r.lexer.anchor = true := by
    obtain ⟨d, hd, hplace⟩ := hplace
    rw [hanchor] at hd
    cases hd
    rcases hplace with htilde | ⟨hvalue, hhead⟩
    · have htilde : r.lexer.anchor = .sawTilde := htilde
      simp [recordsColumn, htilde]
    · have hopen := hflags.head hhead
      simp only [valueStates, List.mem_cons, List.not_mem_nil, or_false] at hvalue
      simpa [recordsColumn, hopen] using .inr hvalue
  rw [hall, dispatchAll_append]
  change name ∈ ((new.dispatchAll r.done schema).dispatchToken x r.lexer.anchor
    schema).emittedStrings
  rw [emitted_dispatchToken]
  refine List.mem_append_right _ ?_
  rcases hname with ⟨-, rfl, hident⟩ | ⟨-, rfl⟩
  · rw [hident.classify_eq, columnsOf, if_pos hrecords]
    exact List.mem_singleton.mpr rfl
  · rw [classify_quote, columnsOf]
    exact List.mem_singleton.mpr rfl

theorem Marked.byte {schema : Schema} {w : Bytes} {r : Reader} (h : Marked schema w r) {b : UInt8}
    {c : State × List Frame}
    (hadv : Pushdown.advance step (r.lexer.state, r.lexer.stack) b = some c)
    (hanchor : b = Byte.lbracket → r.lexer.state = .sawTilde → r.lexer.anchor = .sawTilde) :
    Marked schema (w ++ [b]) (r.byte b c) := by
  obtain ⟨n, hn⟩ := h.nested
  obtain ⟨m, hm⟩ := hn.byte hadv
  have hsets := columnSets_concat h.traced.config hadv
  refine ⟨h.traced.byte hadv, ⟨m, hm⟩, ?_, ?_, ?_⟩
  · intro hopen u hu
    have hopen' : c.1.lexemeKind ≠ none := by simpa [Reader.byte] using hopen
    have hstack := stack_eq_of_lexeme (nestStep hadv) hopen'
    rw [hsets, (setsStep_eq hadv (columnSets w)).1 hstack]
    by_cases hkind : r.lexer.state.lexemeKind = c.1.lexemeKind
    · rw [Reader.byte_same b hkind] at hu ⊢
      dsimp only at hu ⊢
      rw [← List.append_assoc] at hu
      exact h.lexeme (by rwa [hkind]) u (List.append_inj' hu rfl).1
    · rw [Reader.byte_other b hkind] at hu ⊢
      obtain rfl : w = u := (List.append_inj' hu rfl).1
      exact ⟨⟨_, h.traced.config⟩, rfl⟩
  · rw [hsets]
    exact flagged_byte hadv hn hm hanchor h.flags
  · intro name hname
    have hdone : (new.dispatchAll r.done schema).emittedStrings <+:
        (new.dispatchAll (r.byte b c).done schema).emittedStrings := by
      rw [Reader.byte, dispatchAll_append]
      exact emitted_prefix_dispatchAll ..
    rcases introduces_concat hname with hold | ⟨k, u, x, hw, hclosed, hplace, hshape⟩
    · exact hdone.subset (h.recorded name hold)
    · -- the lexeme that `b` closes has just been completed
      obtain ⟨d, hd, hkd⟩ := hclosed.opened.inside x [] (by simp) hclosed.opened.nonempty
      obtain ⟨e, he, hke⟩ := hclosed.ended
      have hconfig := h.traced.config
      rw [hw, hd] at hconfig
      cases hconfig
      rw [← hw, run_concat, h.traced.config, Option.bind_some, hadv] at he
      cases he
      have hdiff : r.lexer.state.lexemeKind ≠ c.1.lexemeKind := by
        intro heq
        exact hke (heq.symm.trans hkd)
      rw [Reader.byte_other b hdiff]
      exact h.record hw hclosed hplace hshape

theorem Marked.cut {schema : Schema} {w : Bytes} {r : Reader} (h : Marked schema w r) :
    Marked schema w r.cut := by
  obtain ⟨n, hn⟩ := h.nested
  refine ⟨h.traced.cut, hn.cut, ?_, by rw [Reader.all_cut]; exact h.flags, ?_⟩
  · intro hopen u hu
    cases hk : r.lexer.state.lexemeKind with
    | none => exact absurd ((congrArg State.lexemeKind r.lexer.state_cut).trans hk) hopen
    | some k =>
      rw [Reader.cut_lexeme hk] at hopen hu ⊢
      exact h.lexeme hopen u hu
  · intro name hname
    have hdone : (new.dispatchAll r.done schema).emittedStrings <+:
        (new.dispatchAll r.cut.done schema).emittedStrings := by
      rw [Reader.cut, dispatchAll_append]
      exact emitted_prefix_dispatchAll ..
    exact hdone.subset (h.recorded name hname)

/-- **The invariant holds** of every stream that begins a token at each
column set's bracket. -/
theorem marked_read (schema : Schema) {syms : List Sym} (hsyms : SetsCut syms) {r : Reader}
    (h : Reader.start.read syms = some r) : Marked schema (symBytes syms) r := by
  have hinv := Reader.read_induction (I := fun syms r =>
      (∀ xs, syms = xs ++ [.cut] → r.lexer.Settled) ∧
        (SetsCut syms → Marked schema (symBytes syms) r))
    ⟨fun xs hxs => by simp at hxs, fun _ => marked_start schema⟩ ?_ ?_ h
  · exact hinv.2 hsyms
  · rintro syms r b c ⟨hsettled, hmarked⟩ hadv
    refine ⟨fun xs hxs => ?_, fun hcut => ?_⟩
    · have hlast := (List.append_inj' hxs rfl).2
      simp at hlast
    · have hbefore := hmarked hcut.of_append
      rw [symBytes_append]
      refine hbefore.byte hadv ?_
      rintro rfl htilde
      have hconfig := hbefore.traced.config
      rw [htilde] at hconfig
      obtain ⟨zs, hzs⟩ := hcut syms [] r.lexer.stack rfl hconfig
      have hkind : r.lexer.state.lexemeKind = none := by
        rw [htilde]
        rfl
      exact (hsettled zs hzs hkind).2.trans htilde
  · rintro syms r ⟨-, hmarked⟩
    refine ⟨fun xs hxs => Lexer.settled_cut _, fun hcut => ?_⟩
    rw [symBytes_append]
    have hsame := (hmarked hcut.of_append).cut
    simpa [symBytes] using hsame

/-! ## Admissible names -/

/-- A walk along the front of a name does not diverge. -/
theorem walk_ne_diverge {names : List Bytes} {pfx bytes : Bytes} {cursor : Nat}
    (hcursor : (Trie.fromNames names).follow pfx = some cursor)
    (h : Live {n | n ∈ names} (pfx ++ bytes)) :
    walk (.fromNames names) cursor bytes ≠ .diverge := by
  intro hdiverge
  have hverdict := walk_eq_verdict hcursor bytes
  rw [hdiverge] at hverdict
  exact (verdict_ne_off_iff h.of_append).mpr (.inl h) hverdict.symm

theorem keepsFrom_of_live {names : List Bytes} {kind : TrieKind} {pfx bytes : Bytes}
    (h : Live {n | n ∈ names} (pfx ++ bytes)) :
    keepsFrom (.fromNames names) kind pfx bytes = true := by
  unfold keepsFrom
  split
  · rename_i cursor hstay
    have hcursor := follow_of_walk_stay (follow_root _) hstay
    rw [List.nil_append] at hcursor
    unfold keepsTrie
    split
    · simpa using walk_ne_diverge hcursor h
    · rfl
  all_goals rfl

theorem keepsFused_of_live {names : List Bytes} {bytes : Bytes}
    (h : Live {n | n ∈ names} bytes) :
    keepsFused (.fromNames names) (Byte.dot :: bytes) = true := by
  unfold keepsFused
  cases hpost : fusedPostDot (Byte.dot :: bytes) with
  | none => rfl
  | some rest =>
    have hrest : rest = bytes := by
      unfold fusedPostDot at hpost
      split at hpost
      · split at hpost
        · rename_i heq _
          cases hpost
          exact (List.cons.inj heq).2.symm
        · cases hpost
      · cases hpost
    rw [hrest]
    simpa using walk_ne_diverge (follow_root _) h

/-! ## The columns on record -/

/-- **Every column the text names is on record**, in every stream that
begins a token at the bracket of each column set, and stays there. At a
relation column position the name and its fronts are kept. -/
theorem columns_on_record {schema : Schema} {toks more : List Bytes} {p : Pda} {t : ScopeTracker}
    (h : drive schema freshStart (toks ++ more) = some (p, t)) (hcut : BracketsBeginTokens toks)
    {name : Bytes} (hname : Introduces toks.flatten name) :
    name ∈ t.emittedColumns ∧
      (t.position p.state = .relationColumn → ∀ u, t.narrowPrefix ++ u <+: name →
        legalAt schema (t.position p.state) t.narrowPrefix t.emittedColumns u = true) ∧
      (t.fusedNavPosition schema = some .relationColumn → ∀ u, u <+: name →
        legalFused schema .relationColumn t.emittedColumns (Byte.dot :: u) = true) := by
  have hmem : name ∈ t.emittedColumns := by
    rw [drive_append] at h
    obtain ⟨⟨p₀, t₀⟩, hfront, hmore⟩ := Option.bind_eq_some_iff.mp h
    obtain ⟨l, ps, htoks, hsettled, rfl, rfl⟩ := pieces_of_drive hfront
    have hmarked := marked_read schema (setsCut_symbols hcut) (Reader.read_of_tokens htoks)
    rw [symBytes_symbols] at hmarked
    have hold : name ∈ (new.dispatchAll ps schema).emittedStrings := hmarked.recorded name hname
    obtain ⟨l', qs, -, hend⟩ := tokens_of_drive (pending_new ps schema) hsettled hmore
    rw [Prod.mk.injEq] at hend
    rw [hend.2]
    exact (emitted_prefix_dispatchAll _ qs schema).subset hold
  have hlive : ∀ u, u <+: name → Live {n | n ∈ t.emittedColumns} u :=
    fun u hu => ⟨name, hmem, hu⟩
  refine ⟨hmem, fun hpos u hu => ?_, fun _ u hu => ?_⟩
  · rw [hpos]
    exact keepsFrom_of_live (hlive _ hu)
  · exact keepsFused_of_live (hlive u hu)

/-! ### Two cuts of one stream -/

/-- A key of one letter. -/
theorem introduces_letter {u v : Bytes} {n b : UInt8} {c d e : State × List Frame}
    (hu : run step Pda.new.config u = some c) (hn : run step Pda.new.config (u ++ [n]) = some d)
    (hb : run step Pda.new.config (u ++ [n] ++ [b]) = some e)
    (hkinds : c.1.lexemeKind = none ∧ d.1.lexemeKind = some .ident ∧ e.1.lexemeKind = none)
    (hplace : c.1 ∈ valueStates ∧ (columnSets u).head? = some true)
    (hletter : isIdentStart n = true) : Introduces (u ++ [n] ++ [b] ++ v) [n] := by
  have hopened : Opened .ident u [n] := .singleton hu (by simp [hkinds.1]) hn hkinds.2.1
  exact .bare u b v rfl ⟨c, hu, .inr hplace⟩ ⟨n, [], rfl, hletter, by simp⟩
    ⟨hopened, e, hb, by simp [hkinds.2.2]⟩

/-- A stream with no `[` past the first byte of a token. -/
theorem bracketsBeginTokens_of_heads {toks : List Bytes}
    (h : toks.all (fun tok => !tok.tail.contains Byte.lbracket) = true) :
    BracketsBeginTokens toks := by
  rintro front u v back rfl hu
  obtain ⟨a, u, rfl⟩ := List.exists_cons_of_ne_nil hu
  have htok := List.all_eq_true.mp h (a :: u ++ Byte.lbracket :: v) (by simp)
  simp at htok

/-- The text of both streams, up to the key `W` and after it. -/
def beforeKey : Bytes := ascii "|A.all()->project(~["

def afterKey : Bytes := ascii "x|$x.a])->groupBy(~"

/-- The stream that begins a token at the bracket, and goes on with a
second column set. -/
def setCut : List Bytes := [ascii "|A.all()->project(~", ascii "[W:" ++ afterKey]

def setFused : List Bytes := [ascii "|A.all()->project(", ascii "~[W:" ++ afterKey]

def setMore : List Bytes := [ascii "[],~G:x|$x."]

theorem introduces_key : Introduces (beforeKey ++ [87] ++ [58] ++ afterKey) [87] := by
  have hu : run step Pda.new.config beforeKey = some (.expectValue, [.bracket, .paren]) := by
    decide +kernel
  have hn : run step Pda.new.config (beforeKey ++ [87]) = some (.inIdent, [.bracket, .paren]) := by
    decide +kernel
  have hb : run step Pda.new.config (beforeKey ++ [87] ++ [58]) =
      some (.afterColon, [.bracket, .paren]) := by
    decide +kernel
  exact introduces_letter hu hn hb ⟨rfl, rfl, rfl⟩ ⟨by decide, by decide +kernel⟩ (by decide)

theorem columns_on_record_cut : ∃ c, drive Schema.sample freshStart (setCut ++ setMore) = some c ∧
    ascii "W" ∈ c.2.emittedColumns := by
  obtain ⟨c, hc⟩ := Option.isSome_iff_exists.mp (show (drive Schema.sample freshStart
    (setCut ++ setMore)).isSome = true by decide +kernel)
  have htext : setCut.flatten = beforeKey ++ [87] ++ [58] ++ afterKey := by decide +kernel
  have hcut : BracketsBeginTokens setCut := bracketsBeginTokens_of_heads (by decide +kernel)
  have hname : Introduces setCut.flatten (ascii "W") := htext ▸ introduces_key
  exact ⟨c, hc, (columns_on_record hc hcut hname).1⟩

/-- With `~[` in one token the key is not on record, and at the relation
column of a later step it is masked. -/
theorem column_off_record : ∃ c, drive Schema.sample freshStart (setFused ++ setMore) = some c ∧
    Introduces setFused.flatten (ascii "W") ∧ ascii "W" ∉ c.2.emittedColumns ∧
    c.2.position c.1.state = .relationColumn ∧
    legalAt .sample (c.2.position c.1.state) c.2.narrowPrefix c.2.emittedColumns (ascii "W") =
      false := by
  have hrun : (drive Schema.sample freshStart (setFused ++ setMore)).map (fun c =>
      (c.2.position c.1.state, c.2.narrowPrefix, c.2.emittedColumns)) =
        some (.relationColumn, [], [ascii "G"]) := by
    decide +kernel
  obtain ⟨c, hc, hcol⟩ := Option.map_eq_some_iff.mp hrun
  simp only [Prod.mk.injEq] at hcol
  obtain ⟨hpos, hpfx, hcols⟩ := hcol
  have htext : setFused.flatten = beforeKey ++ [87] ++ [58] ++ afterKey := by decide +kernel
  refine ⟨c, hc, htext ▸ introduces_key, ?_, hpos, ?_⟩
  · rw [hcols]
    decide +kernel
  · rw [hpos, hpfx, hcols]
    decide +kernel

end PureCard
