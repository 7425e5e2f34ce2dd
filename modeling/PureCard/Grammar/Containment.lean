/-
PureCard.Grammar.Containment — the automaton reads every sentence of the
emitted grammar.

The automaton has no state per production: what a production can rely on
is only that it begins at a place of a few kinds and ends at one of a few
kinds. `contracts` says which, production by production. Three sets of
states carry most of it:

* `valueStart`: where a value may begin, the two hubs and the `|` of a
  lambda that has not yet turned out to be a `||`;
* `valueEnd`: the states that hand a byte they do not take to the
  `AfterValue` hub. Number, string and date literals end in states of
  their own, since only the next byte shows that they have ended;
* `sourceStart`: where a pipeline may begin outside a value.

The one place where a sentence is not read as the grammar parses it is a
predicate on a date literal, `%2018-03-17->isEmpty()`: the date swallows
the `-`, and the `>` that is left is read as the comparison. Both ways
the predicate's name follows, so `boolPred` has `sawGt` beside
`afterArrow`.
-/
import PureCard.Grammar.Emitted
import PureCard.Grammar.PdaTheorems

namespace PureCard

open Pushdown

/-! ## Places -/

/-- Where a value may begin. -/
def valueStart : List State := [.expectValue, .expectValueReq, .sawPipe]

/-- Where an item of a list may begin. -/
def itemStart : List State := [.expectValue, .expectValueReq]

/-- Where a pipeline may begin outside a value. -/
def sourceStart : List State := [.expectSource, .blockStmt, .blockStmtClose]

/-- Inside a source's identifier, also one that may still be `let`. -/
def sourceName : List State := [.inSourceIdent, .letL, .letLe, .letLet]

def numberEnd : List State := [.inNumberInt, .inNumberFrac, .inExp]

def literalEnd : List State :=
  numberEnd ++ [.inIdent, .inStrLit true, .inDateLit, .inMilestoneLit]

/-- Where a value may have ended. -/
def valueEnd : List State := .afterValue :: literalEnd

/-- A contract that leaves the stack as it was and does not read it. -/
def flat (pre post : List State) : Region State Frame × Region State Frame :=
  (⟨pre, []⟩, ⟨post, []⟩)

/-- A contract of what stands directly inside a frame. -/
def inside (f : Frame) (pre post : List State) : Region State Frame × Region State Frame :=
  (⟨pre, [f]⟩, ⟨post, [f]⟩)

/-- Where each production begins and ends. -/
def contracts : Contracts Production State Frame
  | .query | .simpleQuery | .blockQuery => [flat [.start] [.afterValue]]
  | .letBinding => [flat [.blockStmt, .blockStmtClose] [.afterValue]]
  | .pipeline | .source | .classNavSource | .relationalSource =>
    [flat sourceStart [.afterValue], flat [.expectValue] [.afterValue]]
  | .step | .filter | .project | .groupBy | .olapGroupBy | .sort | .take | .distinct
  | .restrict | .relGroupBy | .renameColumns | .extend | .join | .limit
  | .relProject | .relFnGroupBy | .relSort | .relExtendWindow | .relRename =>
    [flat [.afterArrow] [.afterValue]]
  | .relAgg => [flat (.afterArrow :: itemStart) [.afterValue]]
  | .sortSpec | .agg | .colRename | .colDef | .relSortKey | .winAggSpec | .braceLambda
  | .relAggSpec => [flat itemStart [.afterValue]]
  | .sortdir | .joinType => [flat [.expectValueReq] [.inIdent]]
  | .renameArg | .extendArg | .relationalSubPipeline | .windowSpec =>
    [flat [.expectValue] [.afterValue]]
  | .lambda | .colLambda | .keyLambda | .mapLambda | .tdsLambda | .tdsColLambda | .tdsMapLambda =>
    [flat (.afterColonWs :: itemStart) valueEnd]
  | .reduceLambda | .tdsReduceLambda => [flat (.afterColonWs :: itemStart) [.afterValue]]
  | .typedBinder => [flat (.afterColonWs :: .expectBraceBinder :: itemStart) [.afterValue]]
  | .mult => [inside .bracket [.expectValue] [.inMultiplicity, .inNumberInt]]
  | .boolExpr | .cmp | .valueExpr | .term => [flat valueStart valueEnd]
  | .cmpop => [flat [.afterValue] [.expectValueReq, .sawGt, .sawLt]]
  | .arithop => [flat [.afterValue] [.expectValueReq, .sawDash]]
  | .reduceExpr | .ifExpr | .colAccess => [flat valueStart [.afterValue]]
  | .reducer | .fn => [flat [.afterArrow] [.inIdent]]
  | .tdsGetter => [flat [.afterDot] [.inIdent]]
  | .boolPred => [flat [.afterArrow, .sawGt] [.afterValue]]
  | .predArg => [flat [.expectValue] valueEnd]
  | .collapse => [flat [.afterArrow] [.afterValue]]
  | .fnArgs => [inside .paren [.expectValue] valueEnd]
  | .navExpr | .refVar | .boollit => [flat valueStart [.inIdent]]
  | .classpath => [flat sourceStart sourceName, flat (.afterColon :: itemStart) [.inIdent]]
  | .binderVar => [flat (.afterColonWs :: .expectBraceBinder :: itemStart) [.inIdent]]
  | .literal => [flat valueStart literalEnd]
  | .strlit => [flat (.sawTilde :: valueStart) [.inStrLit true]]
  | .number => [flat valueStart numberEnd]
  | .frac => [flat (.sawNumSign :: .inNumberInt :: valueStart) [.inNumberFrac, .inExp]]
  | .exp => [flat [.inNumberFrac] [.inExp]]
  | .dateLit => [flat valueStart [.inDateLit]]
  | .milestoneLit => [flat valueStart [.inMilestoneLit]]
  | .int => [flat itemStart [.inNumberInt]]
  | .strOrList => [flat [.expectValue] [.inStrLit true, .afterValue]]
  | .ident =>
    [flat [.expectBinder] [.inBinder], flat (.sourceColon2 :: sourceStart) sourceName,
      flat (.afterDollar :: .afterDot :: .afterColon :: .afterColonWs :: .afterColon2
        :: .expectBraceBinder :: .sawTilde :: valueStart) [.inIdent]]
  | .relColSpec => [flat itemStart valueEnd]
  | .frameLambda => [flat [.afterColonWs] [.afterValue]]
  | .colRef => [flat itemStart [.inIdent, .inStrLit true]]
  | .colName => [flat (.sawTilde :: itemStart) [.inIdent, .inStrLit true]]

theorem emitted_meets (n : Production) :
    meets step contracts (emitted Phrase.opt n) (contracts n) = true := by
  cases n <;> decide +kernel

/-! ## The emitted language -/

/-- **Emitted grammar containment**: every byte of every sentence is
accepted from the start and the automaton accepts at the end. Wherever
the sentence is cut, what comes next is admitted. -/
theorem emitted_accepted {w : Bytes} (h : IsEmitted Phrase.opt w) :
    (∃ p, Pda.new.advanceAll w = .ok p ∧ p.isAccepting = true) ∧
      ∀ u v rest : Bytes, w = u ++ v ++ rest →
        ∃ p, Pda.new.advanceAll u = .ok p ∧ p.admits v = true := by
  have himage : image step contracts (Phrase.ref .query) ⟨[.start], []⟩
      = some ⟨[.afterValue], []⟩ := rfl
  have hread := Derives.read step_framed emitted_meets h himage
  obtain ⟨s, hs, hrun⟩ := hread [] .start (by simp)
  have hs : s = .afterValue := by simpa using hs
  subst hs
  have hall : Pda.new.advanceAll w = .ok ⟨.afterValue, []⟩ := Pda.advanceAll_eq_ok.mpr hrun
  refine ⟨⟨_, hall, by decide⟩, ?_⟩
  rintro u v rest rfl
  rw [List.append_assoc] at hall
  obtain ⟨p, hu, hrest⟩ := Pda.advanceAll_append.mp hall
  obtain ⟨q, hv, -⟩ := Pda.advanceAll_append.mp hrest
  exact ⟨p, hu, Pda.admits_iff.mpr ⟨q, hv⟩⟩

/-! ## Derivations of two sentences -/

section

variable {keys : Phrase → Phrase}

theorem derives_text (s : String) : Derives (emitted keys) (Phrase.t s) (ascii s) :=
  .terminal (List.mem_singleton.mpr rfl)

/-- A byte of a class. -/
theorem derives_class {p : UInt8 → Bool} {b : UInt8} (hb : p b = true) :
    Derives (emitted keys) (Phrase.charClass p) [b] := by
  have hmem : b ∈ Phrase.bytesWhere p := by
    refine List.mem_filter.mpr ⟨List.mem_map.mpr ⟨b.toNat, ?_, ?_⟩, hb⟩
    · exact List.mem_range.mpr b.toNat_lt
    · simp
  exact .terminal (List.mem_map.mpr ⟨b, hmem, rfl⟩)

/-- A one-letter identifier. -/
theorem derives_letter {b : UInt8} (h : isAsciiAlphabetic b = true) :
    Derives (emitted keys) (Phrase.ref .ident) [b] :=
  .rule (.one (derives_class h))

/-- A string of one character. -/
theorem derives_quoted {b : UInt8} (h : b ≠ Byte.quote) :
    Derives (emitted keys) (Phrase.ref .strlit) [39, b, 39] := by
  have hschar : Derives (emitted keys) Phrase.schar [b] := derives_class (bne_iff_ne.mpr h)
  have hbody : Derives (emitted keys) (Phrase.rep (Phrase.schar ||| Phrase.t "''")) ([b] ++ []) :=
    .repCons (.altLeft hschar) .repNil
  exact .rule (.seq (.seq (derives_text "'") hbody) (derives_text "'"))

/-- A source of one letter: `A.all()`. -/
theorem derives_allOfA : Derives (emitted keys) (Phrase.ref .source) (ascii "A.all()") := by
  have hA : Derives (emitted keys) (Phrase.ref .classpath) (ascii "A") :=
    .rule (.one (derives_letter (b := 65) rfl))
  exact .rule (.altLeft (.rule (.seq hA (derives_text ".all()"))))

/-- A one-letter variable and its binder. -/
theorem derives_variable {b : UInt8} (h : isAsciiAlphabetic b = true) :
    Derives (emitted keys) (Phrase.ref .refVar) (ascii "$" ++ [b]) :=
  .rule (.seq (derives_text "$") (derives_letter h))

theorem derives_binder {b : UInt8} (h : isAsciiAlphabetic b = true) :
    Derives (emitted keys) (Phrase.ref .binderVar ++ Phrase.t "|") ([b] ++ ascii "|") :=
  .seq (.rule (derives_letter h)) (derives_text "|")

/-- A term that is a string, one that is a navigation. -/
theorem derives_stringTerm {w : Bytes} (h : Derives (emitted keys) (Phrase.ref .strlit) w) :
    Derives (emitted keys) (Phrase.ref .valueExpr) w :=
  .rule (.one (.rule (.altLeft (.altLeft (.altRight
    (.rule (.altLeft (.altLeft (.altLeft (.altLeft h))))))))))

theorem derives_navTerm {w : Bytes} (h : Derives (emitted keys) (Phrase.ref .navExpr) w) :
    Derives (emitted keys) (Phrase.ref .valueExpr) w :=
  .rule (.one (.rule (.altLeft (.altLeft (.altLeft (.altLeft (.one (.one h))))))))

end

/-- A source, a step with a lambda, a navigation and a literal. -/
theorem emitted_accepted_filter :
    (∃ p, Pda.new.advanceAll (ascii "|A.all()->filter(x|$x.n == 'a')") = .ok p ∧
      p.isAccepting = true) ∧
      ∀ u v rest : Bytes, ascii "|A.all()->filter(x|$x.n == 'a')" = u ++ v ++ rest →
        ∃ p, Pda.new.advanceAll u = .ok p ∧ p.admits v = true := by
  have hnav : Derives (emitted Phrase.opt) (Phrase.ref .navExpr) (ascii "$x.n") :=
    .rule (.seq (derives_variable (b := 120) rfl)
      (.repCons (.seq (derives_text ".") (derives_letter (b := 110) rfl)) .repNil))
  have hop : Derives (emitted Phrase.opt) (Phrase.ref .cmpop) (ascii "==") :=
    .rule (.terminal (List.mem_map.mpr ⟨"==", by simp, rfl⟩))
  have hcmp : Derives (emitted Phrase.opt) (Phrase.ref .cmp) (ascii "$x.n == 'a'") :=
    .rule (.altLeft (.altLeft (.seq (.seq (.seq (.seq (derives_navTerm hnav) (derives_text " "))
      hop) (derives_text " ")) (derives_stringTerm (derives_quoted (b := 97) (by decide))))))
  have hlambda : Derives (emitted Phrase.opt) (Phrase.ref .lambda) (ascii "x|$x.n == 'a'") :=
    .rule (.seq (derives_binder (b := 120) rfl) (.rule (.altLeft (.one hcmp))))
  have hfilter : Derives (emitted Phrase.opt) (Phrase.ref .filter)
      (ascii "filter(x|$x.n == 'a')") :=
    .rule (.seq (.seq (derives_text "filter(") (.altLeft hlambda)) (derives_text ")"))
  have hstep : Derives (emitted Phrase.opt) (Phrase.ref .step) (ascii "filter(x|$x.n == 'a')") := by
    refine .rule ?_
    iterate 18 refine .altLeft ?_
    exact hfilter
  have hpipeline : Derives (emitted Phrase.opt) (Phrase.ref .pipeline)
      (ascii "A.all()->filter(x|$x.n == 'a')") :=
    .rule (.seq derives_allOfA (.repCons (.seq (derives_text "->") hstep) .repNil))
  have hquery : IsEmitted Phrase.opt (ascii "|A.all()->filter(x|$x.n == 'a')") :=
    .rule (.altLeft (.rule (.seq (derives_text "|") hpipeline)))
  exact emitted_accepted hquery

/-- Read to the letter, the key list may put one group of keys after
another with nothing between them. A key that ends in a string is then
followed by a binder, and the automaton has no move. -/
theorem adjacent_keys_rejected :
    IsEmitted Phrase.rep
        (ascii "|A.all()->groupBy([x|'a'y|'b'],[agg(x|$x,y|$y->sum())],['c'])") ∧
      ¬ ∃ p, Pda.new.advanceAll
        (ascii "|A.all()->groupBy([x|'a'y|'b'],[agg(x|$x,y|$y->sum())],['c'])") = .ok p := by
  constructor
  · have hkeyA : Derives (emitted Phrase.rep) (Phrase.ref .keyLambda) (ascii "x|'a'") :=
      .rule (.seq (derives_binder (b := 120) rfl)
        (derives_stringTerm (derives_quoted (b := 97) (by decide))))
    have hkeyB : Derives (emitted Phrase.rep) (Phrase.ref .keyLambda) (ascii "y|'b'") :=
      .rule (.seq (derives_binder (b := 121) rfl)
        (derives_stringTerm (derives_quoted (b := 98) (by decide))))
    have hkeys : Derives (emitted Phrase.rep)
        (Phrase.rep (Phrase.commaList (Phrase.ref .keyLambda))) (ascii "x|'a'y|'b'") :=
      .repCons (.one hkeyA) (.repCons (.one hkeyB) .repNil)
    have hx : Derives (emitted Phrase.rep) (Phrase.ref .valueExpr) (ascii "$x") :=
      derives_navTerm (.rule (.one (derives_variable (b := 120) rfl)))
    have hmap : Derives (emitted Phrase.rep) (Phrase.ref .mapLambda) (ascii "x|$x") :=
      .rule (.seq (derives_binder (b := 120) rfl) hx)
    have hsum : Derives (emitted Phrase.rep) (Phrase.ref .reducer) (ascii "sum") :=
      .rule (.terminal (List.mem_map.mpr ⟨"sum", by simp, rfl⟩))
    have hreduce : Derives (emitted Phrase.rep) (Phrase.ref .reduceLambda) (ascii "y|$y->sum()") :=
      .rule (.seq (derives_binder (b := 121) rfl)
        (.rule (.seq (.seq (.seq (derives_variable (b := 121) rfl) (derives_text "->")) hsum)
          (derives_text "()"))))
    have hagg : Derives (emitted Phrase.rep) (Phrase.commaList (Phrase.ref .agg))
        (ascii "agg(x|$x,y|$y->sum())") :=
      .one (.rule (.seq (.seq (.seq (.seq (derives_text "agg(") hmap) (derives_text ",")) hreduce)
        (derives_text ")")))
    have hnames : Derives (emitted Phrase.rep) (Phrase.commaList (Phrase.ref .strlit))
        (ascii "'c'") := .one (derives_quoted (b := 99) (by decide))
    have hgroupBy : Derives (emitted Phrase.rep) (Phrase.ref .groupBy)
        (ascii "groupBy([x|'a'y|'b'],[agg(x|$x,y|$y->sum())],['c'])") :=
      .rule (.seq (.seq (.seq (.seq (.seq (.seq (derives_text "groupBy([") hkeys)
        (derives_text "],[")) hagg) (derives_text "],[")) hnames) (derives_text "])"))
    have hstep : Derives (emitted Phrase.rep) (Phrase.ref .step)
        (ascii "groupBy([x|'a'y|'b'],[agg(x|$x,y|$y->sum())],['c'])") := by
      refine .rule ?_
      iterate 16 refine .altLeft ?_
      exact .altRight hgroupBy
    have hpipeline : Derives (emitted Phrase.rep) (Phrase.ref .pipeline)
        (ascii "A.all()->groupBy([x|'a'y|'b'],[agg(x|$x,y|$y->sum())],['c'])") :=
      .rule (.seq derives_allOfA (.repCons (.seq (derives_text "->") hstep) .repNil))
    exact .rule (.altLeft (.rule (.seq (derives_text "|") hpipeline)))
  · rw [← Pda.admits_iff]
    decide +kernel

end PureCard
