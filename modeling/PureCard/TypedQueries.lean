/-
PureCard.TypedQueries — the masks let every well-typed query through.

`tests/l2_soundness.rs` streams the gold queries through sessions with a
schema and checks that no rule ever masks the next token;
`tests/bpe_split_soundness.rs` does the same with their names cut anywhere
and with tokens that run from one lexeme into the next. Here that is said
of every query the type system of `Typing` accepts, over every schema whose
names are well formed, in every tokenization of `Seams`.

`WellTyped.sound` takes a pipeline stage by stage. `Piped` holds behind
each: nothing is open, the element and the columns are the scope's, and no
variable is bound. `typed_emitted` starts a session there.
-/
import PureCard.Seams
import PureCard.TypedExpressions

namespace PureCard

open Scopes ScopeTracker Item

section

variable {schema : Schema}

/-! ## Lists that establish columns -/

/-- Where a list names the columns it establishes. -/
structure Naming (p : Point) : Prop where
  state : p.state ∈ valueStates
  stack : p.stack ≠ []
  grounded : p.tracker.Grounded
  refs : p.tracker.refStack = []
  idle : Idle p.tracker
  name : p.tracker.lastIdent = none
  compared : p.tracker.cmpPending = none

/-- Behind the names of `columns`. -/
structure Established (columns : List Bytes) (p q : Point) : Prop where
  state : q.state ∈ valuedStates
  stack : q.stack = p.stack
  kept : p.tracker.Kept q.tracker
  idle : Idle q.tracker
  columns : ∀ c ∈ columns, c ∈ q.tracker.emittedStrings

theorem Naming.quoted {p : Point} (hp : Naming p) (c : Bytes) :
    Goes schema p [.word (quote c)] ⟨.inStrLit true, p.stack, p.tracker.quoted c⟩ ∧
      Established [c] p ⟨.inStrLit true, p.stack, p.tracker.quoted c⟩ := by
  have hadm : Admits schema p.tracker p.state (quote c) :=
    admits_column hp.state hp.compared (.inl hp.refs)
  refine ⟨.quoted hp.state hadm, (by decide : State.inStrLit true ∈ valuedStates), rfl, kept_quoted ..,
    ⟨hp.idle.cursor, hp.idle.last, hp.idle.receiver, by simp [ScopeTracker.quoted, cleared]⟩, ?_⟩
  intro d hd
  obtain rfl := List.mem_singleton.mp hd
  simp [ScopeTracker.quoted]

/-- **Names go through, and are on record.** -/
theorem Names.sound (schema : Schema) {columns : List Bytes} {a : List Item} (h : Names columns a)
    {p : Point} (hp : Naming p) : ∃ q, Goes schema p a q ∧ Established columns p q := by
  induction h generalizing p with
  | one c => exact ⟨_, hp.quoted c⟩
  | @more c cs a _ ih =>
    obtain ⟨hgoes, hq⟩ : Goes schema p [.word (quote c)] _ ∧ Established [c] p _ := hp.quoted c
    have hparted := hq.kept.trans (kept_parted (p.tracker.quoted c))
    obtain ⟨r, hrest, hr⟩ := ih (p := ⟨.expectValueReq, p.stack, (p.tracker.quoted c).parted⟩)
      ⟨value_expectValueReq, hp.stack, hparted.within.grounded hp.grounded, hp.refs,
        ⟨hq.idle.cursor, hq.idle.last, hq.idle.receiver, by simp [parted, cleared]⟩, rfl, rfl⟩
    refine ⟨r, hgoes.cons ((Goes.comma hq.state hp.stack).cons hrest), hr.state, hr.stack,
      hparted.trans hr.kept, hr.idle, ?_⟩
    intro d hd
    rcases List.mem_cons.mp hd with rfl | hd
    · exact hr.kept.emitted.subset (hq.columns d (by simp))
    · exact hr.columns d hd
  | @list cs a _ ih =>
    have hrefs : p.tracker.opened.refStack = [] := by
      change (if opensAny refMethods p.tracker.lastIdent then _ else _) = []
      rw [hp.name]
      exact hp.refs
    obtain ⟨inner, hgoes, hinner⟩ := ih
      (p := ⟨.expectValue, frameOf [Byte.lbracket] :: p.stack, p.tracker.opened⟩)
      ⟨value_expectValue, by simp, hp.grounded.opened, hrefs, .opened hp.idle.cursor hp.idle.last,
        rfl, rfl⟩
    obtain ⟨q, hlist, hclosed⟩ := Goes.list_of (m := [Byte.lbracket]) (by decide)
      (List.mem_cons_of_mem _ (start_of_value hp.state)) hp.grounded (by simp [hp.name]) hgoes
      (List.mem_cons_of_mem _ hinner.state) hinner.stack hinner.kept.within
    have hkept := hclosed.kept
    rw [hp.idle.behind] at hkept
    refine ⟨q, hlist, ?_, hclosed.stack, hkept, hclosed.idle hinner.idle, ?_⟩
    · rw [hclosed.state]
      exact valued_afterValue
    · rw [hclosed.emitted]
      exact hinner.columns
  | @lead w cs a hw _ ih =>
    obtain ⟨s, hs, hlead⟩ := Goes.lead hw (start_of_value hp.state)
    obtain ⟨q, hgoes, hq⟩ := ih (p := ⟨s, p.stack, p.tracker⟩)
      ⟨hs, hp.stack, hp.grounded, hp.refs, hp.idle, hp.name, hp.compared⟩
    exact ⟨q, hlead.cons hgoes, hq.state, hq.stack, hq.kept, hq.idle, hq.columns⟩

/-! ## Pipelines -/

/-- Behind a pipeline. -/
structure Piped (schema : Schema) (scope : Scope) (p : Point) : Prop where
  state : p.state ∈ primaryStates
  stack : p.stack = []
  ready : Ready schema scope (fun _ => none) p.tracker
  idle : Idle p.tracker

/-- A method behind the pipeline, and the tracker in its list. -/
theorem Piped.method {scope : Scope} {p : Point} (hp : Piped schema scope p) {m : Bytes}
    (hm : IsIdent m) (hclass : schema.hasClass m = false) :
    Goes schema p [Item.arrow, .word m] ⟨.inIdent, [], p.tracker.arrowed.named m⟩ ∧
      Ready schema scope (fun _ => none) (p.tracker.arrowed.named m) := by
  have harrow : Goes schema p [Item.arrow] _ := .arrow hp.state
  have hmethod : Goes schema ⟨.afterArrow, p.stack, p.tracker.arrowed⟩ [.word m] _ :=
    .method hm hclass rfl
  rw [hp.stack] at harrow hmethod
  exact ⟨harrow.cons hmethod, hp.ready.kept ((kept_arrowed _).trans (kept_named ..))⟩

theorem Piped.source {path : Bytes} (hpath : IsClasspath path) (hclass : schema.hasClass path = true)
    (hall : schema.hasClass sourceMethod = false) :
    ∃ p, Goes schema ⟨.start, [], .new⟩ ([bar, .word path, dot, .word sourceMethod] ++ parens []) p ∧
      Piped schema ⟨.element path, []⟩ p := by
  have hbar : Goes schema ⟨.start, [], .new⟩ [bar] _ := .source_bar rfl
  rw [dispatch_source_bar] at hbar
  have hadm : Admits schema .new .expectSource path :=
    .named (.source (Schema.mem_sourcePaths_of_hasClass hclass)) (by simp [openingPosition])
  have hclasspath : Goes schema ⟨.expectSource, [], .new⟩ [.word path] _ := .source hpath rfl hadm
  rw [dispatch_source _ _ hpath.classify_eq hclass] at hclasspath
  have hdot : Goes schema ⟨.inSourceIdent, [], new.sourced path⟩ [dot] _ := .dot (by simp)
  have hmethod : Goes schema ⟨.afterDot, [], (new.sourced path).dotted⟩ [.word sourceMethod] _ :=
    .free (isIdent_known (by simp [knownMethods])) hall rfl rfl rfl
  have hready : Ready schema ⟨.element path, []⟩ (fun _ => none)
      ((new.sourced path).dotted.named sourceMethod) :=
    ⟨⟨grounded_new.est, grounded_new.ref, grounded_new.scopes, grounded_new.frames⟩, rfl, rfl, rfl,
      by simp, by simp⟩
  obtain ⟨q, hlist, hclosed⟩ := Goes.list_of (m := [Byte.lparen]) (by decide)
    (p := ⟨.inIdent, [], (new.sourced path).dotted.named sourceMethod⟩) (by simp) hready.grounded
    (fun _ => rfl) (.nil _) (by simp) rfl (Kept.refl _).within
  have hbehind : ((new.sourced path).dotted.named sourceMethod).behind =
      (new.sourced path).dotted.named sourceMethod := rfl
  have hkept := hclosed.kept
  rw [hbehind] at hkept
  exact ⟨q, hbar.cons (hclasspath.cons (hdot.cons (hmethod.cons hlist))),
    by simp [hclosed.state, primaryStates], hclosed.stack, hready.kept hkept,
    hclosed.idle (.opened rfl rfl)⟩

theorem Piped.stage {scope : Scope} {p : Point} (hp : Piped schema scope p) {m : Bytes}
    (hm : schema.Plain m) {a : List Item}
    (ha : Form.Sound schema scope (fun _ => none) (.args scope.elem) a) :
    ∃ q, Goes schema p ([Item.arrow, .word m] ++ parens a) q ∧ Piped schema scope q := by
  have hfits : scope.elem.Fits (p.tracker.lastNavClass.or p.tracker.curClass) := by
    rw [hp.idle.last]
    exact hp.ready.element
  obtain ⟨q, hgoes, hq, -⟩ := Goes.call hp.state hp.ready hm hfits ha
  exact ⟨q, hgoes, hq.state, hq.stack.trans hp.stack, hp.ready.kept hq.kept, hq.idle⟩

/-- Behind a list that establishes columns the element is a row. -/
theorem Piped.establish {scope : Scope} {p : Point} (hp : Piped schema scope p) {m : Bytes}
    (hm : m ∈ establishingMethods) (hclass : schema.hasClass m = false) {a c : List Item}
    (ha : Form.Sound schema scope (fun _ => none) (.list scope.elem) a) {columns : List Bytes}
    (hc : Names columns c) :
    ∃ q, Goes schema p ([Item.arrow, .word m] ++ parens (a ++ comma :: c)) q ∧
      Piped schema ⟨.row, columns⟩ q := by
  have hall : ∀ m ∈ establishingMethods, m ∈ knownMethods ∧ m ∉ refMethods ∧ m ≠ sourceMethod := by
    decide +kernel
  obtain ⟨hknown, hno, hsource⟩ := hall m hm
  obtain ⟨hmethod, hready⟩ := hp.method (isIdent_known hknown) hclass
  have href : opensAny refMethods (p.tracker.arrowed.named m).lastIdent = false := by
    simp [opensAny, named, hno]
  have hbehind : (p.tracker.arrowed.named m).behind =
      { p.tracker.arrowed.named m with curClass := none, relExplicit := true } := by
    simp [ScopeTracker.behind, opensAny, named, hm]
  have hfits : scope.elem.Fits (p.tracker.lastNavClass.or p.tracker.curClass) := by
    rw [hp.idle.last]
    exact hp.ready.element
  obtain ⟨r, hfirst, hr⟩ := ha _ (lists_opened hready href rfl rfl hfits (frameOf [Byte.lparen]) [])
  have hstack : r.stack ≠ [] := by
    rw [hr.stack]
    simp
  have hwithin := hr.within.trans (kept_parted r.tracker).within
  have hrefs : r.tracker.parted.refStack = [] :=
    (congrArg Footing.ref hwithin.footing).trans (hready.opened href).refs
  obtain ⟨inner, hnames, hinner⟩ := hc.sound schema
    (p := ⟨.expectValueReq, r.stack, r.tracker.parted⟩)
    ⟨value_expectValueReq, hstack, hwithin.grounded hready.grounded.opened, hrefs,
      ⟨hr.idle.cursor, hr.idle.last, hr.idle.receiver, by simp [parted, cleared]⟩, rfl, rfl⟩
  obtain ⟨q, hlist, hclosed⟩ := Goes.list_of (m := [Byte.lparen])
    (p := ⟨.inIdent, [], p.tracker.arrowed.named m⟩) (by decide) (by simp) hready.grounded
    (fun h => absurd (Option.some.inj h) hsource)
    (hfirst.append ((Goes.comma hr.state hstack).cons hnames))
    (List.mem_cons_of_mem _ hinner.state) (hinner.stack.trans hr.stack)
    (hwithin.trans hinner.kept.within)
  have hkept := hclosed.kept
  rw [hbehind] at hkept
  refine ⟨q, hmethod.append hlist, by simp [hclosed.state, primaryStates], hclosed.stack, ?_,
    hclosed.idle hinner.idle⟩
  have hground := hready.grounded
  refine ⟨hkept.within.grounded ⟨hground.est, hground.ref, hground.scopes, hground.frames⟩, ?_, ?_, ?_,
    ?_, by simp⟩
  · exact congrArg Pipeline.cls hkept.within.pipeline
  · exact (congrArg Pipeline.tilde hkept.within.pipeline).trans hready.tilde
  · exact (congrArg Footing.ref hkept.footing).trans hready.refs
  · rw [hclosed.emitted]
    exact hinner.columns

/-- A list that refers to the columns of the rows. -/
theorem Piped.refer {columns : List Bytes} {p : Point} (hp : Piped schema ⟨.row, columns⟩ p)
    {m : Bytes} (hm : m ∈ refMethods) (hclass : schema.hasClass m = false) {a : List Item}
    (ha : Refs schema columns a) :
    ∃ q, Goes schema p ([Item.arrow, .word m] ++ parens a) q ∧ Piped schema ⟨.row, columns⟩ q := by
  obtain ⟨hmethod, hready⟩ := hp.method (isIdent_known (mem_known_of_ref hm)) hclass
  obtain ⟨hbehind, hsource⟩ := opens_ref (t := p.tracker.arrowed.named m) hm rfl
  obtain ⟨inner, hgoes, hinner⟩ := ha.sound (referring_opened (frameOf [Byte.lparen])
    [] hready.grounded hready.columns rfl rfl rfl)
  obtain ⟨q, hlist, hstate, hq, -, -⟩ := Referred.list (m := [Byte.lparen])
    (p := ⟨.inIdent, [], p.tracker.arrowed.named m⟩) (by decide) (by simp) hready.grounded hbehind
    hsource hgoes hinner
  exact ⟨q, hmethod.append hlist, by simp [hstate, primaryStates], hq.stack, hready.kept hq.kept,
    hq.idle⟩

/-- **Well-typed queries are sound.** -/
theorem WellTyped.sound {scope : Scope} {q : List Item} (h : WellTyped schema scope q) :
    ∃ p, Goes schema ⟨.start, [], .new⟩ q p ∧ Piped schema scope p := by
  induction h with
  | source hpath hclass hall => exact Piped.source hpath hclass hall
  | stage _ hm ha ih =>
    obtain ⟨p, hgoes, hp⟩ := ih
    obtain ⟨q, hstage, hq⟩ := hp.stage hm ha.sound
    rw [List.append_assoc]
    exact ⟨q, hgoes.append hstage, hq⟩
  | establish _ hm hclass ha hc ih =>
    obtain ⟨p, hgoes, hp⟩ := ih
    obtain ⟨q, hstage, hq⟩ := hp.establish hm hclass ha.sound hc
    rw [List.append_assoc]
    exact ⟨q, hgoes.append hstage, hq⟩
  | refer _ hm hclass ha ih =>
    obtain ⟨p, hgoes, hp⟩ := ih
    obtain ⟨q, hstage, hq⟩ := hp.refer hm hclass ha
    rw [List.append_assoc]
    exact ⟨q, hgoes.append hstage, hq⟩
  | pad _ hw ih =>
    obtain ⟨p, hgoes, hp⟩ := ih
    exact ⟨_, hgoes.append (.pad hw (valued_of_primary hp.state)), by simp [primaryStates], hp.stack,
      hp.ready, hp.idle⟩

/-- **The masks let every well-typed query through**, whether its tokens end
inside a lexeme, with it or beyond it. -/
theorem typed_emitted (hformed : NamesFormed schema) {g : CompiledGrammar} {scope : Scope}
    {q : List Item} (hq : WellTyped schema scope q) {ids : List Nat}
    (hids : ∀ id ∈ ids, id < g.eosBit) (hcut : Cuts q (ids.map g.vocab.bytesOrEmpty)) (os : List Session.Op) :
    ∃ s', (Session.restarted g (some schema) os).replayTokens ids g.eosBit = .ok s' := by
  obtain ⟨p, hgoes, hp⟩ := hq.sound
  have hreach := hgoes.reaches hformed (reaches_start schema) hcut
  rw [List.nil_append] at hreach
  refine hreach.replay_ok ?_ hids os
  rw [hp.stack]
  exact isAccepting_of_valued (valued_of_primary hp.state)

end

/-! ### A sample -/

/-- `|A.all()->filter(x|$x.toB.m == 1)->project([x|$x.n], ['k'])->restrict('k')`. -/
def sampleQuery : List Item :=
  let navigation (names : List String) : List Item :=
    [dollar, .word (ascii "x")] ++ (names.map fun name => [dot, .word (ascii name)]).flatten
  let lambda (body : List Item) : List Item := .word (ascii "x") :: bar :: body
  let call (name : String) (args : List Item) : List Item := [arrow, .word (ascii name)] ++ parens args
  [bar, .word (ascii "A"), dot, .word (ascii "all")] ++ parens [] ++
    call "filter" (lambda (navigation ["toB", "m"] ++ .mark [Byte.eq, Byte.eq] :: [.word (ascii "1")])) ++
    call "project" (brackets (lambda (navigation ["n"])) ++ comma :: brackets [.word (quote (ascii "k"))]) ++
    call "restrict" [.word (quote (ascii "k"))]

theorem plain_sample {name : Bytes}
    (h : name ∈ [ascii "x", ascii "toB", ascii "m", ascii "n", ascii "filter"]) :
    Schema.sample.Plain name := by
  have hall : ([ascii "x", ascii "toB", ascii "m", ascii "n", ascii "filter"].all fun w =>
      (w.head?.any isIdentStart && w.tail.all isIdentTail) && !Schema.sample.hasClass w &&
        !knownMethods.contains w) = true := by decide +kernel
  have hrow := List.all_eq_true.mp hall name h
  simp only [Bool.and_eq_true, Bool.not_eq_true', List.contains_eq_mem, decide_eq_false_iff_not] at hrow
  exact ⟨isIdent_of_row (by simp [hrow.1.1]), hrow.1.2, hrow.2⟩

theorem wellTyped_sample : WellTyped .sample ⟨.row, [ascii "k"]⟩ sampleQuery := by
  have hx : Schema.sample.Plain (ascii "x") := plain_sample (by simp)
  have hvar : Env.bind (fun _ => none) (ascii "x") (.element (ascii "A")) (ascii "x") =
      some (.element (ascii "A")) := Function.update_self ..
  have htoB : Schema.sample.Leads (ascii "A") (ascii "toB") (.element (ascii "B")) :=
    ⟨.cls (ascii "B") ⟨0, none⟩, by decide +kernel, rfl⟩
  have hm : Schema.sample.Leads (ascii "B") (ascii "m") (.value (some .numeric)) :=
    ⟨.primitive .integer ⟨1, some 1⟩, by decide +kernel, rfl⟩
  have hn : Schema.sample.Leads (ascii "A") (ascii "n") (.value (some .numeric)) :=
    ⟨.primitive .integer ⟨1, some 1⟩, by decide +kernel, rfl⟩
  have hone : IsLiteral .numeric (ascii "1") :=
    ⟨by decide +kernel, .number, .inNumberInt, rfl, by decide,
      .cons (d := (.inNumberInt, [])) rfl rfl (.nil _)⟩
  have hsource : WellTyped .sample ⟨.element (ascii "A"), []⟩ _ :=
    .source (.name (isIdent_of_row (by decide +kernel))) (by decide +kernel) (by decide +kernel)
  have hfilter := hsource.stage (plain_sample (by simp : ascii "filter" ∈ _)) (.someArgs (.oneArg
    (.argLambda hx (.compare (.value (.navValue (.chain (.step hvar (plain_sample (by simp)) htoB)
      (plain_sample (by simp)) hm))) (by decide : [Byte.eq, Byte.eq] ∈ comparisonOps) (fun _ h => h)
      (.literal hone)))))
  have hproject := hfilter.establish (by decide +kernel : ascii "project" ∈ establishingMethods)
    (by decide +kernel) (.oneArg (.argList (.someArgs (.oneArg (.argLambda hx (.truth (.value (.navValue
      (.step hvar (plain_sample (by simp)) hn))))))) _)) (.list (.one (ascii "k")))
  exact hproject.refer (by decide +kernel : ascii "restrict" ∈ refMethods) (by decide +kernel)
    (.column (by simp))

/-- A dot, an opener and a column list's name run on. -/
def runsOn : Item → Bool
  | .mark m => m == [Byte.dot] || openers.contains m
  | .word w => w.head? == some Byte.quote
  | .blank _ => false

/-- `|`, `A`, `.all`, `()`, `->`, `filter`, `(x`, ..., `restrict`, `('k')`. -/
def sampleTokens : List Bytes := merged (sampleQuery.map fun i => (i, runsOn i))

/-- The sample in merged tokens, behind a mask that was asked for. -/
theorem typed_emitted_sample :
    ∃ s', (Session.restarted (.compile ⟨sampleTokens, 0⟩) (some .sample)
      [.call .mask]).replayTokens (List.range sampleTokens.length) sampleTokens.length = .ok s' := by
  have heos : (CompiledGrammar.compile ⟨sampleTokens, 0⟩).eosBit = sampleTokens.length := by
    decide +kernel
  have hids : ∀ id ∈ List.range sampleTokens.length,
      id < (CompiledGrammar.compile ⟨sampleTokens, 0⟩).eosBit := by
    intro id hid
    rw [heos]
    exact List.mem_range.mp hid
  have htokens : (List.range sampleTokens.length).map
      (CompiledGrammar.compile ⟨sampleTokens, 0⟩).vocab.bytesOrEmpty = sampleTokens := by
    decide +kernel
  have hcut : Cuts sampleQuery sampleTokens := by
    have h := Cuts.merged (l := sampleQuery.map fun i => (i, runsOn i)) (by decide +kernel)
    have hfst : (Prod.fst ∘ fun i => (i, runsOn i)) = id := rfl
    rw [List.map_map, hfst, List.map_id] at h
    exact h
  exact typed_emitted Session.namesFormed_sample (g := .compile ⟨sampleTokens, 0⟩) wellTyped_sample hids
    (by rwa [htokens]) [.call .mask]

end PureCard
