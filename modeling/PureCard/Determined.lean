/-
PureCard.Determined — what a mask bit is a function of.

The class table is a hash map, and its traversal order differs from one
process to the next; the source trie is built in that order. A host may
also load the same tokens under other ids, or more of them. Neither is
meant to show in a mask.

`bit_origin` says so: between two sessions whose schemas answer alike
(`Schema.Alike`) and that have accepted the same token strings, over any
two vocabularies and after any calls, tokens of the same bytes have the
same bit. A reordered class table answers alike (`alike_of_perm`), which
gives `class_order`.
-/
import PureCard.OpeningTokens
import PureCard.DeadEnds

namespace PureCard

open Completion ScopeTracker

/-! ## Schemas that answer alike -/

namespace Schema

/-- The two schemas give the same answer to everything a decode asks. -/
structure Alike (s s' : Schema) : Prop where
  sources : ∀ p, p ∈ s.sourcePaths ↔ p ∈ s'.sourcePaths
  hasClass : ∀ p, s.hasClass p = s'.hasClass p
  members : ∀ cls, s.memberNames cls = s'.memberNames cls
  resolve : ∀ cls ident, s.resolve cls ident = s'.resolve cls ident

theorem Alike.refl (s : Schema) : s.Alike s :=
  ⟨fun _ => Iff.rfl, fun _ => rfl, fun _ => rfl, fun _ _ => rfl⟩

section

variable {s s' : Schema} (hinfo : ∀ cls, s.classInfo cls = s'.classInfo cls)
  (hnav : s.navigable = s'.navigable)

include hinfo hnav

theorem collectMembers_congr (fuel : Nat) : ∀ (cls : Bytes) (acc : List Bytes × List Bytes),
    s.collectMembers fuel cls acc = s'.collectMembers fuel cls acc := by
  have hsteps : ∀ cls, s.navSteps cls = s'.navSteps cls := fun cls => by rw [navSteps, navSteps, hnav]
  induction fuel with
  | zero => intro cls acc; rfl
  | succ fuel ih =>
    rintro cls ⟨names, visited⟩
    have hfold : s.collectMembers fuel = s'.collectMembers fuel := by
      funext cls acc
      exact ih cls acc
    rw [collectMembers, collectMembers, hinfo, hsteps, hfold]

theorem resolveIn_congr (fuel : Nat) : ∀ (cls ident : Bytes) (visited : List Bytes),
    s.resolveIn fuel cls ident visited = s'.resolveIn fuel cls ident visited := by
  have hsteps : ∀ cls, s.navSteps cls = s'.navSteps cls := fun cls => by rw [navSteps, navSteps, hnav]
  induction fuel with
  | zero => intro cls ident visited; rfl
  | succ fuel ih =>
    intro cls ident visited
    have hfold : s.resolveIn fuel = s'.resolveIn fuel := by
      funext cls ident visited
      exact ih cls ident visited
    rw [resolveIn, resolveIn, hinfo, hsteps, hfold]

end

/-- **A class table in another order answers alike.** -/
theorem alike_of_perm {data data' : SchemaData} (hdb : data.dbPath = data'.dbPath)
    (hassoc : data.associations = data'.associations)
    (hperm : data.classes.entries.Perm data'.classes.entries) :
    (ofData data).Alike (ofData data') := by
  have hinfo : ∀ cls, (ofData data).classInfo cls = (ofData data').classInfo cls :=
    fun cls => AList.perm_lookup hperm
  have hnav : (ofData data).navigable = (ofData data').navigable := by
    rw [ofData, ofData, hassoc]
  have hkeys : data.classes.keys.Perm data'.classes.keys := hperm.map Sigma.fst
  have hfuel : (ofData data).walkFuel = (ofData data').walkFuel := by
    have hlen : data.classes.keys.length = data'.classes.keys.length := hkeys.length_eq
    exact congrArg (· + 2) hlen
  refine ⟨?_, fun p => by rw [hasClass, hasClass, hinfo], fun cls => ?_, fun cls ident => ?_⟩
  · intro p
    show p ∈ data.classes.keys ++ [data.dbPath] ↔ p ∈ data'.classes.keys ++ [data'.dbPath]
    rw [List.mem_append, List.mem_append, hkeys.mem_iff, hdb]
  · rw [memberNames, memberNames, hfuel, collectMembers_congr hinfo hnav]
  · rw [resolve, resolve, hfuel, resolveIn_congr hinfo hnav]

end Schema

/-! ## The tracker and the rules -/

section

variable {s s' : Schema} (h : s.Alike s')

include h

theorem dispatchToken_alike (t : ScopeTracker) (bytes : Bytes) (a : State) :
    t.dispatchToken bytes a s = t.dispatchToken bytes a s' := by
  have hmember : ∀ (t : ScopeTracker) ident, t.resolveMember ident s = t.resolveMember ident s' := by
    intro t ident
    simp only [resolveMember, h.resolve]
  have hbind : ∀ (t : ScopeTracker) text, t.bindIdent text a s = t.bindIdent text a s' := by
    intro t text
    simp only [bindIdent, h.hasClass, hmember]
  have hident : ∀ (t : ScopeTracker) text, t.onIdent text a s = t.onIdent text a s' := by
    intro t text
    unfold onIdent
    rw [h.hasClass]
    dsimp only
    rw [hbind]
  have hlexeme : ∀ lex, t.dispatchLexeme lex a s = t.dispatchLexeme lex a s' := by
    intro lex
    cases lex with
    | ident text => exact hident t text
    | _ => rfl
  rw [dispatchToken, dispatchToken, hlexeme]

theorem dispatchAll_alike (t : ScopeTracker) (ps : List Piece) :
    t.dispatchAll ps s = t.dispatchAll ps s' := by
  induction ps generalizing t with
  | nil => rfl
  | cons p ps ih => rw [dispatchAll_cons, dispatchAll_cons, dispatchToken_alike h, ih]

theorem fusedNavPosition_alike (t : ScopeTracker) : t.fusedNavPosition s = t.fusedNavPosition s' := by
  simp only [fusedNavPosition, navFromMember, h.resolve]

theorem legalAt_alike (pos : L2Position) (pfx : Bytes) (columns : List Bytes) (bytes : Bytes) :
    legalAt s pos pfx columns bytes = legalAt s' pos pfx columns bytes := by
  cases pos with
  | sourceIdent =>
    have hnames : {n | n ∈ s.sourcePaths ++ [letKeyword]} =
        {n | n ∈ s'.sourcePaths ++ [letKeyword]} := by
      ext n
      simp only [Set.mem_ofPred_eq, List.mem_append, h.sources]
    rw [legalAt_rule rule_sourceIdent, legalAt_rule rule_sourceIdent]
    refine Bool.eq_iff_iff.mpr ?_
    rw [keepsFrom_iff, keepsFrom_iff, hnames]
  | member cls => rw [legalAt_rule rule_member, legalAt_rule rule_member, h.members]
  | reValue tc => cases tc <;> rfl
  | _ => rfl

theorem legalFused_alike (pos : L2Position) (columns : List Bytes) (bytes : Bytes) :
    legalFused s pos columns bytes = legalFused s' pos columns bytes := by
  cases pos with
  | member cls => simp only [legalFused, h.members]
  | _ => rfl

end

namespace Session

/-! ## Two sessions -/

/-- The calls of a session without a schema have the same stream. -/
theorem Beside.stream {t s : Session} (h : t.Beside s) (toks : List Bytes) (calls : List Call) :
    t.stream toks calls = s.stream toks calls := by
  induction calls generalizing t s toks with
  | nil => rfl
  | cons c rest ih =>
    obtain ⟨hout, hnext⟩ := h.call c
    have hstep : t.streamStep toks c = s.streamStep toks c := by
      cases c with
      | accept id =>
        have hverdict : (t.callAcceptToken id).2 = (s.callAcceptToken id).2 := Option.some.inj hout
        rw [streamStep, streamStep, hverdict, h.vocab]
      | _ => rfl
    rw [Session.stream, Session.stream, hstep]
    exact ih hnext _

/-- The two sessions are at the end of the same tokens, over schemas that
answer alike. -/
structure Twins (s f : Session) : Prop where
  pda : s.pda = f.pda
  legal : ∀ bytes, s.legal bytes = f.legal bytes
  memo : s.MemoValid
  memo' : f.MemoValid

theorem Twins.allows {s f : Session} (h : s.Twins f) {id id' : Nat} (hid : id < s.grammar.eosBit)
    (hid' : id' < f.grammar.eosBit)
    (hbytes : s.grammar.vocab.bytesOrEmpty id = f.grammar.vocab.bytesOrEmpty id') :
    s.allows id = f.allows id' := by
  refine Bool.eq_iff_iff.mpr ?_
  rw [allows_iff h.memo, allows_iff h.memo', h.pda, h.legal, hbytes]
  simp [hid, hid', hid.ne, hid'.ne]

theorem Twins.eos {s f : Session} (h : s.Twins f) :
    s.allows s.grammar.eosBit = f.allows f.grammar.eosBit := by
  rw [allows_eosBit h.memo, allows_eosBit h.memo', isComplete, isComplete, h.pda]

theorem twins_runCalls {g g' : CompiledGrammar} {schema schema' : Schema} (h : schema.Alike schema')
    {calls calls' : List Call}
    (hstream : (build g (some schema)).stream [] calls = (build g' (some schema')).stream [] calls') :
    ((build g (some schema)).runCalls calls).1.Twins
      ((build g' (some schema')).runCalls calls').1 := by
  have hs := (afterTokens_build g schema).runCalls calls
  have hf := (afterTokens_build g' schema').runCalls calls'
  have hmemo := memoValid_runCalls g schema calls
  have hmemo' := memoValid_runCalls g' schema' calls'
  obtain ⟨l, ps, htoks, -, hpda, htracker⟩ := pieces_of_drive hs.driven
  obtain ⟨l', ps', htoks', -, hpda', htracker'⟩ := pieces_of_drive hf.driven
  have hsame := htoks.symm.trans ((congrArg Lexer.start.tokens hstream).trans htoks')
  simp only [Option.some.injEq, Prod.mk.injEq] at hsame
  obtain ⟨rfl, rfl⟩ := hsame
  have hdispatch : ((build g (some schema)).runCalls calls).1.tracker =
      ((build g' (some schema')).runCalls calls').1.tracker := by
    rw [htracker, htracker', dispatchAll_alike h]
  have hstate := hpda.trans hpda'.symm
  refine ⟨hstate, fun bytes => ?_, hmemo, hmemo'⟩
  unfold Session.legal
  rw [hs.schema_eq, hf.schema_eq, hdispatch, hstate]
  dsimp only
  rw [legalAt_alike h, fusedNavPosition_alike h]
  simp only [legalFused_alike h]

theorem twins_runCalls_none {g g' : CompiledGrammar} {calls calls' : List Call}
    (hstream : (build g none).stream [] calls = (build g' none).stream [] calls') :
    ((build g none).runCalls calls).1.Twins ((build g' none).runCalls calls').1 := by
  have h := Beside.build g (some emptySchema)
  have h' := Beside.build g' (some emptySchema)
  rw [← h.stream, ← h'.stream] at hstream
  have htwins := twins_runCalls (.refl emptySchema) hstream
  obtain ⟨-, hrun⟩ := h.runCalls calls
  obtain ⟨-, hrun'⟩ := h'.runCalls calls'
  refine ⟨hrun.pda.symm.trans (htwins.pda.trans hrun'.pda), fun bytes => ?_,
    memoValid_of_none hrun.syntactic, memoValid_of_none hrun'.syntactic⟩
  unfold Session.legal
  rw [hrun.syntactic, hrun'.syntactic]

/-- **What a mask bit is a function of.** Take two grammars, schemas that
answer alike or none, and any two runs of calls that have accepted the same
token strings since the last reset. Tokens of the same bytes have the same
bit in the two masks, whatever their ids and whatever else the vocabularies
hold, and the EOS bits are equal. -/
theorem bit_origin {g g' : CompiledGrammar} {schema schema' : Option Schema}
    (halike : Option.Rel Schema.Alike schema schema') {calls calls' : List Call}
    (hstream : (build g schema).stream [] calls = (build g' schema').stream [] calls') :
    (∀ id < g.eosBit, ∀ id' < g'.eosBit, g.vocab.bytesOrEmpty id = g'.vocab.bytesOrEmpty id' →
      ((build g schema).runCalls calls).1.allows id =
        ((build g' schema').runCalls calls').1.allows id') ∧
    ((build g schema).runCalls calls).1.allows g.eosBit =
      ((build g' schema').runCalls calls').1.allows g'.eosBit := by
  have htwins : ((build g schema).runCalls calls).1.Twins
      ((build g' schema').runCalls calls').1 := by
    cases halike with
    | some h => exact twins_runCalls h hstream
    | none => exact twins_runCalls_none hstream
  have hvocab : ((build g schema).runCalls calls).1.grammar.vocab = g.vocab := vocab_runCalls _ calls
  have hvocab' : ((build g' schema').runCalls calls').1.grammar.vocab = g'.vocab :=
    vocab_runCalls _ calls'
  have heos := htwins.eos
  simp only [CompiledGrammar.eosBit, hvocab, hvocab'] at heos
  refine ⟨fun id hid id' hid' hbytes => htwins.allows ?_ ?_ ?_, heos⟩
  · rwa [CompiledGrammar.eosBit, hvocab]
  · rwa [CompiledGrammar.eosBit, hvocab']
  · rwa [hvocab, hvocab']

/-- A schema with the given classes in the order of the list, each with one
property. -/
def tableOf (classes : List (Bytes × Bytes)) : SchemaData where
  dbPath := ascii "Db"
  classes := classes.foldl (fun table c =>
    table.insert c.1 ⟨[⟨c.2, .primitive .string, ⟨1, some 1⟩⟩], [], []⟩) ∅
  associations := []

/-- `A` with `n` and `B` with `s`. -/
def twoClasses : List (Bytes × Bytes) := [(ascii "A", ascii "n"), (ascii "B", ascii "s")]

theorem perm_tableOf : (tableOf twoClasses).classes.entries.Perm
    (tableOf twoClasses.reverse).classes.entries := by decide +kernel

/-- The same two tokens under other ids, next to a third one, and the class
table in another order. -/
theorem bit_origin_renumbered :
    ((build (.compile ⟨[ascii "|A.all()", ascii "->"], 2⟩)
        (some (.ofData (tableOf twoClasses)))).runCalls [.accept 0]).1.allows 1 =
      ((build (.compile ⟨[ascii "->", ascii "x", ascii "|A.all()"], 3⟩)
        (some (.ofData (tableOf twoClasses.reverse)))).runCalls [.mask, .accept 2]).1.allows 0 ∧
    ((build (.compile ⟨[ascii "|A.all()", ascii "->"], 2⟩)
        (some (.ofData (tableOf twoClasses)))).runCalls [.accept 0]).1.allows 1 = true := by
  have halike : Option.Rel Schema.Alike (some (.ofData (tableOf twoClasses)))
      (some (.ofData (tableOf twoClasses.reverse))) :=
    .some (Schema.alike_of_perm rfl rfl perm_tableOf)
  have hstream : (build (.compile ⟨[ascii "|A.all()", ascii "->"], 2⟩)
        (some (.ofData (tableOf twoClasses)))).stream [] [.accept 0] =
      (build (.compile ⟨[ascii "->", ascii "x", ascii "|A.all()"], 3⟩)
        (some (.ofData (tableOf twoClasses.reverse)))).stream [] [.mask, .accept 2] := by
    decide +kernel
  exact ⟨(bit_origin halike hstream).1 1 (by decide +kernel) 0 (by decide +kernel) rfl,
    by decide +kernel⟩

/-- **The order of the class table is never seen.** Whatever order the
classes come in, every call has the same verdict and every mask the same
bits. -/
theorem class_order (g : CompiledGrammar) {data data' : SchemaData}
    (hdb : data.dbPath = data'.dbPath) (hassoc : data.associations = data'.associations)
    (hperm : data.classes.entries.Perm data'.classes.entries) (calls : List Call) :
    ((build g (some (.ofData data))).runCalls calls).2 =
      ((build g (some (.ofData data'))).runCalls calls).2 ∧
    ∀ id, ((build g (some (.ofData data))).runCalls calls).1.allows id =
      ((build g (some (.ofData data'))).runCalls calls).1.allows id := by
  have h := Beside.build g (some (.ofData data))
  have h' := Beside.build g (some (.ofData data'))
  obtain ⟨houts, -⟩ := h.runCalls calls
  obtain ⟨houts', -⟩ := h'.runCalls calls
  have hstream := (h.stream [] calls).trans (h'.stream [] calls).symm
  have htwins := twins_runCalls (Schema.alike_of_perm hdb hassoc hperm) hstream
  refine ⟨houts.trans houts'.symm, fun id => ?_⟩
  have hvocab := (vocab_runCalls (build g (some (.ofData data))) calls).trans
    (vocab_runCalls (build g (some (.ofData data'))) calls).symm
  refine Bool.eq_iff_iff.mpr ?_
  rw [allows_iff htwins.memo, allows_iff htwins.memo', CompiledGrammar.eosBit,
    CompiledGrammar.eosBit, hvocab, htwins.pda, htwins.legal]

/-- Tokens up to a member of `A`, and the two members. -/
def memberTokens : CompiledGrammar :=
  .compile ⟨[ascii "|A.all()", ascii "->filter(x|", ascii "$x.", ascii "n", ascii "s"], 5⟩

/-- After `|A.all()->filter(x|$x.`, with `A` before or behind `B` in the
table, `n` goes on and `s` does not. -/
theorem class_order_two :
    ((build memberTokens (some (.ofData (tableOf twoClasses)))).runCalls
        [.accept 0, .mask, .accept 1, .accept 2]).2 =
      ((build memberTokens (some (.ofData (tableOf twoClasses.reverse)))).runCalls
        [.accept 0, .mask, .accept 1, .accept 2]).2 ∧
    (∀ id, ((build memberTokens (some (.ofData (tableOf twoClasses)))).runCalls
        [.accept 0, .mask, .accept 1, .accept 2]).1.allows id =
      ((build memberTokens (some (.ofData (tableOf twoClasses.reverse)))).runCalls
        [.accept 0, .mask, .accept 1, .accept 2]).1.allows id) ∧
    [3, 4].map ((build memberTokens (some (.ofData (tableOf twoClasses)))).runCalls
        [.accept 0, .mask, .accept 1, .accept 2]).1.allows = [true, false] := by
  have hdb : (tableOf twoClasses).dbPath = (tableOf twoClasses.reverse).dbPath := rfl
  obtain ⟨houts, hbits⟩ :=
    class_order memberTokens hdb rfl perm_tableOf [.accept 0, .mask, .accept 1, .accept 2]
  exact ⟨houts, hbits, by decide +kernel⟩

end Session

end PureCard
