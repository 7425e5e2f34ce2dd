/-
PureCard.Schema.Model — the schema a decode is narrowed against
(`src/schema/model.rs`).

A `Schema` is the class table, the store path and the navigability map.
`Schema.ofData` is what `from_json` does once the JSON has been read: the
map is computed from the associations, each end navigable from the class
at the OTHER end.

The class table is an association list: its order is the order a traversal
of the hash map happens to take, so whatever is proved of every schema
holds of every such order.

`memberNames` and `resolve` walk the super-types under a `visited` list,
which is what bounds the walk when the super-types form a cycle. Here the
walk also counts down from the number of classes: on a chain of nested
calls the classes are distinct, so no chain is longer.
-/
import PureCard.Bytes
import Mathlib.Data.List.AList

namespace PureCard

/-! ## Types -/

/-- A primitive type name. -/
inductive PrimName where
  | integer
  | float
  | decimal
  | number
  | string
  | boolean
  | date
  | strictDate
  | dateTime
  deriving DecidableEq, Repr

/-- The operand classes the primitives collapse into. -/
inductive TypeClass where
  | numeric
  | str
  | boolean
  | temporal
  deriving DecidableEq, Repr

def PrimName.typeClass : PrimName → TypeClass
  | .integer | .float | .decimal | .number => .numeric
  | .string => .str
  | .boolean => .boolean
  | .date | .strictDate | .dateTime => .temporal

/-- A property's declared type. -/
inductive PropType where
  | primitive (name : PrimName)
  | cls (path : Bytes)
  | enum (path : Bytes)
  deriving DecidableEq, Repr

/-- A `[lower..upper]` multiplicity; `none` is `*`. -/
structure Multiplicity where
  lower : Nat
  upper : Option Nat
  deriving DecidableEq, Repr

structure PropertySpec where
  name : Bytes
  ty : PropType
  mult : Multiplicity
  deriving DecidableEq, Repr

structure QualifiedPropertySpec where
  name : Bytes
  returnType : PropType
  returnMult : Multiplicity
  deriving DecidableEq, Repr

structure ClassInfo where
  properties : List PropertySpec
  qualifiedProperties : List QualifiedPropertySpec
  superTypes : List Bytes
  deriving DecidableEq, Repr

/-- One end of an association. -/
structure AssociationEnd where
  propertyName : Bytes
  targetClass : Bytes
  mult : Multiplicity
  deriving DecidableEq, Repr

/-- An association: exactly two ends. -/
structure AssociationSpec where
  ends : AssociationEnd × AssociationEnd
  deriving DecidableEq, Repr

/-- A directed navigation step: `prop` reaches `target`. -/
structure NavStep where
  prop : Bytes
  target : Bytes
  mult : Multiplicity
  deriving DecidableEq, Repr

/-- What an identifier resolves to against a class. -/
inductive Resolved where
  | primitive (prim : PrimName) (mult : Multiplicity)
  | cls (path : Bytes) (mult : Multiplicity)
  | enum (path : Bytes) (mult : Multiplicity)
  deriving DecidableEq, Repr

/-- The class a resolved member navigates to, if any. -/
def Resolved.path? : Resolved → Option Bytes
  | .cls path _ => some path
  | _ => none

/-! ## The schema -/

/-- A map keyed by class path. -/
abbrev ClassMap (α : Type) := AList fun _ : Bytes => α

structure Schema where
  dbPath : Bytes
  classes : ClassMap ClassInfo
  navigable : ClassMap (List NavStep)

/-- The wire form, before `navigable` is computed. -/
structure SchemaData where
  dbPath : Bytes
  classes : ClassMap ClassInfo
  associations : List AssociationSpec

namespace Schema

/-- `navigable.entry(cls).or_default().push(step)`. -/
def pushStep (navigable : ClassMap (List NavStep)) (cls : Bytes) (step : NavStep) :
    ClassMap (List NavStep) :=
  navigable.insert cls ((navigable.lookup cls).getD [] ++ [step])

/-- Each association end's property is navigable from the class at the
other end. -/
def buildNavigable (associations : List AssociationSpec) : ClassMap (List NavStep) :=
  associations.foldl (fun navigable assoc =>
    let (e0, e1) := assoc.ends
    let navigable := pushStep navigable e0.targetClass ⟨e1.propertyName, e1.targetClass, e1.mult⟩
    pushStep navigable e1.targetClass ⟨e0.propertyName, e0.targetClass, e0.mult⟩) ∅

/-- `Schema::from_json` past the JSON reader. -/
def ofData (data : SchemaData) : Schema where
  dbPath := data.dbPath
  classes := data.classes
  navigable := buildNavigable data.associations

/-- `self.classes.get(cls)`. -/
def classInfo (s : Schema) (cls : Bytes) : Option ClassInfo := s.classes.lookup cls

def hasClass (s : Schema) (path : Bytes) : Bool := (s.classInfo path).isSome

/-- Every legal pipeline source: the class paths and the store path. -/
def sourcePaths (s : Schema) : List Bytes := s.classes.keys ++ [s.dbPath]

theorem mem_sourcePaths_of_hasClass {s : Schema} {path : Bytes} (h : s.hasClass path = true) :
    path ∈ s.sourcePaths :=
  List.mem_append_left _ (AList.lookup_isSome.mp h)

/-- The navigation steps out of a class. -/
def navSteps (s : Schema) (cls : Bytes) : List NavStep := (s.navigable.lookup cls).getD []

/-- `collect_members`: the names and the visited list are threaded. -/
def collectMembers (s : Schema) : Nat → Bytes → List Bytes × List Bytes → List Bytes × List Bytes
  | 0, _, acc => acc
  | fuel + 1, cls, (names, visited) =>
    if cls ∈ visited then (names, visited)
    else
      let visited := visited ++ [cls]
      let (names, visited) :=
        match s.classInfo cls with
        | none => (names, visited)
        | some info =>
          let names := names ++ info.properties.map PropertySpec.name
          let names := names ++ info.qualifiedProperties.map QualifiedPropertySpec.name
          info.superTypes.foldl (fun acc parent => s.collectMembers fuel parent acc)
            (names, visited)
      (names ++ (s.navSteps cls).map NavStep.prop, visited)

/-- No chain of nested visits is longer than this: every visit that goes
on is to a new class of the table. -/
def walkFuel (s : Schema) : Nat := s.classes.keys.length + 2

/-- The full member-name set of a class. -/
def memberNames (s : Schema) (cls : Bytes) : List Bytes :=
  (s.collectMembers s.walkFuel cls ([], [])).1

def resolvedFrom (ty : PropType) (mult : Multiplicity) : Resolved :=
  match ty with
  | .primitive name => .primitive name mult
  | .cls path => .cls path mult
  | .enum path => .enum path mult

/-- The stored and qualified properties a class declares itself. -/
def ownMember (info : ClassInfo) (ident : Bytes) : Option Resolved :=
  match info.properties.find? (·.name == ident) with
  | some prop => some (resolvedFrom prop.ty prop.mult)
  | none =>
    (info.qualifiedProperties.find? (·.name == ident)).map fun qprop =>
      resolvedFrom qprop.returnType qprop.returnMult

/-- `resolve_in`: the visited list is threaded next to the result. -/
def resolveIn (s : Schema) : Nat → Bytes → Bytes → List Bytes → Option Resolved × List Bytes
  | 0, _, _, visited => (none, visited)
  | fuel + 1, cls, ident, visited =>
    if cls ∈ visited then (none, visited)
    else
      let visited := visited ++ [cls]
      let (found, visited) :=
        match s.classInfo cls with
        | none => (none, visited)
        | some info =>
          match ownMember info ident with
          | some found => (some found, visited)
          | none =>
            info.superTypes.foldl (fun acc parent =>
              match acc with
              | (some found, visited) => (some found, visited)
              | (none, visited) => s.resolveIn fuel parent ident visited) (none, visited)
      match found with
      | some found => (some found, visited)
      | none =>
        (((s.navSteps cls).find? (·.prop == ident)).map fun step => .cls step.target step.mult,
          visited)

/-- Resolve `ident` as a member of `cls`. -/
def resolve (s : Schema) (cls ident : Bytes) : Option Resolved :=
  (s.resolveIn s.walkFuel cls ident []).1

/-! ## A sample -/

/-- Two classes and an association between them: `A` has the numeric `n`
and the string `s`, `B` the numeric `m`; `toB` leads from `A` to `B` and
`toA` back. -/
def sample : Schema :=
  let one : Multiplicity := ⟨1, some 1⟩
  let num (name : String) : PropertySpec := ⟨ascii name, .primitive .integer, one⟩
  let str (name : String) : PropertySpec := ⟨ascii name, .primitive .string, one⟩
  ofData
    { dbPath := ascii "spider::d::Db"
      classes := AList.insert (ascii "A") ⟨[num "n", str "s"], [], []⟩
        (AList.insert (ascii "B") ⟨[num "m"], [], []⟩ ∅)
      associations :=
        [⟨(⟨ascii "toB", ascii "B", ⟨0, none⟩⟩, ⟨ascii "toA", ascii "A", one⟩)⟩] }

example : sample.memberNames (ascii "A") = [ascii "n", ascii "s", ascii "toB"] := by decide

example : (sample.resolve (ascii "B") (ascii "toA")).bind Resolved.path? = some (ascii "A") := by
  decide

end Schema

end PureCard
