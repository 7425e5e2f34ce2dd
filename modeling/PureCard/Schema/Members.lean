/-
PureCard.Schema.Members — the members of a class, listed and resolved
(`src/schema/model.rs`).

`collect_members` and `resolve_in` are two depth-first searches over the
super-types: the first runs to its end and gathers names, the second stops
at the first member of the name it looks for. `collectMembers_eq` and
`resolveIn_eq` say so, and what either finds is then what some class
within reach declares.

`MemberOf` is that declaration, read off the wire form: a stored property,
a qualified one, or the property of an association end, seen from the
class at the OPPOSITE end and leading to the class at its own.
-/
import PureCard.Lib.DepthFirst
import PureCard.Schema.Model
import Mathlib.Data.List.Induction

namespace PureCard

/-! ## What a schema declares -/

/-- The two ends of an association, in either order. -/
def SchemaData.Opposite (data : SchemaData) (near far : AssociationEnd) : Prop :=
  ∃ assoc ∈ data.associations, assoc.ends = (near, far) ∨ assoc.ends = (far, near)

/-- A defined class names the super-type. -/
def SchemaData.SuperType (data : SchemaData) (cls parent : Bytes) : Prop :=
  ∃ info, data.classes.lookup cls = some info ∧ parent ∈ info.superTypes

/-- Zero or more super-type steps through defined classes. -/
def SchemaData.Inherits (data : SchemaData) : Bytes → Bytes → Prop :=
  Relation.ReflTransGen data.SuperType

/-- `ident` is a member the class itself has, and what it leads to. -/
inductive SchemaData.MemberOf (data : SchemaData) (cls ident : Bytes) : Resolved → Prop where
  | property {info : ClassInfo} {prop : PropertySpec} (hinfo : data.classes.lookup cls = some info)
      (hprop : prop ∈ info.properties) (hname : prop.name = ident) :
      MemberOf data cls ident (Schema.resolvedFrom prop.ty prop.mult)
  | qualified {info : ClassInfo} {qprop : QualifiedPropertySpec}
      (hinfo : data.classes.lookup cls = some info) (hprop : qprop ∈ info.qualifiedProperties)
      (hname : qprop.name = ident) :
      MemberOf data cls ident (Schema.resolvedFrom qprop.returnType qprop.returnMult)
  | navigation {near far : AssociationEnd} (hends : data.Opposite near far)
      (hnear : near.targetClass = cls) (hname : far.propertyName = ident) :
      MemberOf data cls ident (.cls far.targetClass far.mult)

namespace Schema

theorem navSteps_pushStep (navigable : ClassMap (List NavStep)) (cls key : Bytes)
    (step : NavStep) :
    ((pushStep navigable cls step).lookup key).getD [] =
      (navigable.lookup key).getD [] ++ if key = cls then [step] else [] := by
  by_cases h : key = cls
  · subst h
    simp [pushStep]
  · simp [pushStep, AList.lookup_insert_ne h, h]

/-- The steps out of a class are the far ends of its associations. -/
theorem mem_navSteps {data : SchemaData} {cls : Bytes} {step : NavStep} :
    step ∈ (ofData data).navSteps cls ↔
      ∃ near far, data.Opposite near far ∧ near.targetClass = cls ∧
        step = ⟨far.propertyName, far.targetClass, far.mult⟩ := by
  have hfold : ∀ (assocs : List AssociationSpec),
      step ∈ ((buildNavigable assocs).lookup cls).getD [] ↔
        ∃ assoc ∈ assocs, ∃ near far,
          (assoc.ends = (near, far) ∨ assoc.ends = (far, near)) ∧ near.targetClass = cls ∧
            step = ⟨far.propertyName, far.targetClass, far.mult⟩ := by
    intro assocs
    induction assocs using List.reverseRecOn with
    | nil => simp [buildNavigable]
    | append_singleton assocs assoc ih =>
      obtain ⟨e0, e1⟩ := assoc
      rw [buildNavigable, List.foldl_append]
      show step ∈ ((pushStep (pushStep (buildNavigable assocs) _ _) _ _).lookup cls).getD [] ↔ _
      rw [navSteps_pushStep, navSteps_pushStep, List.mem_append, List.mem_append, ih]
      constructor
      · rintro ((hold | hnew) | hnew)
        · obtain ⟨assoc, hassoc, hends⟩ := hold
          exact ⟨assoc, by simp [hassoc], hends⟩
        · split at hnew
          · rename_i hcls
            exact ⟨_, by simp, e0, e1, .inl rfl, hcls.symm, List.mem_singleton.mp hnew⟩
          · cases hnew
        · split at hnew
          · rename_i hcls
            exact ⟨_, by simp, e1, e0, .inr rfl, hcls.symm, List.mem_singleton.mp hnew⟩
          · cases hnew
      · rintro ⟨assoc, hassoc, near, far, hends, hcls, hstep⟩
        rcases List.mem_append.mp hassoc with hold | hnew
        · exact .inl (.inl ⟨assoc, hold, near, far, hends, hcls, hstep⟩)
        · rw [List.mem_singleton.mp hnew] at hends
          rcases hends with hends | hends
          · obtain ⟨rfl, rfl⟩ := Prod.mk.inj hends
            exact .inl (.inr (by simp [hcls, hstep]))
          · obtain ⟨rfl, rfl⟩ := Prod.mk.inj hends
            exact .inr (by simp [hcls, hstep])
  rw [navSteps, ofData, hfold]
  constructor
  · rintro ⟨assoc, hassoc, near, far, hends, hcls, hstep⟩
    exact ⟨near, far, ⟨assoc, hassoc, hends⟩, hcls, hstep⟩
  · rintro ⟨near, far, ⟨assoc, hassoc, hends⟩, hcls, hstep⟩
    exact ⟨assoc, hassoc, near, far, hends, hcls, hstep⟩

/-! ## The two searches -/

/-- The super-types of a defined class. -/
def superTypes (s : Schema) (cls : Bytes) : List Bytes :=
  ((s.classInfo cls).map ClassInfo.superTypes).getD []

/-- The names a class declares before its super-types are visited. -/
def ownNames (s : Schema) (cls : Bytes) : List Bytes :=
  match s.classInfo cls with
  | none => []
  | some info =>
    info.properties.map PropertySpec.name ++
      info.qualifiedProperties.map QualifiedPropertySpec.name

/-- What `ident` names among them. -/
def ownResolved (s : Schema) (ident cls : Bytes) : Option Resolved :=
  (s.classInfo cls).bind fun info => ownMember info ident

/-- What `ident` names among the steps out of a class. -/
def navResolved (s : Schema) (ident cls : Bytes) : Option Resolved :=
  ((s.navSteps cls).find? (·.prop == ident)).map fun step => .cls step.target step.mult

/-- `collect_members` gathers and never stops. -/
def memberSearch (s : Schema) : Search Bytes (List Bytes) where
  next := s.superTypes
  enter cls names := names ++ s.ownNames cls
  leave cls names := names ++ (s.navSteps cls).map NavStep.prop
  halted _ := false

/-- `resolve_in` stops at the first find. -/
def resolveSearch (s : Schema) (ident : Bytes) : Search Bytes (Option Resolved) where
  next := s.superTypes
  enter cls found := found.or (s.ownResolved ident cls)
  leave cls found := found.or (s.navResolved ident cls)
  halted found := found.isSome

theorem collectMembers_eq (s : Schema) :
    ∀ (fuel : Nat) (cls : Bytes) (acc : List Bytes × List Bytes),
      s.collectMembers fuel cls acc = s.memberSearch.visit fuel cls acc := by
  intro fuel
  induction fuel with
  | zero => intro cls acc; rfl
  | succ fuel ih =>
    rintro cls ⟨names, visited⟩
    have hloop : (fun acc parent => s.collectMembers fuel parent acc) =
        fun acc parent => if s.memberSearch.halted acc.1 then acc
          else s.memberSearch.visit fuel parent acc := by
      funext acc parent
      exact ih parent acc
    rw [collectMembers, Search.visit, hloop]
    cases hinfo : s.classInfo cls with
    | none => simp [memberSearch, superTypes, ownNames, hinfo]
    | some info => simp [memberSearch, superTypes, ownNames, hinfo]

/-- One parent of the loop in `resolve_in`: nothing is looked up once the
member is found. -/
def orResolve (next : List Bytes → Option Resolved × List Bytes) :
    Option Resolved × List Bytes → Option Resolved × List Bytes
  | (some found, visited) => (some found, visited)
  | (none, visited) => next visited

theorem resolveIn_eq (s : Schema) (ident : Bytes) :
    ∀ (fuel : Nat) (cls : Bytes) (visited : List Bytes),
      s.resolveIn fuel cls ident visited =
        (s.resolveSearch ident).visit fuel cls (none, visited) := by
  intro fuel
  induction fuel with
  | zero => intro cls visited; rfl
  | succ fuel ih =>
    intro cls visited
    have hloop : (fun acc parent => orResolve (s.resolveIn fuel parent ident) acc) =
        fun acc parent => if (s.resolveSearch ident).halted acc.1 then acc
          else (s.resolveSearch ident).visit fuel parent acc := by
      funext acc parent
      obtain ⟨found, visited⟩ := acc
      cases found with
      | none => exact ih parent visited
      | some found => rfl
    rw [resolveIn, Search.visit]
    split
    · rfl
    · cases hinfo : s.classInfo cls with
      | none =>
        have hnext : (s.resolveSearch ident).next cls = [] := by
          simp [resolveSearch, superTypes, hinfo]
        have henter : (s.resolveSearch ident).enter cls none = none := by
          simp [resolveSearch, ownResolved, hinfo]
        rw [hnext, henter]
        rfl
      | some info =>
        have hnext : (s.resolveSearch ident).next cls = info.superTypes := by
          simp [resolveSearch, superTypes, hinfo]
        have henter : (s.resolveSearch ident).enter cls none = ownMember info ident := by
          simp [resolveSearch, ownResolved, hinfo]
        rw [hnext, henter]
        cases hown : ownMember info ident with
        | none =>
          simp only [hown]
          rw [← hloop]
          split
          · rename_i found hfold
            have hfold' : (info.superTypes.foldl
                (fun acc parent => orResolve (s.resolveIn fuel parent ident) acc)
                (none, visited ++ [cls])).1 = some found := hfold
            rw [hfold']
            rfl
          · rename_i hfold
            have hfold' : (info.superTypes.foldl
                (fun acc parent => orResolve (s.resolveIn fuel parent ident) acc)
                (none, visited ++ [cls])).1 = none := hfold
            rw [hfold']
            rfl
        | some found =>
          simp only [hown]
          rw [Search.foldl_halted _ rfl]
          rfl

/-! ## Both searches end -/

theorem superTypes_of_not_mem {s : Schema} {cls : Bytes} (h : cls ∉ s.classes.keys) :
    s.superTypes cls = [] := by
  have hnone : s.classInfo cls = none := AList.lookup_eq_none.mpr h
  simp [superTypes, hnone]

theorem unseen_lt_walkFuel (s : Schema) : Search.unseen s.classes.keys [] < s.walkFuel := by
  have hle : Search.unseen s.classes.keys [] ≤ s.classes.keys.length := List.length_filter_le _ _
  rw [walkFuel]
  omega

theorem visits_memberNames (s : Schema) (cls : Bytes) :
    s.memberSearch.Visits [cls] ([], []) (s.collectMembers s.walkFuel cls ([], [])) := by
  rw [collectMembers_eq]
  exact Search.visits_visit _ (fun _ => superTypes_of_not_mem) _ _ _ s.unseen_lt_walkFuel rfl

theorem visits_resolve (s : Schema) (cls ident : Bytes) :
    (s.resolveSearch ident).Visits [cls] (none, []) (s.resolveIn s.walkFuel cls ident []) := by
  rw [resolveIn_eq]
  exact Search.visits_visit _ (fun _ => superTypes_of_not_mem) _ _ _ s.unseen_lt_walkFuel rfl

/-! ## What they find -/

theorem reports_memberSearch (s : Schema) (ident : Bytes) :
    Search.Reports s.memberSearch (fun names => ident ∈ names) (fun cls => ident ∈ s.ownNames cls)
      (fun cls => ident ∈ (s.navSteps cls).map NavStep.prop) where
  enter _ _ := List.mem_append
  leave _ _ := List.mem_append
  halted _ h := by cases h
  keep _ _ h := h

theorem reports_resolveSearch (s : Schema) (ident : Bytes) :
    Search.Reports (s.resolveSearch ident) (fun found => found.isSome = true)
      (fun cls => (s.ownResolved ident cls).isSome = true)
      (fun cls => (s.navResolved ident cls).isSome = true) where
  enter _ found := by cases found <;> simp [resolveSearch]
  leave _ found := by cases found <;> simp [resolveSearch]
  halted _ h := h
  keep _ found h := by cases found <;> simp_all [resolveSearch]

theorem isSome_ownResolved (s : Schema) (ident cls : Bytes) :
    (s.ownResolved ident cls).isSome = true ↔ ident ∈ s.ownNames cls := by
  rw [ownResolved, ownNames]
  cases s.classInfo cls with
  | none => simp
  | some info =>
    show (ownMember info ident).isSome = true ↔ _
    rw [ownMember]
    cases hprop : info.properties.find? (·.name == ident) with
    | some prop =>
      have hname : prop.name = ident := by simpa using List.find?_some hprop
      have hmem := List.mem_of_find?_eq_some hprop
      simp only [Option.isSome_some, true_iff, List.mem_append, List.mem_map]
      exact .inl ⟨prop, hmem, hname⟩
    | none =>
      simp only [List.find?_eq_none, beq_iff_eq] at hprop
      simp only [Option.isSome_map, List.find?_isSome, beq_iff_eq, List.mem_append, List.mem_map]
      constructor
      · exact .inr
      · rintro (⟨prop, hmem, hname⟩ | hqual)
        · exact absurd hname (hprop prop hmem)
        · exact hqual

theorem isSome_navResolved (s : Schema) (ident cls : Bytes) :
    (s.navResolved ident cls).isSome = true ↔ ident ∈ (s.navSteps cls).map NavStep.prop := by
  simp only [navResolved, Option.isSome_map, List.find?_isSome, beq_iff_eq, List.mem_map]

/-- Along the super-types of the schema and along those of its wire form. -/
theorem reaches_iff {data : SchemaData} {cls cls' : Bytes} :
    (ofData data).memberSearch.Reaches cls cls' ↔ data.Inherits cls cls' := by
  have hstep : (fun c parent => parent ∈ (ofData data).superTypes c) = data.SuperType := by
    funext c parent
    rw [superTypes, classInfo, ofData, SchemaData.SuperType]
    cases data.classes.lookup c <;> simp
  show Relation.ReflTransGen (fun c parent => parent ∈ (ofData data).superTypes c) cls cls' ↔ _
  rw [hstep]
  rfl

theorem memberOf_ownResolved {data : SchemaData} {cls ident : Bytes} {r : Resolved}
    (h : (ofData data).ownResolved ident cls = some r) : data.MemberOf cls ident r := by
  obtain ⟨info, hinfo, hown⟩ := Option.bind_eq_some_iff.mp h
  rw [ownMember] at hown
  cases hprop : info.properties.find? (·.name == ident) with
  | some prop =>
    have hname : prop.name = ident := by simpa using List.find?_some hprop
    rw [hprop, Option.some.injEq] at hown
    rw [← hown]
    exact .property hinfo (List.mem_of_find?_eq_some hprop) hname
  | none =>
    rw [hprop] at hown
    obtain ⟨qprop, hqual, rfl⟩ := Option.map_eq_some_iff.mp hown
    have hname : qprop.name = ident := by simpa using List.find?_some hqual
    exact .qualified hinfo (List.mem_of_find?_eq_some hqual) hname

theorem memberOf_navResolved {data : SchemaData} {cls ident : Bytes} {r : Resolved}
    (h : (ofData data).navResolved ident cls = some r) : data.MemberOf cls ident r := by
  obtain ⟨step, hstep, rfl⟩ := Option.map_eq_some_iff.mp h
  have hname : step.prop = ident := by simpa using List.find?_some hstep
  obtain ⟨near, far, hends, hnear, rfl⟩ := mem_navSteps.mp (List.mem_of_find?_eq_some hstep)
  exact .navigation hends hnear hname

/-- A class has a member of the name exactly when it declares the name or
an association end brings it. -/
theorem memberOf_iff {data : SchemaData} {cls ident : Bytes} :
    (∃ r, data.MemberOf cls ident r) ↔
      ident ∈ (ofData data).ownNames cls ∨
        ident ∈ ((ofData data).navSteps cls).map NavStep.prop := by
  constructor
  · rintro ⟨r, hr⟩
    cases hr with
    | @property info prop hinfo hprop hname =>
      have hinfo' : (ofData data).classInfo cls = some info := hinfo
      left
      rw [ownNames, hinfo']
      exact List.mem_append_left _ (List.mem_map.mpr ⟨prop, hprop, hname⟩)
    | @qualified info qprop hinfo hqual hname =>
      have hinfo' : (ofData data).classInfo cls = some info := hinfo
      left
      rw [ownNames, hinfo']
      exact List.mem_append_right _ (List.mem_map.mpr ⟨qprop, hqual, hname⟩)
    | navigation hends hnear hname =>
      right
      exact List.mem_map.mpr ⟨_, mem_navSteps.mpr ⟨_, _, hends, hnear, rfl⟩, hname⟩
  · rintro (hown | hnav)
    · obtain ⟨r, hr⟩ := Option.isSome_iff_exists.mp ((isSome_ownResolved _ _ _).mpr hown)
      exact ⟨r, memberOf_ownResolved hr⟩
    · obtain ⟨r, hr⟩ := Option.isSome_iff_exists.mp ((isSome_navResolved _ _ _).mpr hnav)
      exact ⟨r, memberOf_navResolved hr⟩

/-- The listed names are those some class within reach has. -/
theorem mem_memberNames {data : SchemaData} {cls ident : Bytes} :
    ident ∈ (ofData data).memberNames cls ↔
      ∃ cls', data.Inherits cls cls' ∧ ∃ r, data.MemberOf cls' ident r := by
  have htold := (reports_memberSearch (ofData data) ident).told_iff
    (visits_memberNames (ofData data) cls)
  simp only [List.not_mem_nil, false_or, reaches_iff, ← memberOf_iff] at htold
  exact htold

/-- What is listed resolves, and nothing else does. -/
theorem isSome_resolve {s : Schema} {cls ident : Bytes} :
    (s.resolve cls ident).isSome = true ↔ ident ∈ s.memberNames cls := by
  have hfound := (reports_resolveSearch s ident).told_iff (visits_resolve s cls ident)
  have hlisted := (reports_memberSearch s ident).told_iff (visits_memberNames s cls)
  simp only [Option.isSome_none, Bool.false_eq_true, false_or, isSome_ownResolved,
    isSome_navResolved] at hfound
  simp only [List.not_mem_nil, false_or] at hlisted
  rw [resolve, hfound]
  exact hlisted.symm

/-- What an identifier resolves to is what some class within reach says of
it. -/
theorem memberOf_resolve {data : SchemaData} {cls ident : Bytes} {r : Resolved}
    (h : (ofData data).resolve cls ident = some r) :
    ∃ cls', data.Inherits cls cls' ∧ data.MemberOf cls' ident r := by
  have hfound : ∀ r, (ofData data).resolve cls ident = some r →
      ∃ cls', data.Inherits cls cls' ∧ data.MemberOf cls' ident r := by
    apply (visits_resolve (ofData data) cls ident).invariant
      (P := fun acc => ∀ r, acc.1 = some r →
        ∃ cls', data.Inherits cls cls' ∧ data.MemberOf cls' ident r)
    · rintro y found seen ⟨x, hx, hreach⟩ hfound r hr
      rw [List.mem_singleton.mp hx] at hreach
      rcases Option.or_eq_some_iff.mp hr with hold | ⟨-, hnew⟩
      · exact hfound r hold
      · exact ⟨y, reaches_iff.mp hreach, memberOf_ownResolved hnew⟩
    · rintro y found seen ⟨x, hx, hreach⟩ hfound r hr
      rw [List.mem_singleton.mp hx] at hreach
      rcases Option.or_eq_some_iff.mp hr with hold | ⟨-, hnew⟩
      · exact hfound r hold
      · exact ⟨y, reaches_iff.mp hreach, memberOf_navResolved hnew⟩
    · intro r hr
      cases hr
  exact hfound r h

/-- On every schema both searches end; they find the same identifiers,
those of the classes within reach, and a navigation leads to the class of
the end that carries its name. -/
theorem members_resolved (data : SchemaData) (cls ident : Bytes) :
    (ofData data).memberSearch.Visits [cls] ([], [])
        ((ofData data).collectMembers (ofData data).walkFuel cls ([], [])) ∧
      ((ofData data).resolveSearch ident).Visits [cls] (none, [])
        ((ofData data).resolveIn (ofData data).walkFuel cls ident []) ∧
      (((ofData data).resolve cls ident).isSome = true ↔
        ident ∈ (ofData data).memberNames cls) ∧
      (ident ∈ (ofData data).memberNames cls ↔
        ∃ cls', data.Inherits cls cls' ∧ ∃ r, data.MemberOf cls' ident r) ∧
      ∀ r, (ofData data).resolve cls ident = some r →
        ∃ cls', data.Inherits cls cls' ∧ data.MemberOf cls' ident r :=
  ⟨visits_memberNames _ cls, visits_resolve _ cls ident, isSome_resolve,
    mem_memberNames, fun _ => memberOf_resolve⟩

/-- Two classes that extend each other, a super-type that is not defined,
and an association that leads to it. -/
def cyclicData : SchemaData where
  dbPath := ascii "spider::d::Db"
  classes := AList.insert (ascii "A") ⟨[], [], [ascii "B", ascii "Z"]⟩
    (AList.insert (ascii "B") ⟨[⟨ascii "m", .primitive .string, ⟨1, some 1⟩⟩], [], [ascii "A"]⟩ ∅)
  associations :=
    [⟨(⟨ascii "back", ascii "B", ⟨1, some 1⟩⟩, ⟨ascii "forth", ascii "Z", ⟨0, none⟩⟩)⟩]

example : (ofData cyclicData).memberNames (ascii "A") = [ascii "m", ascii "forth", ascii "back"] ∧
    ((ofData cyclicData).resolve (ascii "A") (ascii "back")).bind Resolved.path? =
      some (ascii "B") := by decide

end Schema

end PureCard
