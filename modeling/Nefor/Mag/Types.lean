import Mathlib.Data.List.Sort
import Nefor.Run
import Nefor.Mag.Schema

/-! Types, their declarations, and the descriptors that declarations unfold to (`types.rs`). -/
namespace Nefor.Mag

inductive MagType
  | artifact
  | jsonValue
  | typeDescriptor
  | typeSchema
  | semanticTypeId
  | packedValue
  | hostInputs
  | never
  | unit
  | bool
  | int
  | float
  | string
  | var (name : String)
  | named (name : String) (args : List MagType)
  | typeTag (ty : MagType)
  | list (item : MagType)
  | set (item : MagType)
  | emptyList
  | map (key value : MagType)
  | product (components : List MagType)
  | function (params : List MagType) (result : MagType)
  deriving Repr, Inhabited

namespace MagType

mutual
/-- `Display`. -/
def text : MagType → String
  | artifact => "Artifact"
  | jsonValue => "JsonValue"
  | typeDescriptor => "TypeDescriptor"
  | typeSchema => "TypeSchema"
  | semanticTypeId => "SemanticTypeId"
  | packedValue => "PackedValue"
  | hostInputs => "HostInputs"
  | never => "Never"
  | unit => "Unit"
  | bool => "Bool"
  | int => "Int"
  | float => "Float"
  | string => "String"
  | var name => name
  | named name args =>
    if args.isEmpty then name else "(" ++ name ++ " " ++ " ".intercalate (texts args) ++ ")"
  | typeTag ty => "(TypeTag " ++ ty.text ++ ")"
  | list item => "(List " ++ item.text ++ ")"
  | set item => "(Set " ++ item.text ++ ")"
  | emptyList => "(List _)"
  | map key value => "(Map " ++ key.text ++ " " ++ value.text ++ ")"
  | product components => "(" ++ " + ".intercalate (texts components) ++ ")"
  | function params result => "(Fn " ++ " ".intercalate (texts params ++ [result.text]) ++ ")"
def texts : List MagType → List String
  | [] => []
  | ty :: rest => ty.text :: texts rest
end

mutual
/-- `substitute`: replace the variables that are bound. -/
def substitute : MagType → List (String × MagType) → MagType
  | var name, subst => (subst.lookup name).getD (var name)
  | named name args, subst => named name (substituteAll args subst)
  | typeTag ty, subst => typeTag (ty.substitute subst)
  | list item, subst => list (item.substitute subst)
  | set item, subst => set (item.substitute subst)
  | map key value, subst => map (key.substitute subst) (value.substitute subst)
  | product components, subst => product (substituteAll components subst)
  | function params result, subst => function (substituteAll params subst) (result.substitute subst)
  | ty, _ => ty
def substituteAll : List MagType → List (String × MagType) → List MagType
  | [], _ => []
  | ty :: rest, subst => ty.substitute subst :: substituteAll rest subst
end

end MagType

/-- The arguments of a declaration by the names of its parameters; of two parameters with one
name the later counts. -/
def substitutions (params : List String) (args : List MagType) : List (String × MagType) :=
  (params.zip args).reverse

structure ConstructorDeclarationId where
  owner : String
  name : String
  deriving DecidableEq, Repr

structure ConstructorDecl where
  id : ConstructorDeclarationId
  payload : MagType
  payloadless : Bool
  deriving Repr

/-- Field types in the order of their names. -/
structure FieldTypes where
  types : List (String × MagType)
  declaredOrder : List String
  sorted : types.Pairwise fun a b => a.1 < b.1

inductive TypeDeclBody
  | fields (fields : FieldTypes)
  | transparentAlias (body : MagType)
  | nominalAlias (body : MagType)
  | adt (constructors : List ConstructorDecl)
  | native

structure TypeDecl where
  name : String
  params : List String
  body : TypeDeclBody

/-- The declarations that an environment finds by their qualified names. -/
structure Env where
  typeDecl : String → Option TypeDecl

/-- A type without variables, placeholders or functions. `Named` with a body of fields and
`Named` with the body of an alias are two constructors. -/
inductive ConcreteType
  | jsonValue
  | unit
  | bool
  | int
  | float
  | string
  | namedFields (name : String) (arguments : List ConcreteType)
      (fields : List (String × ConcreteType))
  | namedAlias (name : String) (arguments : List ConcreteType) (ty : ConcreteType)
  | adt (name : String) (arguments : List ConcreteType)
      (constructors : List (String × ConcreteType))
  | list (item : ConcreteType)
  | set (item : ConcreteType)
  | map (key value : ConcreteType)
  | product (items : List ConcreteType)
  deriving Repr, Inhabited

namespace ConcreteType

mutual
def beq : ConcreteType → ConcreteType → Bool
  | jsonValue, jsonValue => true
  | unit, unit => true
  | bool, bool => true
  | int, int => true
  | float, float => true
  | string, string => true
  | namedFields n as fs, namedFields m bs gs => n == m && beqAll as bs && beqMembers fs gs
  | namedAlias n as s, namedAlias m bs t => n == m && beqAll as bs && beq s t
  | adt n as cs, adt m bs ds => n == m && beqAll as bs && beqMembers cs ds
  | list s, list t => beq s t
  | set s, set t => beq s t
  | map k v, map l w => beq k l && beq v w
  | product as, product bs => beqAll as bs
  | _, _ => false
def beqAll : List ConcreteType → List ConcreteType → Bool
  | [], [] => true
  | s :: as, t :: bs => beq s t && beqAll as bs
  | _, _ => false
def beqMembers : List (String × ConcreteType) → List (String × ConcreteType) → Bool
  | [], [] => true
  | (n,s) :: as, (m,t) :: bs => n == m && beq s t && beqMembers as bs
  | _, _ => false
end

/-- Induction over descriptors, with every part at hand. -/
@[induction_eliminator]
theorem ind {P : ConcreteType → Prop} (jsonValue : P .jsonValue) (unit : P .unit)
    (bool : P .bool) (int : P .int) (float : P .float) (string : P .string)
    (namedFields : ∀ name (arguments : List ConcreteType) (fs : List (String × ConcreteType)),
      (∀ a ∈ arguments, P a) → (∀ f ∈ fs, P f.2) → P (.namedFields name arguments fs))
    (namedAlias : ∀ name (arguments : List ConcreteType) ty, (∀ a ∈ arguments, P a) → P ty →
      P (.namedAlias name arguments ty))
    (adt : ∀ name (arguments : List ConcreteType) (cs : List (String × ConcreteType)),
      (∀ a ∈ arguments, P a) → (∀ c ∈ cs, P c.2) → P (.adt name arguments cs))
    (list : ∀ item, P item → P (.list item)) (set : ∀ item, P item → P (.set item))
    (map : ∀ key value, P key → P value → P (.map key value))
    (product : ∀ items, (∀ c ∈ items, P c) → P (.product items)) (c : ConcreteType) : P c :=
  ConcreteType.rec (motive_1 := P) (motive_2 := fun cs => ∀ c ∈ cs, P c)
    (motive_3 := fun fs => ∀ f ∈ fs, P f.2) (motive_4 := fun f => P f.2)
    jsonValue unit bool int float string namedFields namedAlias adt list set map product
    (by simp) (by intro c rest hc hr x hx; rcases List.mem_cons.mp hx with rfl | hx; exacts [hc,hr x hx])
    (by simp) (by intro f rest hf hr x hx; rcases List.mem_cons.mp hx with rfl | hx; exacts [hf,hr x hx])
    (fun _ _ h => h) c

theorem beqAll_iff {as bs : List ConcreteType} (h : ∀ a ∈ as, ∀ b, beq a b ↔ a = b) :
    beqAll as bs ↔ as = bs := by
  induction as generalizing bs with
  | nil => cases bs <;> simp [beqAll]
  | cons a rest ih =>
    cases bs with
    | nil => simp [beqAll]
    | cons b bs =>
      rw [beqAll,Bool.and_eq_true,h a List.mem_cons_self,
        ih fun a ha => h a (List.mem_cons_of_mem _ ha),List.cons.injEq]

theorem beqMembers_iff {as bs : List (String × ConcreteType)}
    (h : ∀ a ∈ as, ∀ b, beq a.2 b ↔ a.2 = b) : beqMembers as bs ↔ as = bs := by
  induction as generalizing bs with
  | nil => cases bs <;> simp [beqMembers]
  | cons a rest ih =>
    cases bs with
    | nil => simp [beqMembers]
    | cons b bs =>
      rw [beqMembers,Bool.and_eq_true,Bool.and_eq_true,h a List.mem_cons_self,
        ih fun a ha => h a (List.mem_cons_of_mem _ ha),List.cons.injEq,Prod.ext_iff,
        beq_iff_eq]

theorem beq_iff (a b : ConcreteType) : beq a b ↔ a = b := by
  induction a generalizing b with
  | namedFields n as fs iha ihf =>
    cases b <;> simp [beq,and_assoc,beqAll_iff iha,beqMembers_iff ihf]
  | namedAlias n as s iha ih => cases b <;> simp [beq,and_assoc,beqAll_iff iha,ih]
  | adt n as cs iha ihc => cases b <;> simp [beq,and_assoc,beqAll_iff iha,beqMembers_iff ihc]
  | list s ih => cases b <;> simp [beq,ih]
  | set s ih => cases b <;> simp [beq,ih]
  | map k v ihk ihv => cases b <;> simp [beq,ihk,ihv]
  | product as iha => cases b <;> simp [beq,beqAll_iff iha]
  | _ => cases b <;> simp [beq]

instance : DecidableEq ConcreteType := fun a b => decidable_of_iff (beq a b) (beq_iff a b)

/-- `Named`, whatever its body. -/
def isNamed : ConcreteType → Bool
  | namedFields .. => true
  | namedAlias .. => true
  | _ => false

end ConcreteType

open Run (outOfFuel fail ofOption)

/-- `unsupported`. -/
def unsupported {α : Type} (name : String) : Run MagError α :=
  fail (.type (name ++ " cannot enter a concrete semantic descriptor"))

/-- `constructors.sort_by(name)`, which is stable. -/
def sortConstructors (constructors : List ConstructorDecl) : List ConstructorDecl :=
  constructors.mergeSort fun a b => decide (a.id.name ≤ b.id.name)

/-- What the body of a declaration unfolds to. -/
def resolveBody (resolve : MagType → Run MagError ConcreteType) (decl : TypeDecl) (name : String)
    (arguments : List ConcreteType) (subst : List (String × MagType)) :
    Run MagError ConcreteType :=
  match decl.body with
  | .fields fs => do
    let fields ← fs.types.mapM fun f => do
      let ty ← resolve (f.2.substitute subst)
      .ok (f.1,ty)
    .ok (.namedFields name arguments fields)
  | .transparentAlias body => resolve (body.substitute subst)
  | .nominalAlias body => do
    let ty ← resolve (body.substitute subst)
    .ok (.namedAlias name arguments ty)
  | .adt constructors => do
    let constructors ← (sortConstructors constructors).mapM fun c => do
      let payload ← resolve (c.payload.substitute subst)
      .ok (c.id.name,payload)
    .ok (.adt name arguments constructors)
  | .native => fail (.type ("native type " ++ decl.name ++
      " did not lower to its concrete representation"))

/-- `resolve`: unfold the declarations a type is made of. `resolving` holds the instances of
declarations that are being unfolded. -/
def resolve (env : Env) : Nat → List (String × List ConcreteType) → MagType →
    Run MagError ConcreteType
  | 0, _, _ => outOfFuel
  | n+1, resolving, ty => match ty with
    | .jsonValue => .ok .jsonValue
    | .unit => .ok .unit
    | .bool => .ok .bool
    | .int => .ok .int
    | .float => .ok .float
    | .string => .ok .string
    | .list item => do
      let item ← resolve env n resolving item
      .ok (.list item)
    | .set item => do
      let item ← resolve env n resolving item
      .ok (.set item)
    | .map key value => do
      let key ← resolve env n resolving key
      let value ← resolve env n resolving value
      .ok (.map key value)
    | .product items => do
      let items ← items.mapM (resolve env n resolving)
      .ok (.product items)
    | .named name args => do
      let decl ← ofOption (env.typeDecl name) (.type ("unknown nominal type " ++ name))
      if decl.params.length ≠ args.length then
        fail (.type (name ++ " expects " ++ toString decl.params.length ++
          " type arguments, got " ++ toString args.length))
      else do
        let arguments ← args.mapM (resolve env n resolving)
        if (name,arguments) ∈ resolving then
          fail (.type ("recursive semantic type " ++ name ++ " is unsupported"))
        else
          resolveBody (resolve env n ((name,arguments) :: resolving)) decl name arguments
            (substitutions decl.params args)
    | .var name => fail (.type ("unresolved type variable " ++ name ++
        " cannot enter a concrete descriptor"))
    | .emptyList =>
      fail (.type "untyped empty-list placeholder cannot enter a concrete descriptor")
    | .artifact => unsupported "Artifact"
    | .typeDescriptor => unsupported "TypeDescriptor"
    | .typeSchema => unsupported "TypeSchema"
    | .semanticTypeId => unsupported "SemanticTypeId"
    | .packedValue => unsupported "PackedValue"
    | .hostInputs => unsupported "HostInputs"
    | .never => unsupported "Never"
    | .typeTag _ => unsupported "TypeTag"
    | .function _ _ => unsupported "Fn"

/-- `ConcreteType::resolve`. -/
def ConcreteType.resolve (env : Env) (n : Nat) (ty : MagType) : Run MagError ConcreteType :=
  Mag.resolve env n [] ty

section Reify
variable (stableId : ConcreteType → String)

mutual
/-- `reify_concrete`, over the digest that names an ADT. -/
def reifyConcrete : ConcreteType → SchemaType
  | .jsonValue => .jsonValue
  | .unit => .unit
  | .bool => .bool
  | .int => .int
  | .float => .float
  | .string => .string
  | .list item => .list (reifyConcrete item)
  | .set item => .set (reifyConcrete item)
  | .map key value => .map (reifyConcrete key) (reifyConcrete value)
  | .adt name arguments constructors =>
    .adt name (stableId (.adt name arguments constructors)) (reifyMembers constructors)
  | .product items => .product (reifyItems items)
  | .namedFields name _ fields => .named name (.fields (reifyMembers fields))
  | .namedAlias name _ ty => .named name (reifyConcrete ty)
def reifyItems : List ConcreteType → List SchemaType
  | [] => []
  | c :: rest => reifyConcrete c :: reifyItems rest
def reifyMembers : List (String × ConcreteType) → List (String × SchemaType)
  | [] => []
  | (name,c) :: rest => (name,reifyConcrete c) :: reifyMembers rest
end

/-- `TypeSchema::from_concrete`. -/
def TypeSchema.fromConcrete (ty : ConcreteType) : TypeSchema :=
  ⟨schemaVersion,reifyConcrete stableId ty⟩

/-- `TypeSchema::reify`. -/
def TypeSchema.reify (env : Env) (n : Nat) (ty : MagType) : Run MagError TypeSchema := do
  let concrete ← ConcreteType.resolve env n ty
  .ok (TypeSchema.fromConcrete stableId concrete)

end Reify

theorem reifyItems_eq (stableId : ConcreteType → String) (items : List ConcreteType) :
    reifyItems stableId items = items.map (reifyConcrete stableId) := by
  induction items with
  | nil => rfl
  | cons c rest ih => rw [reifyItems,ih,List.map_cons]

theorem reifyMembers_eq (stableId : ConcreteType → String)
    (members : List (String × ConcreteType)) :
    reifyMembers stableId members = members.map fun m => (m.1,reifyConcrete stableId m.2) := by
  induction members with
  | nil => rfl
  | cons m rest ih => rw [reifyMembers,ih,List.map_cons]

section Fuel

theorem resolveBody_le {r s : MagType → Run MagError ConcreteType} (h : ∀ t, Run.Le (r t) (s t))
    (decl : TypeDecl) (name : String) (arguments : List ConcreteType)
    (subst : List (String × MagType)) :
    Run.Le (resolveBody r decl name arguments subst) (resolveBody s decl name arguments subst) := by
  unfold resolveBody
  cases decl.body with
  | fields fs =>
    refine (Run.Le.mapM fs.types fun f _ => ?_).bind fun _ => Run.Le.refl _
    exact (h _).bind fun _ => Run.Le.refl _
  | transparentAlias body => exact h _
  | nominalAlias body => exact (h _).bind fun _ => Run.Le.refl _
  | adt constructors =>
    refine (Run.Le.mapM _ fun c _ => ?_).bind fun _ => Run.Le.refl _
    exact (h _).bind fun _ => Run.Le.refl _
  | native => exact Run.Le.refl _

/-- More fuel takes a resolution up. -/
theorem resolve_le_succ (env : Env) (n : Nat) (resolving : List (String × List ConcreteType))
    (ty : MagType) : Run.Le (resolve env n resolving ty) (resolve env (n+1) resolving ty) := by
  induction n generalizing resolving ty with
  | zero => exact Run.outOfFuel_le _
  | succ n ih =>
    rw [resolve.eq_def env (n+1),resolve.eq_def env (n+2)]
    cases ty with
    | list item => exact (ih resolving item).bind fun _ => Run.Le.refl _
    | set item => exact (ih resolving item).bind fun _ => Run.Le.refl _
    | map key value =>
      exact (ih resolving key).bind fun _ => (ih resolving value).bind fun _ => Run.Le.refl _
    | product items => exact (Run.Le.mapM items fun t _ => ih resolving t).bind fun _ => Run.Le.refl _
    | named name args =>
      refine (Run.Le.refl _).bind fun decl => ?_
      split
      · exact Run.Le.refl _
      · refine (Run.Le.mapM args fun t _ => ih resolving t).bind fun arguments => ?_
        split
        · exact Run.Le.refl _
        · exact resolveBody_le (fun t => ih _ t) _ _ _ _
    | _ => exact Run.Le.refl _

theorem resolve_le (env : Env) {n m : Nat} (h : n ≤ m)
    (resolving : List (String × List ConcreteType)) (ty : MagType) :
    Run.Le (resolve env n resolving ty) (resolve env m resolving ty) := by
  induction h with
  | refl => exact Run.Le.refl _
  | step _ ih => exact ih.trans (resolve_le_succ env _ resolving ty)

end Fuel

section Inversion
variable {env : Env} {n : Nat} {resolving : List (String × List ConcreteType)} {c : ConcreteType}

theorem resolve_list {item : MagType} (h : resolve env (n+1) resolving (.list item) = .ok c) :
    ∃ i, resolve env n resolving item = .ok i ∧ c = .list i := by
  obtain ⟨i,hi,h⟩ := bind_eq_ok.mp h
  cases h; exact ⟨i,hi,rfl⟩

theorem resolve_set {item : MagType} (h : resolve env (n+1) resolving (.set item) = .ok c) :
    ∃ i, resolve env n resolving item = .ok i ∧ c = .set i := by
  obtain ⟨i,hi,h⟩ := bind_eq_ok.mp h
  cases h; exact ⟨i,hi,rfl⟩

theorem resolve_map {key value : MagType}
    (h : resolve env (n+1) resolving (.map key value) = .ok c) :
    ∃ k v, resolve env n resolving key = .ok k ∧ resolve env n resolving value = .ok v ∧
      c = .map k v := by
  obtain ⟨k,hk,h⟩ := bind_eq_ok.mp h
  obtain ⟨v,hv,h⟩ := bind_eq_ok.mp h
  cases h; exact ⟨k,v,hk,hv,rfl⟩

theorem resolve_product {items : List MagType}
    (h : resolve env (n+1) resolving (.product items) = .ok c) :
    ∃ cs, List.Forall₂ (fun t c => resolve env n resolving t = .ok c) items cs ∧
      c = .product cs := by
  obtain ⟨cs,hcs,h⟩ := bind_eq_ok.mp h
  cases h; exact ⟨cs,Run.mapM_eq_ok.mp hcs,rfl⟩

/-- A nominal type resolves through its declaration, which is not being unfolded already. -/
theorem resolve_named {name : String} {args : List MagType}
    (h : resolve env (n+1) resolving (.named name args) = .ok c) :
    ∃ decl arguments, env.typeDecl name = some decl ∧ decl.params.length = args.length ∧
      List.Forall₂ (fun t c => resolve env n resolving t = .ok c) args arguments ∧
      (name,arguments) ∉ resolving ∧
      resolveBody (resolve env n ((name,arguments) :: resolving)) decl name arguments
        (substitutions decl.params args) = .ok c := by
  obtain ⟨decl,hd,h⟩ := bind_eq_ok.mp h
  split at h
  · cases h
  · rename_i hl
    obtain ⟨arguments,ha,h⟩ := bind_eq_ok.mp h
    split at h
    · cases h
    · rename_i hr
      exact ⟨decl,arguments,Run.ofOption_eq_ok.mp hd,not_not.mp hl,Run.mapM_eq_ok.mp ha,hr,h⟩

end Inversion

theorem resolveBody_mono {r s : MagType → Run MagError ConcreteType}
    (h : ∀ t c, r t = .ok c → s t = .ok c) {decl : TypeDecl} {name : String}
    {arguments : List ConcreteType} {subst : List (String × MagType)} {c : ConcreteType}
    (hr : resolveBody r decl name arguments subst = .ok c) :
    resolveBody s decl name arguments subst = .ok c := by
  obtain ⟨dname,params,body⟩ := decl
  cases body with
  | fields fs =>
    obtain ⟨fields,hf,hr⟩ := bind_eq_ok.mp hr
    cases hr
    refine bind_eq_ok.mpr ⟨fields,Run.mapM_eq_ok.mpr ((Run.mapM_eq_ok.mp hf).imp ?_),rfl⟩
    intro f m hm
    obtain ⟨ty,ht,hm⟩ := bind_eq_ok.mp hm
    exact bind_eq_ok.mpr ⟨ty,h _ _ ht,hm⟩
  | transparentAlias body => exact h _ _ hr
  | nominalAlias body =>
    obtain ⟨ty,ht,hr⟩ := bind_eq_ok.mp hr
    exact bind_eq_ok.mpr ⟨ty,h _ _ ht,hr⟩
  | adt constructors =>
    obtain ⟨members,hm,hr⟩ := bind_eq_ok.mp hr
    cases hr
    refine bind_eq_ok.mpr ⟨members,Run.mapM_eq_ok.mpr ((Run.mapM_eq_ok.mp hm).imp ?_),rfl⟩
    intro f m hm
    obtain ⟨ty,ht,hm⟩ := bind_eq_ok.mp hm
    exact bind_eq_ok.mpr ⟨ty,h _ _ ht,hm⟩
  | native => cases hr

/-- A type that resolves while declarations are being unfolded resolves while fewer are. -/
theorem resolve_fewer {env : Env} {n : Nat} {outer inner : List (String × List ConcreteType)}
    (hs : ∀ key ∈ inner, key ∈ outer) {ty : MagType} {c : ConcreteType}
    (h : resolve env n outer ty = .ok c) : resolve env n inner ty = .ok c := by
  induction n generalizing outer inner ty c with
  | zero => cases h
  | succ n ih =>
    cases ty with
    | list item =>
      obtain ⟨i,hi,rfl⟩ := resolve_list h
      exact bind_eq_ok.mpr ⟨i,ih hs hi,rfl⟩
    | set item =>
      obtain ⟨i,hi,rfl⟩ := resolve_set h
      exact bind_eq_ok.mpr ⟨i,ih hs hi,rfl⟩
    | map key value =>
      obtain ⟨k,v,hk,hv,rfl⟩ := resolve_map h
      exact bind_eq_ok.mpr ⟨k,ih hs hk,bind_eq_ok.mpr ⟨v,ih hs hv,rfl⟩⟩
    | product items =>
      obtain ⟨cs,hcs,rfl⟩ := resolve_product h
      exact bind_eq_ok.mpr ⟨cs,Run.mapM_eq_ok.mpr (hcs.imp fun _ _ hc => ih hs hc),rfl⟩
    | named name args =>
      obtain ⟨decl,arguments,hd,hl,ha,hr,hb⟩ := resolve_named h
      have ha' := Run.mapM_eq_ok.mpr (ha.imp fun _ _ hc => ih hs hc)
      have hr' : (name,arguments) ∉ inner := fun hm => hr (hs _ hm)
      have hs' : ∀ key ∈ (name,arguments) :: inner, key ∈ (name,arguments) :: outer := by
        intro key hk
        rcases List.mem_cons.mp hk with rfl | hk
        · exact List.mem_cons_self
        · exact List.mem_cons_of_mem _ (hs key hk)
      refine bind_eq_ok.mpr ⟨decl,Run.ofOption_eq_ok.mpr hd,?_⟩
      rw [if_neg (not_not.mpr hl)]
      refine bind_eq_ok.mpr ⟨arguments,ha',?_⟩
      rw [if_neg hr']
      exact resolveBody_mono (fun t c ht => ih hs' ht) hb
    | _ => exact h

end Nefor.Mag
