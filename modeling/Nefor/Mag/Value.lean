import Nefor.Mag.Types

/-! Values of the evaluator and their equality (`ast.rs`, `eval.rs`). -/
namespace Nefor.Mag
open Run (outOfFuel attempt)

/-- A double of the evaluator, told apart by its bits. -/
inductive Float64
  | finite (f : F64)
  | infinite (negative : Bool)
  | nan (negative : Bool) (payload : Fin 4503599627370495)
  deriving DecidableEq, Repr

inductive Value
  | unit
  | str (s : String)
  | int (i : Int64)
  | float (f : Float64)
  | bool (b : Bool)
  | keyword (name : String)
  | symbol (name : String)
  | list (items : List Value)
  | product (items : List Value)
  | fields (fields : List (String × Value))
  | moduleNamespace (entries : List (String × Value))
  | map (entries : List (Value × Value))
  | set (items : List Value)
  | fn (name : Option String)
  | builtinFn (name : String)
  | type (ty : MagType)
  | typeDecl (decl : TypeDecl)
  | typeTag (ty : ConcreteType)
  | typeDescriptor (ty : ConcreteType)
  | typeSchema (schema : TypeSchema)
  | semanticTypeId (id : String)
  | packedValue (value : Value)
  | jsonValue (value : Json)
  | hostInputs (value : Json)
  | artifact (value : Json)
  | adt (owner : MagType) (constructor : ConstructorDeclarationId) (payload : Value)
  | typed (value : Value) (ty : MagType)
  deriving Inhabited

namespace Value

/-- Induction over values, with every part at hand. -/
@[induction_eliminator]
theorem ind {P : Value → Prop} (unit : P .unit) (str : ∀ s, P (.str s)) (int : ∀ i, P (.int i))
    (float : ∀ f, P (.float f)) (bool : ∀ b, P (.bool b)) (keyword : ∀ s, P (.keyword s))
    (symbol : ∀ s, P (.symbol s)) (list : ∀ items, (∀ v ∈ items, P v) → P (.list items))
    (product : ∀ items, (∀ v ∈ items, P v) → P (.product items))
    (fields : ∀ fs : List (String × Value), (∀ f ∈ fs, P f.2) → P (.fields fs))
    (moduleNamespace : ∀ es : List (String × Value), (∀ e ∈ es, P e.2) → P (.moduleNamespace es))
    (map : ∀ es : List (Value × Value), (∀ e ∈ es, P e.1 ∧ P e.2) → P (.map es))
    (set : ∀ items, (∀ v ∈ items, P v) → P (.set items)) (fn : ∀ name, P (.fn name))
    (builtinFn : ∀ name, P (.builtinFn name)) (type : ∀ ty, P (.type ty))
    (typeDecl : ∀ decl, P (.typeDecl decl)) (typeTag : ∀ ty, P (.typeTag ty))
    (typeDescriptor : ∀ ty, P (.typeDescriptor ty)) (typeSchema : ∀ s, P (.typeSchema s))
    (semanticTypeId : ∀ id, P (.semanticTypeId id))
    (packedValue : ∀ v, P v → P (.packedValue v)) (jsonValue : ∀ j, P (.jsonValue j))
    (hostInputs : ∀ j, P (.hostInputs j)) (artifact : ∀ j, P (.artifact j))
    (adt : ∀ owner constructor payload, P payload → P (.adt owner constructor payload))
    (typed : ∀ v ty, P v → P (.typed v ty)) (v : Value) : P v :=
  Value.rec (motive_1 := P) (motive_2 := fun vs => ∀ v ∈ vs, P v)
    (motive_3 := fun fs => ∀ f ∈ fs, P f.2) (motive_4 := fun es => ∀ e ∈ es, P e.1 ∧ P e.2)
    (motive_5 := fun f => P f.2) (motive_6 := fun e => P e.1 ∧ P e.2)
    unit str int float bool keyword symbol list product fields moduleNamespace map set fn builtinFn
    type typeDecl typeTag typeDescriptor typeSchema semanticTypeId packedValue jsonValue hostInputs
    artifact adt typed (by simp) (fun _ _ h hr => List.forall_mem_cons.mpr ⟨h,hr⟩)
    (by simp) (fun _ _ h hr => List.forall_mem_cons.mpr ⟨h,hr⟩)
    (by simp) (fun _ _ h hr => List.forall_mem_cons.mpr ⟨h,hr⟩)
    (fun _ _ h => h) (fun _ _ hk hv => ⟨hk,hv⟩) v

def asStr : Value → Option String
  | str s => some s
  | typed value _ => value.asStr
  | _ => none

/-- `raw`: the value without its evidence. -/
def raw : Value → Value
  | typed value _ => value.raw
  | value => value

end Value

section Equality
variable (env : Env) (n : Nat)

/-- `nominal`: the outermost evidence that resolves to a named type, and what it is about. -/
def nominal : Value → Run MagError (Option (ConcreteType × Value))
  | .typed inner ty => do
    match ← attempt (ConcreteType.resolve env n ty) with
    | some concrete => if concrete.isNamed then .ok (some (concrete,inner)) else nominal inner
    | none => nominal inner
  | _ => .ok none

/-- A value without nominal evidence is compared with the raw value under `b`, which has to be
without nominal evidence too. -/
def plain (b : Value) (same : Value → Run MagError Bool) : Run MagError Bool := do
  match ← nominal env n b with
  | some _ => .ok false
  | none => same b.raw

mutual
/-- `equal`, by recursion on the value on the left: its evidence is taken off layer by layer
until one of the layers is nominal. -/
def equal : Value → Value → Run MagError Bool
  | .typed inner ty, b => do
    let concrete ← attempt (ConcreteType.resolve env n ty)
    if concrete.any ConcreteType.isNamed then
      match ← nominal env n b with
      | some (right,b) => if concrete = some right then equal inner b else .ok false
      | none => .ok false
    else equal inner b
  | .unit, b => plain env n b fun
    | .unit => .ok true
    | _ => .ok false
  | .str a, b => plain env n b fun
    | .str b => .ok (a == b)
    | _ => .ok false
  | .int a, b => plain env n b fun
    | .int b => .ok (a == b)
    | _ => .ok false
  -- bit-exact, including the sign of zero and NaN payloads
  | .float a, b => plain env n b fun
    | .float b => .ok (decide (a = b))
    | _ => .ok false
  | .bool a, b => plain env n b fun
    | .bool b => .ok (a == b)
    | _ => .ok false
  | .keyword a, b => plain env n b fun
    | .keyword b => .ok (a == b)
    | _ => .ok false
  | .symbol a, b => plain env n b fun
    | .symbol b => .ok (a == b)
    | _ => .ok false
  | .list a, b => plain env n b fun
    | .list b => if a.length = b.length then equalPositions a b else .ok false
    | _ => .ok false
  | .product a, b => plain env n b fun
    | .product b => if a.length = b.length then equalPositions a b else .ok false
    | _ => .ok false
  | .map a, b => plain env n b fun
    | .map b => if a.length = b.length then equalEntries a b else .ok false
    | _ => .ok false
  | .set a, b => plain env n b fun
    | .set b => if a.length = b.length then equalItems a b else .ok false
    | _ => .ok false
  | .fields a, b => plain env n b fun
    | .fields b => if a.length = b.length then equalFields a b else .ok false
    | _ => .ok false
  | .adt leftOwner leftConstructor leftPayload, b => plain env n b fun
    | .adt rightOwner rightConstructor rightPayload => do
      let left ← attempt (ConcreteType.resolve env n leftOwner)
      let right ← attempt (ConcreteType.resolve env n rightOwner)
      if left.isSome ∧ left = right ∧ leftConstructor = rightConstructor
      then equal leftPayload rightPayload
      else .ok false
    | _ => .ok false
  | .jsonValue a, b => plain env n b fun
    | .jsonValue b => .ok (jsonEqual a b)
    | _ => .ok false
  | _, b => plain env n b fun _ => .ok false
def equalPositions : List Value → List Value → Run MagError Bool
  | a :: as, b :: bs => do if ← equal a b then equalPositions as bs else .ok false
  | _, _ => .ok true
/-- Every entry on the left has an equal one on the right. -/
def equalEntries : List (Value × Value) → List (Value × Value) → Run MagError Bool
  | [], _ => .ok true
  | (key,value) :: rest, b => do
    let found ← b.anyM fun e => do if ← equal key e.1 then equal value e.2 else .ok false
    if found then equalEntries rest b else .ok false
def equalItems : List Value → List Value → Run MagError Bool
  | [], _ => .ok true
  | a :: rest, b => do
    let found ← b.anyM fun other => equal a other
    if found then equalItems rest b else .ok false
def equalFields : List (String × Value) → List (String × Value) → Run MagError Bool
  | [], _ => .ok true
  | (key,value) :: rest, b => do
    let same ← match b.lookup key with
      | some other => equal value other
      | none => .ok false
    if same then equalFields rest b else .ok false
end

end Equality

section Unfolding
variable {env : Env} {n : Nat}

@[simp] theorem raw_raw (v : Value) : v.raw.raw = v.raw := by
  fun_induction Value.raw v with
  | case1 value ty ih => exact ih
  | case2 value h => rw [Value.raw]; exact h

theorem nominal_raw (v : Value) : nominal env n v.raw = .ok none := by
  fun_induction Value.raw v with
  | case1 value ty ih => exact ih
  | case2 value h => rw [nominal]; exact h

theorem plain_eq (b : Value) (same : Value → Run MagError Bool) :
    plain env n b same = (do
      match ← nominal env n b with
      | some _ => .ok false
      | none => plain env n b.raw same) := by
  unfold plain
  rw [nominal_raw,raw_raw]
  rfl

/-- A value without evidence looks at the raw value on the right only. -/
theorem equal_plain {a : Value} (h : ∀ v ty, a ≠ .typed v ty) :
    ∃ same, ∀ b, equal env n a b = plain env n b same := by
  cases a with
  | typed v ty => exact absurd rfl (h v ty)
  | _ => exact ⟨_,fun b => by unfold equal; rfl⟩

/-- Equality as it is read: two nominal values are compared under equal evidence, two others by
what is under all evidence, and a nominal value is never equal to another. -/
theorem equal_eq (a b : Value) : equal env n a b = (do
    let left ← nominal env n a
    let right ← nominal env n b
    match left, right with
    | some (left,a), some (right,b) => if left = right then equal env n a b else .ok false
    | none, none => equal env n a.raw b.raw
    | _, _ => .ok false) := by
  fun_induction Value.raw a with
  | case1 inner ty ih =>
    rw [equal,nominal]
    cases attempt (ConcreteType.resolve env n ty) with
    | error e => rfl
    | ok concrete =>
      cases concrete with
      | none => exact ih
      | some c =>
        simp only [ok_bind,Option.any_some]
        by_cases hc : c.isNamed
        · rw [if_pos hc,if_pos hc,ok_bind]
          cases nominal env n b with
          | error e => rfl
          | ok right => cases right <;> simp
        · rw [if_neg hc,if_neg hc]
          exact ih
  | case2 a h =>
    obtain ⟨same,hs⟩ := @equal_plain env n _ h
    have hn : nominal env n a = .ok none := by rw [nominal]; exact h
    rw [hs,plain_eq,hn,ok_bind]
    cases nominal env n b with
    | error e => rfl
    | ok right =>
      cases right with
      | none => exact (hs b.raw).symm
      | some right => rfl

/-- Two values under the same evidence are equal when what is under it is. -/
theorem equal_typed {ty : MagType} {c : ConcreteType} (h : ConcreteType.resolve env n ty = .ok c)
    (a b : Value) : equal env n (.typed a ty) (.typed b ty) = equal env n a b := by
  by_cases hc : c.isNamed
  · have hb : nominal env n (.typed b ty) = .ok (some (c,b)) := by simp [nominal,h,hc]
    rw [equal,h]
    simp [hc,hb]
  · have hb : nominal env n (.typed b ty) = nominal env n b := by simp [nominal,h,hc]
    have hr : equal env n a (.typed b ty) = equal env n a b := by
      rw [equal_eq a (.typed b ty),equal_eq a b,hb]
      rfl
    rw [equal,h]
    simpa [hc] using hr

section Shapes

theorem equal_str (a b : String) : equal env n (.str a) (.str b) = .ok (a == b) := by
  rw [equal,plain,nominal]
  · rfl
  · nofun

theorem equal_int (a b : Int64) : equal env n (.int a) (.int b) = .ok (a == b) := by
  rw [equal,plain,nominal]
  · rfl
  · nofun

theorem equal_float (a b : Float64) :
    equal env n (.float a) (.float b) = .ok (decide (a = b)) := by
  rw [equal,plain,nominal]
  · rfl
  · nofun

theorem equal_bool (a b : Bool) : equal env n (.bool a) (.bool b) = .ok (a == b) := by
  rw [equal,plain,nominal]
  · rfl
  · nofun

theorem equal_unit : equal env n .unit .unit = .ok true := by
  rw [equal,plain,nominal]
  · rfl
  · nofun

theorem equal_jsonValue (a b : Json) :
    equal env n (.jsonValue a) (.jsonValue b) = .ok (jsonEqual a b) := by
  rw [equal,plain,nominal]
  · rfl
  · nofun

theorem equal_list (a b : List Value) : equal env n (.list a) (.list b) =
    if a.length = b.length then equalPositions env n a b else .ok false := by
  rw [equal,plain,nominal]
  · rfl
  · nofun

theorem equal_product (a b : List Value) : equal env n (.product a) (.product b) =
    if a.length = b.length then equalPositions env n a b else .ok false := by
  rw [equal,plain,nominal]
  · rfl
  · nofun

theorem equal_map (a b : List (Value × Value)) : equal env n (.map a) (.map b) =
    if a.length = b.length then equalEntries env n a b else .ok false := by
  rw [equal,plain,nominal]
  · rfl
  · nofun

theorem equal_set (a b : List Value) : equal env n (.set a) (.set b) =
    if a.length = b.length then equalItems env n a b else .ok false := by
  rw [equal,plain,nominal]
  · rfl
  · nofun

theorem equal_fields (a b : List (String × Value)) : equal env n (.fields a) (.fields b) =
    if a.length = b.length then equalFields env n a b else .ok false := by
  rw [equal,plain,nominal]
  · rfl
  · nofun

theorem equal_adt {owner : MagType} {c : ConcreteType}
    (h : ConcreteType.resolve env n owner = .ok c) (k l : ConstructorDeclarationId) (a b : Value) :
    equal env n (.adt owner k a) (.adt owner l b) =
      if k = l then equal env n a b else .ok false := by
  rw [equal,plain,nominal]
  · simp [Value.raw,h]
  · nofun

end Shapes

end Unfolding

section Fuel
variable {env : Env} {n m : Nat}

theorem ConcreteType.resolve_le (h : n ≤ m) (ty : MagType) :
    Run.Le (ConcreteType.resolve env n ty) (ConcreteType.resolve env m ty) :=
  Mag.resolve_le env h [] ty

theorem nominal_le (h : n ≤ m) (v : Value) : Run.Le (nominal env n v) (nominal env m v) := by
  induction v with
  | typed inner ty ih =>
    rw [nominal,nominal]
    refine (ConcreteType.resolve_le h ty).attempt.bind fun concrete => ?_
    cases concrete with
    | none => exact ih
    | some c =>
      dsimp only
      split
      · exact Run.Le.refl _
      · exact ih
  | _ => simp only [nominal]; exact Run.Le.refl _

theorem plain_le (h : n ≤ m) (b : Value) {r s : Value → Run MagError Bool}
    (hs : ∀ v, Run.Le (r v) (s v)) : Run.Le (plain env n b r) (plain env m b s) := by
  refine (nominal_le h b).bind fun right => ?_
  cases right with
  | none => exact hs _
  | some right => exact Run.Le.refl _

theorem equalPositions_le {as : List Value}
    (ha : ∀ a ∈ as, ∀ b, Run.Le (equal env n a b) (equal env m a b)) (bs : List Value) :
    Run.Le (equalPositions env n as bs) (equalPositions env m as bs) := by
  induction as generalizing bs with
  | nil => simp only [equalPositions]; exact Run.Le.refl _
  | cons a rest ih =>
    cases bs with
    | nil => simp only [equalPositions]; exact Run.Le.refl _
    | cons b bs =>
      rw [equalPositions,equalPositions]
      refine (ha a List.mem_cons_self b).bind fun same => ?_
      exact (ih (fun a ha' => ha a (List.mem_cons_of_mem _ ha')) bs).ite

theorem equalItems_le {as : List Value}
    (ha : ∀ a ∈ as, ∀ b, Run.Le (equal env n a b) (equal env m a b)) (bs : List Value) :
    Run.Le (equalItems env n as bs) (equalItems env m as bs) := by
  induction as with
  | nil => simp only [equalItems]; exact Run.Le.refl _
  | cons a rest ih =>
    rw [equalItems,equalItems]
    refine (Run.Le.anyM bs fun b _ => ha a List.mem_cons_self b).bind fun found => ?_
    exact (ih fun a ha' => ha a (List.mem_cons_of_mem _ ha')).ite

theorem equalEntries_le {as : List (Value × Value)}
    (ha : ∀ a ∈ as, (∀ b, Run.Le (equal env n a.1 b) (equal env m a.1 b)) ∧
      ∀ b, Run.Le (equal env n a.2 b) (equal env m a.2 b)) (bs : List (Value × Value)) :
    Run.Le (equalEntries env n as bs) (equalEntries env m as bs) := by
  induction as with
  | nil => simp only [equalEntries]; exact Run.Le.refl _
  | cons a rest ih =>
    obtain ⟨key,value⟩ := a
    obtain ⟨hk,hv⟩ := ha _ List.mem_cons_self
    rw [equalEntries,equalEntries]
    refine (Run.Le.anyM bs fun e _ => ?_).bind fun found => ?_
    · exact (hk e.1).bind fun _ => (hv e.2).ite
    · exact (ih fun a ha' => ha a (List.mem_cons_of_mem _ ha')).ite

theorem equalFields_le {as : List (String × Value)}
    (ha : ∀ a ∈ as, ∀ b, Run.Le (equal env n a.2 b) (equal env m a.2 b))
    (bs : List (String × Value)) :
    Run.Le (equalFields env n as bs) (equalFields env m as bs) := by
  induction as with
  | nil => simp only [equalFields]; exact Run.Le.refl _
  | cons a rest ih =>
    obtain ⟨key,value⟩ := a
    rw [equalFields,equalFields]
    have hrest := ih fun a ha' => ha a (List.mem_cons_of_mem _ ha')
    cases bs.lookup key with
    | none => exact Run.Le.refl _
    | some other => exact (ha _ List.mem_cons_self other).bind fun same => hrest.ite

/-- More fuel takes a comparison up. -/
theorem equal_le (h : n ≤ m) (a b : Value) : Run.Le (equal env n a b) (equal env m a b) := by
  induction a generalizing b with
  | typed inner ty ih =>
    rw [equal,equal]
    refine (ConcreteType.resolve_le h ty).attempt.bind fun concrete => ?_
    split
    · refine (nominal_le h b).bind fun right => ?_
      cases right with
      | none => exact Run.Le.refl _
      | some right => exact (ih right.2).ite
    · exact ih b
  | list items ih =>
    rw [equal,equal]
    refine plain_le h b fun v => ?_
    cases v with
    | list bs => exact (equalPositions_le ih bs).ite
    | _ => exact Run.Le.refl _
  | product items ih =>
    rw [equal,equal]
    refine plain_le h b fun v => ?_
    cases v with
    | product bs => exact (equalPositions_le ih bs).ite
    | _ => exact Run.Le.refl _
  | map entries ih =>
    rw [equal,equal]
    refine plain_le h b fun v => ?_
    cases v with
    | map bs => exact (equalEntries_le ih bs).ite
    | _ => exact Run.Le.refl _
  | set items ih =>
    rw [equal,equal]
    refine plain_le h b fun v => ?_
    cases v with
    | set bs => exact (equalItems_le ih bs).ite
    | _ => exact Run.Le.refl _
  | fields fs ih =>
    rw [equal,equal]
    refine plain_le h b fun v => ?_
    cases v with
    | fields bs => exact (equalFields_le ih bs).ite
    | _ => exact Run.Le.refl _
  | adt owner constructor payload ih =>
    rw [equal,equal]
    refine plain_le h b fun v => ?_
    cases v with
    | adt rightOwner rightConstructor rightPayload =>
      refine (ConcreteType.resolve_le h owner).attempt.bind fun left => ?_
      refine (ConcreteType.resolve_le h rightOwner).attempt.bind fun right => ?_
      exact (ih rightPayload).ite
    | _ => exact Run.Le.refl _
  | _ =>
    simp only [equal]
    exact plain_le h b fun _ => Run.Le.refl _

end Fuel

end Nefor.Mag
