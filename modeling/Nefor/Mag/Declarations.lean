import Nefor.Except
import Nefor.Json.Equality
import Nefor.Mag.Descriptor

/-! The table of all descriptors inside some descriptors, by their ids (`types.rs`, and
`descriptor_table` in `eval.rs`). -/
namespace Nefor.Mag
open BTreeMap (Sorted)

abbrev DescriptorTable := List (String × ConcreteType)

/-- SHA-256 of a document, as `sha256:` and its hexadecimal digits. -/
abbrev Hash := Json → String

/-- `stable_id`. -/
def stableId (hash : Hash) (ty : ConcreteType) : String := hash (identityJson ty)

def identityCollision (id : String) : MagError := .type ("semantic type identity collision at " ++ id)

section Table
variable (hash : Hash)

mutual
/-- `collect_declarations`. -/
def collectDeclarations (ty : ConcreteType) (declarations : DescriptorTable) :
    Except MagError DescriptorTable :=
  let id := stableId hash ty
  match declarations.lookup id with
  | some existing => if existing ≠ ty then .error (identityCollision id) else .ok declarations
  | none =>
    let declarations := BTreeMap.insert declarations id ty
    match ty with
    | .namedFields _ arguments fields => do
      let declarations ← collectAll arguments declarations
      collectMembers fields declarations
    | .namedAlias _ arguments ty => do
      let declarations ← collectAll arguments declarations
      collectDeclarations ty declarations
    | .adt _ arguments constructors => do
      let declarations ← collectAll arguments declarations
      collectMembers constructors declarations
    | .list item => collectDeclarations item declarations
    | .set item => collectDeclarations item declarations
    | .map key value => do
      let declarations ← collectDeclarations key declarations
      collectDeclarations value declarations
    | .product items => collectAll items declarations
    | _ => .ok declarations
def collectAll : List ConcreteType → DescriptorTable → Except MagError DescriptorTable
  | [], declarations => .ok declarations
  | ty :: rest, declarations => do
    let declarations ← collectDeclarations ty declarations
    collectAll rest declarations
def collectMembers : List (String × ConcreteType) → DescriptorTable → Except MagError DescriptorTable
  | [], declarations => .ok declarations
  | (_,ty) :: rest, declarations => do
    let declarations ← collectDeclarations ty declarations
    collectMembers rest declarations
end

/-- `declarations`. -/
def declarations (ty : ConcreteType) : Except MagError DescriptorTable := collectDeclarations hash ty []

/-- The inner loop of `descriptor_table`. -/
def insertDeclaration (table : DescriptorTable) (entry : String × ConcreteType) :
    Except MagError DescriptorTable :=
  let (id,declaration) := entry
  match table.lookup id with
  | some existing =>
    if existing ≠ declaration then .error (identityCollision id)
    else .ok (BTreeMap.insert table id declaration)
  | none => .ok (BTreeMap.insert table id declaration)

/-- The builtin `descriptor_table`, without its counters. -/
def descriptorTable (descriptors : List ConcreteType) : Except MagError DescriptorTable :=
  descriptors.foldlM (fun table descriptor => do
    let found ← declarations hash descriptor
    found.foldlM insertDeclaration table) []

end Table

/-! What is in a table while it grows. -/

section Growth
variable {hash : Hash}

theorem collectAll_eq (tys : List ConcreteType) (table : DescriptorTable) :
    collectAll hash tys table = tys.foldlM (fun table ty => collectDeclarations hash ty table) table := by
  induction tys generalizing table with
  | nil => rfl
  | cons ty rest ih =>
    rw [collectAll,List.foldlM_cons]
    exact bind_congr fun table => ih table

theorem collectMembers_eq (members : List (String × ConcreteType)) (table : DescriptorTable) :
    collectMembers hash members table =
      (members.map (·.2)).foldlM (fun table ty => collectDeclarations hash ty table) table := by
  induction members generalizing table with
  | nil => rfl
  | cons m rest ih =>
    rw [collectMembers,List.map_cons,List.foldlM_cons]
    exact bind_congr fun table => ih table

theorem collectDeclarations_eq (ty : ConcreteType) (table : DescriptorTable) :
    collectDeclarations hash ty table = match table.lookup (stableId hash ty) with
      | some existing => if existing ≠ ty then .error (identityCollision (stableId hash ty)) else .ok table
      | none => ty.children.foldlM (fun table ty => collectDeclarations hash ty table)
          (BTreeMap.insert table (stableId hash ty) ty) := by
  rw [collectDeclarations.eq_def]
  simp only
  cases table.lookup (stableId hash ty) with
  | some existing => rfl
  | none =>
    cases ty <;> simp only [ConcreteType.children,collectAll_eq,collectMembers_eq,List.foldlM_append,
      List.foldlM_cons,List.foldlM_nil,bind_pure] <;> rfl

/-- A descriptor is in the table under its own id. -/
def Has (hash : Hash) (table : DescriptorTable) (ty : ConcreteType) : Prop :=
  table.lookup (stableId hash ty) = some ty

def size (ty : ConcreteType) : Nat := ty.parts.length

/-- Descriptors of less than a size are in the table with all their parts. -/
def Closed (hash : Hash) (n : Nat) (table : DescriptorTable) : Prop :=
  ∀ ty, Has hash table ty → size ty < n → ∀ p ∈ ty.parts, Has hash table p

/-- Ids that are different for the descriptors of a list. -/
def Distinct (hash : Hash) (all : List ConcreteType) : Prop :=
  ∀ p ∈ all, ∀ q ∈ all, stableId hash p = stableId hash q → p = q

/-- A table of descriptors of the list `all` under their ids. -/
def Keyed (hash : Hash) (all : List ConcreteType) (table : DescriptorTable) : Prop :=
  ∀ entry ∈ table, entry.1 = stableId hash entry.2 ∧ entry.2 ∈ all

/-- A table to which nothing but the descriptors `new` was added. -/
structure Grown (hash : Hash) (all new : List ConcreteType) (table table' : DescriptorTable) : Prop where
  keyed : Keyed hash all table'
  keeps : ∀ ty, Has hash table ty → Has hash table' ty
  only : ∀ entry ∈ table', entry ∈ table ∨ entry.2 ∈ new
  has : ∀ ty ∈ new, Has hash table' ty

variable {all : List ConcreteType} {table table' table'' : DescriptorTable}

theorem Grown.refl (h : Keyed hash all table) : Grown hash all [] table table :=
  ⟨h,fun _ h => h,fun _ => .inl,fun _ h => absurd h List.not_mem_nil⟩

theorem Grown.trans {xs ys : List ConcreteType} (h : Grown hash all xs table table')
    (h' : Grown hash all ys table' table'') : Grown hash all (xs ++ ys) table table'' where
  keyed := h'.keyed
  keeps ty hty := h'.keeps ty (h.keeps ty hty)
  only entry hentry := by
    rw [List.mem_append,← or_assoc]
    exact (h'.only entry hentry).imp_left (h.only entry)
  has ty hty := (List.mem_append.mp hty).elim (fun hx => h'.keeps ty (h.has ty hx)) (h'.has ty)

/-- What is looked up under the id of a descriptor is that descriptor. -/
theorem Keyed.lookup (h : Keyed hash all table) (hd : Distinct hash all) {ty : ConcreteType}
    (hty : ty ∈ all) {existing : ConcreteType} (hl : table.lookup (stableId hash ty) = some existing) :
    existing = ty := by
  obtain ⟨hid,hmem⟩ := h _ (mem_of_lookup hl)
  exact hd existing hmem ty hty hid.symm

theorem Keyed.insert (h : Keyed hash all table) (hd : Distinct hash all) {ty : ConcreteType}
    (hty : ty ∈ all) : Grown hash all [ty] table (BTreeMap.insert table (stableId hash ty) ty) where
  keyed entry hentry := by
    obtain rfl | hmem := BTreeMap.mem_insert hentry
    · exact ⟨rfl,hty⟩
    · exact h entry hmem
  keeps other hother := by
    unfold Has
    rw [BTreeMap.lookup_insert]
    by_cases hid : stableId hash other = stableId hash ty
    · rw [if_pos hid]
      rw [Has,hid] at hother
      rw [h.lookup hd hty hother]
    · rw [if_neg hid]
      exact hother
  only entry hentry := by
    obtain rfl | hmem := BTreeMap.mem_insert hentry
    · exact .inr List.mem_cons_self
    · exact .inl hmem
  has other hother := by
    rw [List.mem_singleton.mp hother,Has,BTreeMap.lookup_insert,if_pos rfl]

theorem Keyed.has_of_mem (h : Keyed hash all table) (hd : Distinct hash all)
    {entry : String × ConcreteType} (hmem : entry ∈ table) : Has hash table entry.2 := by
  obtain ⟨hid,hall⟩ := h entry hmem
  cases hl : table.lookup (stableId hash entry.2) with
  | none =>
    rw [List.lookup_eq_none_iff] at hl
    simpa [hid] using hl entry hmem
  | some existing => rw [Has,hl,h.lookup hd hall hl]

theorem size_lt_of_mem_children {ty c : ConcreteType} (h : c ∈ ty.children) : size c < size ty := by
  unfold size
  rw [ConcreteType.parts_eq ty,List.length_cons,List.length_flatMap]
  have hle : c.parts.length ≤ (ty.children.map fun c => c.parts.length).sum :=
    List.le_sum_of_mem (List.mem_map_of_mem h)
  omega

theorem size_le_of_mem_parts {ty p : ConcreteType} (h : p ∈ ty.parts) : size p ≤ size ty := by
  induction ty using ConcreteType.ind_children with
  | h ty ih =>
    rw [ConcreteType.parts_eq,List.mem_cons,List.mem_flatMap] at h
    obtain rfl | ⟨c,hc,hp⟩ := h
    · exact Nat.le_refl _
    · exact (ih c hc hp).trans (size_lt_of_mem_children hc).le

/-- A descriptor is collected with all its parts. -/
def Collects (hash : Hash) (all : List ConcreteType) (ty : ConcreteType) : Prop :=
  ∀ table n, Keyed hash all table → Closed hash n table → size ty < n → ∃ table',
    collectDeclarations hash ty table = .ok table' ∧ Grown hash all ty.parts table table' ∧
    Closed hash n table'

theorem collects_foldlM {tys : List ConcreteType} {n : Nat} (h : ∀ ty ∈ tys, Collects hash all ty ∧ size ty < n)
    (hk : Keyed hash all table) (hc : Closed hash n table) : ∃ table',
    tys.foldlM (fun table ty => collectDeclarations hash ty table) table = .ok table' ∧
    Grown hash all (tys.flatMap ConcreteType.parts) table table' ∧ Closed hash n table' := by
  induction tys generalizing table with
  | nil => exact ⟨table,rfl,.refl hk,hc⟩
  | cons ty rest ih =>
    obtain ⟨⟨hty,hsize⟩,hrest⟩ := List.forall_mem_cons.mp h
    obtain ⟨table',hok,hgrown,hclosed⟩ := hty table n hk hc hsize
    obtain ⟨table'',hok',hgrown',hclosed'⟩ := ih hrest hgrown.keyed hclosed
    refine ⟨table'',?_,hgrown.trans hgrown',hclosed'⟩
    rw [List.foldlM_cons,hok,ok_bind,hok']

/-- By induction on the descriptor. One that is there already is there with its parts, unless it is
still being collected, and then it is larger. -/
theorem collects (hd : Distinct hash all) {ty : ConcreteType} (hall : ∀ p ∈ ty.parts, p ∈ all) :
    Collects hash all ty := by
  induction ty using ConcreteType.ind_children with
  | h ty ih =>
    intro table n hk hc hsize
    have hself := hall ty (ConcreteType.mem_parts_self ty)
    rw [collectDeclarations_eq]
    cases hl : table.lookup (stableId hash ty) with
    | some existing =>
      obtain rfl := hk.lookup hd hself hl
      have hparts := hc existing hl hsize
      exact ⟨table,if_neg (by simp),⟨hk,fun _ h => h,fun _ => .inl,hparts⟩,hc⟩
    | none =>
      have hinsert := hk.insert hd hself
      have hsmall : Closed hash (size ty) (BTreeMap.insert table (stableId hash ty) ty) := by
        intro x hx hlt p hp
        apply hinsert.keeps
        refine hc x ?_ (hlt.trans hsize) p hp
        rw [Has,BTreeMap.lookup_insert] at hx
        by_cases hid : stableId hash x = stableId hash ty
        · rw [if_pos hid] at hx
          cases hx
          exact absurd hlt (Nat.lt_irrefl _)
        · rwa [if_neg hid] at hx
      have hchildren : ∀ c ∈ ty.children, Collects hash all c ∧ size c < size ty := fun c hchild =>
        ⟨ih c hchild fun p hp => hall p (ConcreteType.mem_parts_of_child hchild hp),
          size_lt_of_mem_children hchild⟩
      obtain ⟨table',hok,hgrown,hclosed⟩ := collects_foldlM hchildren hinsert.keyed hsmall
      have hparts : Grown hash all ty.parts table table' := by
        rw [ConcreteType.parts_eq]
        exact hinsert.trans hgrown
      refine ⟨table',hok,hparts,fun x hx hlt p hp => ?_⟩
      obtain hin | hnew := hparts.only _ (mem_of_lookup hx)
      · exact hparts.keeps p (hc x (hk.has_of_mem hd hin) hlt p hp)
      · rw [ConcreteType.parts_eq,List.mem_cons,List.mem_flatMap] at hnew
        obtain rfl | ⟨c,hchild,hxc⟩ := hnew
        · exact hparts.has p hp
        · exact hclosed x hx ((size_le_of_mem_parts hxc).trans_lt (size_lt_of_mem_children hchild)) p hp

/-- The declarations of a descriptor are its parts. -/
theorem declarations_ok (hd : Distinct hash all) (ty : ConcreteType) (hall : ∀ p ∈ ty.parts, p ∈ all) :
    ∃ table, declarations hash ty = .ok table ∧ Grown hash all ty.parts [] table := by
  obtain ⟨table,hok,hgrown,-⟩ := collects hd hall [] (size ty + 1)
    (fun _ h => absurd h List.not_mem_nil) (fun _ h => by cases h) (Nat.lt_succ_self _)
  exact ⟨table,hok,hgrown⟩

theorem insertDeclaration_ok (hd : Distinct hash all) {found : DescriptorTable} (hf : Keyed hash all found)
    (hk : Keyed hash all table) : ∃ table', found.foldlM insertDeclaration table = .ok table' ∧
    Grown hash all (found.map (·.2)) table table' := by
  induction found generalizing table with
  | nil => exact ⟨table,rfl,.refl hk⟩
  | cons entry rest ih =>
    obtain ⟨⟨hid,hall⟩,hrest⟩ := List.forall_mem_cons.mp hf
    have hgrown := hk.insert hd hall
    rw [← hid] at hgrown
    have hok : insertDeclaration table entry = .ok (BTreeMap.insert table entry.1 entry.2) := by
      unfold insertDeclaration
      cases hl : table.lookup entry.1 with
      | none => simp only [hl]
      | some existing =>
        rw [hid] at hl
        have := hk.lookup hd hall hl
        simp only [hid,hl,this,ne_eq,not_true,if_false]
    obtain ⟨table',hok',hgrown'⟩ := ih hrest hgrown.keyed
    refine ⟨table',?_,hgrown.trans hgrown'⟩
    rw [List.foldlM_cons,hok,ok_bind,hok']

theorem Grown.congr {xs ys : List ConcreteType} (h : Grown hash all xs table table')
    (hxy : ∀ ty, ty ∈ xs ↔ ty ∈ ys) : Grown hash all ys table table' :=
  ⟨h.keyed,h.keeps,fun entry hentry => (h.only entry hentry).imp_right (hxy _).mp,
    fun ty hty => h.has ty ((hxy ty).mpr hty)⟩

theorem descriptorTable_ok (hd : Distinct hash all) (tys : List ConcreteType)
    (hall : ∀ p ∈ tys.flatMap ConcreteType.parts, p ∈ all) : ∃ table,
    descriptorTable hash tys = .ok table ∧ Grown hash all (tys.flatMap ConcreteType.parts) [] table := by
  have hfold : ∀ table, Keyed hash all table → ∃ table',
      tys.foldlM (fun table descriptor => do
        let found ← declarations hash descriptor
        found.foldlM insertDeclaration table) table = .ok table' ∧
      Grown hash all (tys.flatMap ConcreteType.parts) table table' := by
    induction tys with
    | nil => exact fun table hk => ⟨table,rfl,.refl hk⟩
    | cons ty rest ih =>
      intro table hk
      rw [List.flatMap_cons] at hall
      obtain ⟨found,hfound,hparts⟩ := declarations_ok hd ty
        fun p hp => hall p (List.mem_append_left _ hp)
      obtain ⟨table',hok,hgrown⟩ := insertDeclaration_ok hd hparts.keyed hk
      obtain ⟨table'',hok',hgrown'⟩ := ih (fun p hp => hall p (List.mem_append_right _ hp)) table'
        hgrown.keyed
      refine ⟨table'',?_,(hgrown.congr fun x => ?_).trans hgrown'⟩
      · rw [List.foldlM_cons,hfound,ok_bind,hok,ok_bind,hok']
      · rw [List.mem_map]
        constructor
        · rintro ⟨entry,hentry,rfl⟩
          exact (hparts.only entry hentry).resolve_left List.not_mem_nil
        · exact fun hx => ⟨_,mem_of_lookup (hparts.has x hx),rfl⟩
  exact hfold [] fun _ h => absurd h List.not_mem_nil

end Growth

/-- Every descriptor that occurs in some descriptors. -/
def occurring (descriptors : List Descriptor) : List ConcreteType :=
  descriptors.flatMap fun d => d.val.parts

/-- What is hashed determines the descriptor; so where the hash tells these documents apart, no
collision is reported and the table is that of all descriptors inside. -/
theorem identity_injective (hash : Hash) (descriptors : List Descriptor)
    (hhash : ∀ p ∈ occurring descriptors, ∀ q ∈ occurring descriptors,
      hash (identityJson p) = hash (identityJson q) → identityJson p = identityJson q) :
    (∀ a b : Descriptor, identityJson a.val = identityJson b.val → a = b) ∧
    (∀ d ∈ descriptors, ∃ table, declarations hash d.val = .ok table ∧
      (∀ p ∈ d.val.parts, table.lookup (stableId hash p) = some p) ∧
      ∀ entry ∈ table, entry.2 ∈ d.val.parts ∧ entry.1 = stableId hash entry.2) ∧
    ∃ table, descriptorTable hash (descriptors.map (·.val)) = .ok table ∧
      (∀ p ∈ occurring descriptors, table.lookup (stableId hash p) = some p) ∧
      ∀ entry ∈ table, entry.2 ∈ occurring descriptors ∧ entry.1 = stableId hash entry.2 := by
  have hsorted : ∀ p ∈ occurring descriptors, ∀ q ∈ p.parts, q.FieldsSorted := by
    intro p hp q hq
    obtain ⟨d,-,hpd⟩ := List.mem_flatMap.mp hp
    exact d.property q (ConcreteType.parts_trans hpd hq)
  have hdistinct : Distinct hash (occurring descriptors) := fun p hp q hq hid =>
    congrArg Subtype.val (identityJson_inj ⟨p,hsorted p hp⟩ ⟨q,hsorted q hq⟩ (hhash p hp q hq hid))
  refine ⟨identityJson_inj,fun d hmem => ?_,?_⟩
  · obtain ⟨table,hok,hgrown⟩ := declarations_ok hdistinct d.val
      fun p hp => List.mem_flatMap.mpr ⟨d,hmem,hp⟩
    exact ⟨table,hok,hgrown.has,fun entry hentry =>
      ⟨(hgrown.only entry hentry).resolve_left List.not_mem_nil,(hgrown.keyed entry hentry).1⟩⟩
  · have hparts : (descriptors.map (·.val)).flatMap ConcreteType.parts = occurring descriptors :=
      List.flatMap_map ..
    obtain ⟨table,hok,hgrown⟩ := descriptorTable_ok hdistinct (descriptors.map (·.val))
      fun p hp => by rwa [hparts] at hp
    rw [hparts] at hgrown
    exact ⟨table,hok,hgrown.has,fun entry hentry =>
      ⟨(hgrown.only entry hentry).resolve_left List.not_mem_nil,(hgrown.keyed entry hentry).1⟩⟩

/-- A sum of an integer and a list of integers. -/
def intOrInts : Descriptor :=
  ⟨.adt "main.Ints" [] [("Many",.list .int),("One",.int)],by decide⟩

/-- A hash that tells its parts apart. -/
def kindHash : Hash := fun json => "sha256:" ++ ((json.get "kind").bind Json.asStr).getD "adt"

theorem identity_injective_sum : ∃ table, descriptorTable kindHash [intOrInts.val] = .ok table ∧
    (∀ p ∈ occurring [intOrInts], table.lookup (stableId kindHash p) = some p) ∧
    ∀ entry ∈ table, entry.2 ∈ occurring [intOrInts] ∧ entry.1 = stableId kindHash entry.2 :=
  (identity_injective kindHash [intOrInts] (by decide)).2.2

end Nefor.Mag
