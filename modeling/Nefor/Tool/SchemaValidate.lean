import Nefor.Tool.SchemaCheck

/-! Validation decides whether the arguments satisfy an accepted schema, but for an array of items
that stands where no argument is named. -/
namespace Nefor.Tool.Schema
open Nefor.Lua

variable {schema value : LuaValue} {path : Option String} {fuel : Nat} {p q bad bad' : Prop} {x y : Verdict}

/-! Verdicts. -/

/-- A verdict without a message means that something holds. -/
def Judges (x : Verdict) (p : Prop) : Prop := ∃ message, x = .ok message ∧ (message = none ↔ p)

/-- The same but for a case in which a text is concatenated with `nil`. -/
structure Runs (x : Verdict) (p bad : Prop) : Prop where
  raises : bad → x = .error .concatenate
  judges : ¬ bad → Judges x p

theorem judges_none (h : p) : Judges (.ok none) p := ⟨none,rfl,iff_of_true rfl h⟩

theorem judges_some {message : String} (h : ¬ p) : Judges (.ok (some message)) p := ⟨some message,rfl,iff_of_false (by simp) h⟩

theorem Judges.congr (h : Judges x p) (hpq : p ↔ q) : Judges x q := by
  obtain ⟨message,hx,hm⟩ := h
  exact ⟨message,hx,hm.trans hpq⟩

theorem Judges.runs (h : Judges x p) (hbad : ¬ bad) : Runs x p bad := ⟨fun hb => absurd hb hbad,fun _ => h⟩

theorem Runs.congr (h : Runs x p bad) (hpq : p ↔ q) (hbad : bad ↔ bad') : Runs x q bad' :=
  ⟨fun hb => h.raises (hbad.mpr hb),fun hb => (h.judges fun hb' => hb (hbad.mp hb')).congr hpq⟩

theorem Runs.andThen (h : Runs x p bad) (h' : p → Runs y q bad') : Runs (andThen x y) (p ∧ q) (bad ∨ p ∧ bad') := by
  by_cases hbad : bad
  · rw [h.raises hbad]
    exact ⟨fun _ => rfl,fun hb => absurd (.inl hbad) hb⟩
  · obtain ⟨message,rfl,hm⟩ := h.judges hbad
    cases message with
    | none =>
      have hp : p := hm.mp rfl
      apply (h' hp).congr
      · rw [and_iff_right hp]
      · rw [or_iff_right hbad,and_iff_right hp]
    | some text =>
      have hp : ¬ p := fun hp => by cases hm.mpr hp
      exact ⟨fun hb => absurd (hb.resolve_left hbad).1 hp,fun _ => judges_some fun h => hp h.1⟩

theorem Judges.andThen (h : Judges x p) (h' : p → Judges y q) : Judges (andThen x y) (p ∧ q) := by
  have hruns := (h.runs not_false).andThen fun hp => (h' hp).runs not_false
  exact hruns.judges (by simp)

theorem judges_firstOf {α : Type} {f : α → Verdict} {p : α → Prop} {l : List α} (h : ∀ x ∈ l, Judges (f x) (p x)) :
    Judges (firstOf f l) (∀ x ∈ l, p x) := by
  induction l with
  | nil => exact judges_none (by simp)
  | cons x l ih =>
    obtain ⟨hx,hl⟩ := List.forall_mem_cons.mp h
    exact (hx.andThen fun _ => ih hl).congr List.forall_mem_cons.symm

theorem judges_bounded {bound : LuaValue} {fails : Except Raised Bool} {message : String}
    (h : bound.isNil = false → ∃ failed, fails = .ok failed ∧ (failed = false ↔ p)) (hnil : bound.isNil = true → p) :
    Judges (bounded bound fails message) p := by
  unfold bounded
  split
  · rename_i hb
    exact judges_none (hnil hb)
  · rename_i hb
    obtain ⟨failed,rfl,hf⟩ := h (by simpa using hb)
    cases failed with
    | false => exact judges_none (hf.mp rfl)
    | true => exact judges_some fun hp => by cases hf.mpr hp

/-! What is read of a schema. -/

theorem field_ok (h : isMap schema = true) (name : String) : field schema name = .ok (schema.get name) := by
  cases schema with
  | table _ _ => rfl
  | _ => cases h

theorem ipairs_ok (h : value.isTable = true) : ipairs value = .ok value.sequence := by
  cases value with
  | table _ _ => rfl
  | _ => cases h

theorem isNil_false_of_isMap (h : isMap value = true) : value.isNil = false := by
  cases value with
  | table _ _ => rfl
  | _ => cases h

theorem eq_nil (h : value.isNil = true) : value = .nil := by
  cases value with
  | nil => rfl
  | _ => cases h

/-- The required names, as keys. -/
theorem requiredNames_ok (hs : Shape (Accepted fuel) schema) : ∃ names, requiredNames schema = .ok names ∧
    ∀ key, key ∈ names ↔ ∃ name, key = .str name ∧ .str name ∈ (schema.get "required").sequence := by
  have hkeys : ∀ l : List LuaValue, (∀ v ∈ l, ∃ name, v = .str name) → ∃ names, asKeys l = .ok names ∧
      ∀ key, key ∈ names ↔ ∃ name, key = .str name ∧ .str name ∈ l := by
    intro l hl
    induction l with
    | nil => exact ⟨[],rfl,by simp⟩
    | cons v l ih =>
      obtain ⟨hv,hrest⟩ := List.forall_mem_cons.mp hl
      obtain ⟨name,rfl⟩ := hv
      obtain ⟨names,hnames,hmem⟩ := ih hrest
      refine ⟨.str name :: names,bind_ok.mpr ⟨_,rfl,bind_ok.mpr ⟨_,hnames,rfl⟩⟩,fun key => ?_⟩
      rw [List.mem_cons,hmem]
      constructor
      · intro h
        obtain rfl | ⟨name',rfl,hmem'⟩ := h
        · exact ⟨name,rfl,List.mem_cons_self⟩
        · exact ⟨name',rfl,List.mem_cons_of_mem _ hmem'⟩
      · intro h
        obtain ⟨name',rfl,hmem'⟩ := h
        cases List.mem_cons.mp hmem' with
        | inl heq => exact .inl (congrArg LuaKey.str (LuaValue.str.inj heq))
        | inr h => exact .inr ⟨name',rfl,h⟩
  obtain ⟨names,hnames,hmem⟩ := hkeys (schema.get "required").sequence fun v hv =>
    (hs.name v hv).imp fun _ h => h.1
  refine ⟨names,?_,hmem⟩
  have hpairs : ipairs ((schema.get "required").orElse (.table false [])) = .ok (schema.get "required").sequence := by
    obtain h | h := hs.required
    · rw [eq_nil h]
      rfl
    · cases hr : schema.get "required" with
      | table _ _ => rfl
      | _ =>
        rw [hr] at h
        cases h
  exact bind_ok.mpr ⟨_,field_ok hs.map _,bind_ok.mpr ⟨_,hpairs,hnames⟩⟩

/-- The accepted names are those that are declared. -/
theorem acceptedNames_ok (hs : Shape (Accepted fuel) schema) : ∃ names, acceptedNames schema = .ok names ∧
    ∀ key, key ∈ names ↔ key ∈ (schema.get "properties").fields.map (·.1) := by
  obtain ⟨names,hnames,hmem⟩ := requiredNames_ok hs
  refine ⟨_,bind_ok.mpr ⟨_,hnames,bind_ok.mpr ⟨_,field_ok hs.map _,rfl⟩⟩,fun key => ?_⟩
  rw [List.mem_append,List.mem_filter,mem_sortedKeys]
  constructor
  · intro h
    obtain h | h := h
    · obtain ⟨name,rfl,hname⟩ := (hmem key).mp h
      obtain ⟨name',heq,hdeclared⟩ := hs.name _ hname
      obtain rfl := LuaValue.str.inj heq
      exact mem_of_index hdeclared
    · exact h.1
  · intro h
    by_cases hn : key ∈ names
    · exact .inl hn
    · exact .inr ⟨h,by simpa using hn⟩

variable (tostring : LuaValue → String)

theorem describeEnum_ok (h : value.isTable = true) : ∃ text, describeEnum tostring value = .ok text :=
  ⟨_,bind_ok.mpr ⟨_,ipairs_ok h,rfl⟩⟩

theorem describe_ok (h : Accepted fuel schema) : ∃ text, describe tostring fuel schema = .ok text := by
  induction fuel generalizing schema with
  | zero => exact absurd h not_accepted_zero
  | succ fuel ih =>
    have hs := accepted_shape h
    have heach : ∀ l : List LuaValue, (∀ v ∈ l, Accepted fuel v) →
        ∃ texts, describeEach (describe tostring fuel) l = .ok texts := by
      intro l hl
      induction l with
      | nil => exact ⟨[],rfl⟩
      | cons v l ihl =>
        obtain ⟨hv,hrest⟩ := List.forall_mem_cons.mp hl
        obtain ⟨text,htext⟩ := ih hv
        obtain ⟨texts,htexts⟩ := ihl hrest
        exact ⟨text :: texts,bind_ok.mpr ⟨_,htext,bind_ok.mpr ⟨_,htexts,rfl⟩⟩⟩
    unfold describe
    simp only [field_ok hs.map]
    by_cases henum : (schema.get "enum").isNil = true
    · by_cases honeOf : (schema.get "oneOf").isNil = true
      · by_cases hitems : ((schema.get "type").rawEq (.str "array") && !(schema.get "items").isNil) = true
        · obtain ⟨text,htext⟩ := ih (hs.items (by simpa using (Bool.and_eq_true_iff.mp hitems).2))
          refine ⟨"array of " ++ text,?_⟩
          simp only [bind,Except.bind,henum,honeOf,hitems,Bool.not_true,Bool.false_eq_true,if_false,if_true,htext]
        · have hoperand : ∃ text, operand tostring ((schema.get "type").orElse (.str "value")) = .ok text := by
            obtain h | ⟨type,-,h⟩ := hs.type
            · rw [eq_nil h]
              exact ⟨_,rfl⟩
            · rw [h]
              exact ⟨_,rfl⟩
          obtain ⟨text,htext⟩ := hoperand
          refine ⟨text,?_⟩
          simp only [bind,Except.bind,henum,honeOf,hitems,Bool.not_true,Bool.false_eq_true,if_false,htext]
      · obtain ⟨texts,htexts⟩ := heach _ hs.alternative
        have htable := hs.oneOf.resolve_left honeOf
        refine ⟨" or ".intercalate texts,?_⟩
        simp only [bind,Except.bind,henum,honeOf,Bool.not_true,Bool.not_false,Bool.false_eq_true,if_false,if_true,
          ipairs_ok htable,htexts]
    · obtain ⟨text,htext⟩ := describeEnum_ok tostring (hs.enum.resolve_left henum)
      refine ⟨text,?_⟩
      simp only [bind,Except.bind,Bool.eq_false_of_not_eq_true henum,Bool.not_false,if_true,htext]

/-! The keywords. -/

/-- Entries that are numbered have no names. -/
theorem not_isMap_of_dense {t : Fields} (hne : t.isEmpty = false) (h : (denseCount t).isSome = true) :
    isMap (.table false t) = false := by
  cases t with
  | nil => cases hne
  | cons e rest =>
    obtain ⟨key,v⟩ := e
    cases key with
    | str s => simp [denseCount] at h
    | int i => simp [isMap]

theorem matchesType_eq (type : String) (value : LuaValue) : matchesType (.str type) value =
    (type == valueKind value || type == "number" && valueKind value == "integer" ||
      valueKind value == "empty" && (type == "object" || type == "array")) := rfl

theorem matchesType_table {type : String} (htype : type ∈ types) (marked : Bool) (t : Fields) :
    matchesType (.str type) (.table marked t) = hasType type (.table marked t) := by
  rw [matchesType_eq]
  unfold valueKind hasType
  simp only [types,List.mem_cons,List.not_mem_nil,or_false] at htype
  cases marked with
  | true => obtain rfl | rfl | rfl | rfl | rfl | rfl := htype <;> rfl
  | false =>
    cases hempty : t.isEmpty with
    | true =>
      rw [List.isEmpty_iff.mp hempty]
      obtain rfl | rfl | rfl | rfl | rfl | rfl := htype <;> rfl
    | false =>
      have hne : t ≠ [] := fun h => by simp [h] at hempty
      cases hdense : (denseCount t).isSome with
      | true =>
        have hmap := not_isMap_of_dense hempty hdense
        obtain rfl | rfl | rfl | rfl | rfl | rfl := htype <;> simp [hne,hdense,hmap]
      | false =>
        cases hmap : isMap (.table false t) <;> obtain rfl | rfl | rfl | rfl | rfl | rfl := htype <;>
          simp [hne,hdense,hmap]

/-- A value matches a type exactly when it is an instance. -/
theorem matchesType_iff {type : String} (htype : type ∈ types) : matchesType (.str type) value = hasType type value := by
  cases value with
  | table marked t => exact matchesType_table htype marked t
  | num n =>
    have hkind : valueKind (.num n) = if n.integral then "integer" else "number" := by
      cases n <;> rfl
    rw [matchesType_eq,hkind,hasType]
    simp only [types,List.mem_cons,List.not_mem_nil,or_false] at htype
    cases n.integral <;> obtain rfl | rfl | rfl | rfl | rfl | rfl := htype <;> rfl
  | nil =>
    simp only [types,List.mem_cons,List.not_mem_nil,or_false] at htype
    obtain rfl | rfl | rfl | rfl | rfl | rfl := htype <;> rfl
  | userdata id =>
    simp only [types,List.mem_cons,List.not_mem_nil,or_false] at htype
    obtain rfl | rfl | rfl | rfl | rfl | rfl := htype <;> rfl
  | bool b =>
    simp only [types,List.mem_cons,List.not_mem_nil,or_false] at htype
    obtain rfl | rfl | rfl | rfl | rfl | rfl := htype <;> rfl
  | str s =>
    simp only [types,List.mem_cons,List.not_mem_nil,or_false] at htype
    obtain rfl | rfl | rfl | rfl | rfl | rfl := htype <;> rfl

theorem judges_type (hs : Shape (Accepted fuel) schema) :
    Judges (validateType tostring schema value path) (TypeHolds schema value) := by
  unfold validateType
  rw [field_ok hs.map]
  simp only [bind,Except.bind]
  obtain hnil | ⟨type,hmem,htype⟩ := hs.type
  · rw [hnil]
    apply judges_none
    intro type htype
    rw [eq_nil hnil] at htype
    cases htype
  · rw [htype]
    have hiff : TypeHolds schema value ↔ matchesType (.str type) value = true := by
      rw [matchesType_iff hmem]
      constructor
      · exact fun h => h type htype
      · intro h type' htype'
        rw [htype] at htype'
        exact LuaValue.str.inj htype' ▸ h
    by_cases hm : matchesType (.str type) value = true
    · rw [hm]
      exact judges_none (hiff.mpr hm)
    · rw [Bool.eq_false_of_not_eq_true hm]
      cases path with
      | none => exact judges_some fun h => hm (hiff.mp h)
      | some place => exact judges_some fun h => hm (hiff.mp h)

theorem judges_enum (hs : Shape (Accepted fuel) schema) :
    Judges (validateEnum tostring schema value path) (EnumHolds schema value) := by
  unfold validateEnum
  rw [field_ok hs.map]
  simp only [bind,Except.bind]
  split
  · rename_i hnil
    exact judges_none (.inl hnil)
  · rename_i hnil
    have htable := hs.enum.resolve_left hnil
    obtain ⟨text,htext⟩ := describeEnum_ok tostring htable
    rw [ipairs_ok htable]
    simp only
    split
    · rename_i hany
      exact judges_none (.inr (List.any_eq_true.mp hany))
    · rename_i hany
      rw [htext]
      apply judges_some
      intro h
      exact hany (List.any_eq_true.mpr (h.resolve_left hnil))

theorem judges_number (hs : Shape (Accepted fuel) schema) {n : LuaNum} :
    Judges (validateNumber tostring schema (.num n) path)
      (MinimumHolds schema (.num n) ∧ MaximumHolds schema (.num n)) := by
  unfold validateNumber
  rw [field_ok hs.map,field_ok hs.map]
  simp only [bind,Except.bind]
  refine Judges.andThen (judges_bounded (fun hne => ?_) fun hnil => ?_) fun _ =>
    judges_bounded (fun hne => ?_) fun hnil => ?_
  · obtain ⟨bound,hbound⟩ := hs.minimum.resolve_left (by simp [hne])
    rw [hbound]
    refine ⟨_,rfl,fun h bound' n' hb' hn' => ?_,fun h => h bound n hbound rfl⟩
    rw [hbound] at hb'
    rwa [← LuaValue.num.inj hb',← LuaValue.num.inj hn']
  · intro bound n' hb _
    rw [eq_nil hnil] at hb
    cases hb
  · obtain ⟨bound,hbound⟩ := hs.maximum.resolve_left (by simp [hne])
    rw [hbound]
    refine ⟨_,rfl,fun h bound' n' hb' hn' => ?_,fun h => h bound n hbound rfl⟩
    rw [hbound] at hb'
    rwa [← LuaValue.num.inj hb',← LuaValue.num.inj hn']
  · intro bound n' hb _
    rw [eq_nil hnil] at hb
    cases hb

theorem lt_int (m n : Int) : LuaNum.lt (.int m) (.int n) = decide (m < n) := by
  by_cases h : m < n
  · have hle : m ≤ n := by omega
    have hne : m ≠ n := by omega
    simp [LuaNum.lt,LuaNum.le,LuaNum.eq,LuaNum.toRat,h,hle,hne]
  · have hle : ¬ m < n := h
    simp [LuaNum.lt,LuaNum.le,LuaNum.eq,LuaNum.toRat,h]
    intro hmn
    omega

theorem judges_count {bound : LuaValue} {count : Nat} {message : String}
    (hbound : bound.isNil = true ∨ ∃ n, bound = .num (.int n)) :
    Judges (bounded bound (less (.num (.int count)) bound) message) (∀ n, bound = .num (.int n) → n ≤ count) := by
  refine judges_bounded (fun hne => ?_) fun hnil => ?_
  · obtain ⟨n,rfl⟩ := hbound.resolve_left (by simp [hne])
    refine ⟨_,rfl,?_⟩
    rw [lt_int,decide_eq_false_iff_not,not_lt]
    constructor
    · intro h n' hn'
      rw [LuaValue.num.injEq,LuaNum.int.injEq] at hn'
      omega
    · exact fun h => h n rfl
  · intro n hn
    rw [eq_nil hnil] at hn
    cases hn

theorem judges_string (hs : Shape (Accepted fuel) schema) {s : String} :
    Judges (validateString tostring schema (.str s) path)
      (MinLengthHolds schema (.str s) ∧ PatternHolds schema (.str s) properLanguage) := by
  unfold validateString
  rw [field_ok hs.map,field_ok hs.map]
  simp only [bind,Except.bind]
  refine Judges.andThen (judges_count hs.minLength) fun _ => judges_bounded (fun hne => ?_) fun hnil => ?_
  · obtain ⟨source,node,hsource,hnode⟩ := hs.pattern.resolve_left (by simp [hne])
    have hcompile : compilePattern (schema.get "pattern") = .ok node := by
      rw [hsource]
      exact hnode
    obtain ⟨found,hfound,hiff⟩ := matcher_answers node (ascii s)
    have hmatch : matchPattern (schema.get "pattern") (.str s) = .ok (!found) := by
      unfold matchPattern
      rw [hcompile]
      simp only [hfound]
    refine ⟨!found,hmatch,?_⟩
    rw [Bool.not_eq_false',hiff]
    constructor
    · intro h s' node' hs' hnode'
      rw [hcompile] at hnode'
      rwa [← LuaValue.str.inj hs',← Except.ok.inj hnode']
    · exact fun h => h s node rfl hcompile
  · intro s' node _ hnode
    rw [eq_nil hnil] at hnode
    cases hnode

/-! Objects. -/

theorem accepted_isNil (h : Accepted fuel schema) : schema.isNil = false := by
  cases fuel with
  | zero => exact absurd h not_accepted_zero
  | succ fuel => exact isNil_false_of_isMap (accepted_shape h).map

theorem unknownArgument_ok (hs : Shape (Accepted fuel) schema) (key : LuaKey) :
    ∃ message, unknownArgument schema path key = .ok (some message) := by
  obtain ⟨names,hnames,-⟩ := acceptedNames_ok hs
  unfold unknownArgument
  rw [hnames]
  simp only [bind,Except.bind]
  split
  · exact ⟨_,rfl⟩
  · exact ⟨_,rfl⟩

/-- What is known of the validation by parts of a schema, where an argument is named. -/
def JudgesParts (fuel : Nat) (validateNode : LuaValue → LuaValue → Option String → Verdict) : Prop :=
  ∀ part value place, Accepted fuel part →
    Judges (validateNode part value (some place)) (SatisfiesWith properLanguage part value)

variable {validatePart : LuaValue → LuaValue → Option String → Verdict}

theorem judges_object (hs : Shape (Accepted fuel) schema) (hparts : JudgesParts fuel validatePart) :
    Judges (validateObject validatePart schema value path) (ObjectHolds properLanguage schema value) := by
  obtain ⟨required,hrequired,hmem⟩ := requiredNames_ok hs
  obtain ⟨accepted,haccepted,hdeclared⟩ := acceptedNames_ok hs
  have hclosed : Judges (firstOf (fun key => if ((schema.get "properties").fields.index key).isNil then
      unknownArgument schema path key else .ok none) (sortedKeys value.fields)) (Closed schema value) := by
    have hkeys : Closed schema value ↔ ∀ key ∈ sortedKeys value.fields,
        ((schema.get "properties").fields.index key).isNil = false := by
      simp only [Closed,mem_sortedKeys]
    refine (judges_firstOf fun key _ => ?_).congr hkeys.symm
    split
    · rename_i hnil
      obtain ⟨message,hmessage⟩ := @unknownArgument_ok _ path _ hs key
      rw [hmessage]
      exact judges_some (by simp [hnil])
    · rename_i hnil
      exact judges_none (by simpa using hnil)
  have hpresent : Judges (firstOf (fun key => if (value.fields.index key).isNil then
      .ok (some ("missing required argument `" ++ child path (keyText key) ++ "`")) else .ok none) required)
      (RequiredHolds schema value) := by
    have hnames : RequiredHolds schema value ↔ ∀ key ∈ required, (value.fields.index key).isNil = false := by
      constructor
      · intro h key hkey
        obtain ⟨name,rfl,hname⟩ := (hmem key).mp hkey
        exact h name hname
      · exact fun h name hname => h (.str name) ((hmem _).mpr ⟨name,rfl,hname⟩)
    refine (judges_firstOf fun key _ => ?_).congr hnames.symm
    split
    · rename_i hnil
      exact judges_some (by simp [hnil])
    · rename_i hnil
      exact judges_none (by simpa using hnil)
  have hfields : Judges (firstOf (fun key => if (value.fields.index key).isNil then .ok none
      else validatePart ((schema.get "properties").fields.index key) (value.fields.index key)
        (some (child path (keyText key)))) accepted)
      (∀ key, ((schema.get "properties").fields.index key).isNil = false → (value.fields.index key).isNil = false →
        SatisfiesWith properLanguage ((schema.get "properties").fields.index key) (value.fields.index key)) := by
    have hkeys : (∀ key, ((schema.get "properties").fields.index key).isNil = false →
        (value.fields.index key).isNil = false →
        SatisfiesWith properLanguage ((schema.get "properties").fields.index key) (value.fields.index key)) ↔
        ∀ key ∈ accepted, (value.fields.index key).isNil = false →
          SatisfiesWith properLanguage ((schema.get "properties").fields.index key) (value.fields.index key) := by
      constructor
      · exact fun h key hkey => h key (accepted_isNil (hs.property key ((hdeclared key).mp hkey)))
      · exact fun h key hkey => h key ((hdeclared key).mpr (mem_of_index hkey))
    refine (judges_firstOf fun key hkey => ?_).congr hkeys.symm
    split
    · rename_i hnil
      exact judges_none fun h => by simp [hnil] at h
    · rename_i hnil
      have hsome : (value.fields.index key).isNil = false := by simpa using hnil
      apply (hparts _ _ _ (hs.property key ((hdeclared key).mp hkey))).congr
      exact ⟨fun h _ => h,fun h => h hsome⟩
  unfold validateObject
  rw [field_ok hs.map,hrequired,haccepted]
  exact hclosed.andThen fun _ => hpresent.andThen fun _ => hfields

/-! Arrays. -/

theorem judges_items {items : LuaValue} {place : String} {index : Nat} {l : List LuaValue} (hitems : Accepted fuel items)
    (hparts : JudgesParts fuel validatePart) : Judges (validateItems validatePart items (some place) index l)
      (∀ v ∈ l, SatisfiesWith properLanguage items v) := by
  induction l generalizing index with
  | nil => exact judges_none (by simp)
  | cons v l ih => exact ((hparts _ _ _ hitems).andThen fun _ => ih).congr List.forall_mem_cons.symm

theorem runs_array (hs : Shape (Accepted fuel) schema) (hparts : JudgesParts fuel validatePart) :
    Runs (validateArray tostring validatePart schema value path) (MinItemsHolds schema value ∧
      ItemsHold properLanguage schema value) (path = none ∧ MinItemsHolds schema value ∧
        (schema.get "items").isNil = false ∧ value.sequence ≠ []) := by
  have hitems : Runs (if (schema.get "items").isNil then .ok none
      else validateItems validatePart (schema.get "items") path 0 value.sequence)
      (ItemsHold properLanguage schema value)
      (path = none ∧ (schema.get "items").isNil = false ∧ value.sequence ≠ []) := by
    split
    · rename_i hnil
      exact (judges_none fun h => by simp [hnil] at h).runs (by simp [hnil])
    · rename_i hnil
      have hsome : (schema.get "items").isNil = false := by simpa using hnil
      have hiff : ItemsHold properLanguage schema value ↔
          ∀ v ∈ value.sequence, SatisfiesWith properLanguage (schema.get "items") v :=
        ⟨fun h => h hsome,fun h _ => h⟩
      cases path with
      | some place => exact ((judges_items (hs.items hsome) hparts).congr hiff.symm).runs (by simp)
      | none =>
        cases hl : value.sequence with
        | nil =>
          rw [hl] at hiff
          exact (judges_none (hiff.mpr (by simp))).runs (by simp)
        | cons v l => exact ⟨fun _ => rfl,fun h => absurd ⟨rfl,hsome,by simp⟩ h⟩
  unfold validateArray
  rw [field_ok hs.map,field_ok hs.map]
  apply (((judges_count hs.minItems).runs not_false).andThen fun _ => hitems).congr Iff.rfl
  constructor
  · intro h
    obtain ⟨hmin,hpath,hrest⟩ := h.resolve_left not_false
    exact ⟨hpath,hmin,hrest⟩
  · intro h
    exact .inr ⟨h.2.1,h.1,h.2.2⟩

/-! One schema. -/

theorem kindHolds_none (h : (schema.get "type").isNil = true) : KindHolds properLanguage schema value := by
  have hno : ∀ name, schema.get "type" ≠ .str name := fun name hname => by simp [hname,LuaValue.isNil] at h
  exact ⟨fun h => absurd h (hno _),fun h => absurd h (hno _),fun h => absurd h (hno _),
    fun h => absurd h (not_or.mpr ⟨hno _,hno _⟩)⟩

theorem runs_kind (hs : Shape (Accepted fuel) schema) (hparts : JudgesParts fuel validatePart)
    (htypes : TypeHolds schema value) :
    Runs (validateKind tostring validatePart schema value path) (KindHolds properLanguage schema value)
      (path = none ∧ schema.get "type" = .str "array" ∧ MinItemsHolds schema value ∧
        (schema.get "items").isNil = false ∧ value.sequence ≠ []) := by
  unfold validateKind
  rw [field_ok hs.map]
  simp only [bind,Except.bind]
  obtain hnil | ⟨type,hmem,htype⟩ := hs.type
  · rw [eq_nil hnil]
    exact (judges_none (kindHolds_none hnil)).runs (by simp)
  · have hinstance := htypes type htype
    unfold KindHolds
    rw [htype]
    simp only [types,List.mem_cons,List.not_mem_nil,or_false] at hmem
    obtain rfl | rfl | rfl | rfl | rfl | rfl := hmem
    · apply (runs_array tostring hs hparts).congr
      · simp
      · simp
    · exact (judges_none (by simp)).runs (by simp)
    · cases value with
      | num n => exact ((judges_number tostring hs).congr (by simp)).runs (by simp)
      | _ => simp [hasType] at hinstance
    · cases value with
      | num n => exact ((judges_number tostring hs).congr (by simp)).runs (by simp)
      | _ => simp [hasType] at hinstance
    · exact ((judges_object hs hparts).congr (by simp)).runs (by simp)
    · cases value with
      | str s => exact ((judges_string tostring hs).congr (by simp)).runs (by simp)
      | _ => simp [hasType] at hinstance

/-! Alternatives. -/

theorem exactlyOne_cons {α : Type} {p : α → Prop} {x : α} {l : List α} :
    ExactlyOne p (x :: l) ↔ p x ∧ (∀ y ∈ l, ¬ p y) ∨ ¬ p x ∧ ExactlyOne p l := by
  unfold ExactlyOne
  constructor
  · intro h
    obtain ⟨i,hi,hunique⟩ := h
    induction i using Fin.cases with
    | zero =>
      refine .inl ⟨hi,fun y hy hpy => ?_⟩
      obtain ⟨j,rfl⟩ := List.mem_iff_get.mp hy
      exact Fin.succ_ne_zero j (hunique j.succ hpy)
    | succ i =>
      refine .inr ⟨fun hx => Fin.succ_ne_zero i (hunique 0 hx).symm,i,hi,fun j hj => ?_⟩
      exact Fin.succ_inj.mp (hunique j.succ hj)
  · intro h
    obtain ⟨hx,hl⟩ | ⟨hx,i,hi,hunique⟩ := h
    · refine ⟨0,hx,fun j hj => ?_⟩
      induction j using Fin.cases with
      | zero => rfl
      | succ j => exact absurd hj (hl _ (List.get_mem _ _))
    · refine ⟨i.succ,hi,fun j hj => ?_⟩
      induction j using Fin.cases with
      | zero => exact absurd hj hx
      | succ j => rw [hunique j hj]

/-- The count decides whether none, one or more alternatives are satisfied. -/
theorem countMatched_ok {validateNode : LuaValue → Verdict} {p bad : LuaValue → Prop} {l : List LuaValue}
    (h : ∀ v ∈ l, Runs (validateNode v) (p v) (bad v)) (hbad : ∀ v ∈ l, ¬ bad v) :
    ∃ n, countMatched validateNode l = .ok n ∧ (n = 0 ↔ ∀ v ∈ l, ¬ p v) ∧ (n = 1 ↔ ExactlyOne p l) := by
  induction l with
  | nil => exact ⟨0,rfl,by simp,by simp [ExactlyOne]⟩
  | cons v l ih =>
    obtain ⟨hv,hl⟩ := List.forall_mem_cons.mp h
    obtain ⟨hbv,hbl⟩ := List.forall_mem_cons.mp hbad
    obtain ⟨n,hn,hzero,hone⟩ := ih hl hbl
    obtain ⟨message,hmessage,hp⟩ := hv.judges hbv
    refine ⟨_,bind_ok.mpr ⟨_,hmessage,bind_ok.mpr ⟨_,hn,rfl⟩⟩,?_⟩
    rw [exactlyOne_cons,List.forall_mem_cons,← hzero,← hone]
    cases message with
    | none =>
      have hpv : p v := hp.mp rfl
      simp [hpv]
    | some text =>
      have hpv : ¬ p v := fun hpv => by cases hp.mpr hpv
      simp [hpv]

theorem countMatched_raises {validateNode : LuaValue → Verdict} {p bad : LuaValue → Prop} {l : List LuaValue}
    (h : ∀ v ∈ l, Runs (validateNode v) (p v) (bad v)) (hbad : ∃ v ∈ l, bad v) :
    countMatched validateNode l = .error .concatenate := by
  induction l with
  | nil => simp at hbad
  | cons v l ih =>
    obtain ⟨hv,hl⟩ := List.forall_mem_cons.mp h
    unfold countMatched
    by_cases hbv : bad v
    · rw [hv.raises hbv]
      rfl
    · obtain ⟨message,hmessage,-⟩ := hv.judges hbv
      obtain ⟨w,hw,hbw⟩ := hbad
      cases List.mem_cons.mp hw with
      | inl heq =>
        rw [heq] at hbw
        exact absurd hbw hbv
      | inr hw =>
        rw [hmessage,ih hl ⟨w,hw,hbw⟩]
        rfl

/-- The loop over alternatives raises when one of them does. -/
theorem runs_oneOf (hs : Shape (Accepted fuel) schema) {validateNode : LuaValue → Verdict}
    {describe : LuaValue → Except Raised String} {bad : LuaValue → Prop}
    (hdescribe : ∃ text, describe schema = .ok text)
    (hnode : ∀ v ∈ (schema.get "oneOf").sequence,
      Runs (validateNode v) (SatisfiesWith properLanguage v value) (bad v)) :
    Runs (validateOneOf validateNode describe schema value path) (OneOfHolds properLanguage schema value)
      (∃ v ∈ (schema.get "oneOf").sequence, bad v) := by
  unfold validateOneOf
  rw [field_ok hs.map]
  simp only [bind,Except.bind]
  split
  · rename_i hnil
    apply (judges_none (.inl hnil)).runs
    simp [sequence_of_isNil hnil]
  · rename_i hnil
    rw [ipairs_ok (hs.oneOf.resolve_left hnil)]
    simp only
    constructor
    · intro hbad
      rw [countMatched_raises hnode hbad]
    · intro hbad
      obtain ⟨n,hn,-,hone⟩ := countMatched_ok hnode fun v hv hb => hbad ⟨v,hv,hb⟩
      have hiff : OneOfHolds properLanguage schema value ↔ n = 1 := by
        rw [hone,OneOfHolds,or_iff_right hnil]
      rw [hn]
      simp only
      split
      · rename_i hn
        exact judges_none (hiff.mpr hn)
      · rename_i hn
        obtain ⟨text,htext⟩ := hdescribe
        rw [htext]
        exact judges_some fun h => hn (hiff.mp h)

theorem overruns_iff {words : Node → Anchored UInt8} : Overruns words value schema ↔
    (∃ v ∈ (schema.get "oneOf").sequence, Overruns words value v) ∨ OneOfHolds words schema value ∧
      TypeHolds schema value ∧ EnumHolds schema value ∧ schema.get "type" = .str "array" ∧ MinItemsHolds schema value ∧
      (schema.get "items").isNil = false ∧ value.sequence ≠ [] := by
  constructor
  · intro h
    cases h with
    | alternative hv h => exact .inl ⟨_,hv,h⟩
    | items honeOf htype henum harray hmin hitems hne => exact .inr ⟨honeOf,htype,henum,harray,hmin,hitems,hne⟩
  · intro h
    obtain ⟨v,hv,h⟩ | ⟨honeOf,htype,henum,harray,hmin,hitems,hne⟩ := h
    · exact .alternative hv h
    · exact .items honeOf htype henum harray hmin hitems hne

/-- A node decides, but for the arrays that overrun where no argument is named. -/
theorem validateNode_runs (h : Accepted fuel schema) : Runs (validateNode tostring fuel schema value path)
    (SatisfiesWith properLanguage schema value) (path = none ∧ Overruns properLanguage value schema) := by
  induction fuel generalizing schema value path with
  | zero => exact absurd h not_accepted_zero
  | succ fuel ih =>
    have hs := accepted_shape h
    have hparts : JudgesParts fuel (validateNode tostring fuel) :=
      fun part value place hpart => (ih hpart).judges (by simp)
    have honeOf : Runs (validateOneOf (fun alternative => validateNode tostring fuel alternative value path)
        (describe tostring (fuel + 1)) schema value path) (OneOfHolds properLanguage schema value)
        (∃ v ∈ (schema.get "oneOf").sequence, path = none ∧ Overruns properLanguage value v) :=
      runs_oneOf hs (describe_ok tostring h) fun v hv => ih (hs.alternative v hv)
    have htype : Runs (validateType tostring schema value path) (TypeHolds schema value) False :=
      (judges_type tostring hs).runs not_false
    have henum : Runs (validateEnum tostring schema value path) (EnumHolds schema value) False :=
      (judges_enum tostring hs).runs not_false
    unfold validateNode
    apply (honeOf.andThen fun _ => htype.andThen fun htypes => henum.andThen fun _ =>
      runs_kind tostring hs hparts htypes).congr
    · rw [satisfiesWith_iff]
    · rw [overruns_iff]
      by_cases hpath : path = none
      · simp [hpath]
      · simp [hpath]

/-- Validation answers, and answers what the schema means, exactly when the arguments overrun no
schema and the empty iterations of patterns do not matter for them. -/
theorem validate_decides (parameters args : LuaValue) (h : check parameters = .ok ()) :
    (∃ message, validate tostring parameters args = .ok message ∧ (message = none ↔ Satisfies parameters args)) ↔
      ¬ Overruns properLanguage args parameters ∧
        (ProperlySatisfies parameters args ↔ Satisfies parameters args) := by
  have hruns := @validateNode_runs _ args none _ tostring (check_ok h).1
  constructor
  · intro hanswer
    obtain ⟨message,hmessage,hiff⟩ := hanswer
    have hover : ¬ Overruns properLanguage args parameters := by
      intro hover
      have hraises := hruns.raises ⟨rfl,hover⟩
      rw [validate,hraises] at hmessage
      cases hmessage
    obtain ⟨message',hmessage',hiff'⟩ := hruns.judges fun hbad => hover hbad.2
    rw [validate,hmessage'] at hmessage
    obtain rfl := Except.ok.inj hmessage
    exact ⟨hover,hiff'.symm.trans hiff⟩
  · intro hexact
    obtain ⟨message,hmessage,hiff⟩ := hruns.judges fun hbad => hexact.1 hbad.2
    exact ⟨message,hmessage,hiff.trans hexact.2⟩

/-- One required argument, a name that is not empty. -/
def named : LuaValue := .table false [(.str "type",.str "object"),(.str "properties",
  .table false [(.str "name",.table false [(.str "type",.str "string"),(.str "minLength",.num (.int 1))])]),
  (.str "required",.table true [(.int 1,.str "name")])]

theorem validate_decides_named :
    (∃ message, validate (fun _ => "") named (.table false [(.str "name",.str "x")]) = .ok message ∧
      (message = none ↔ Satisfies named (.table false [(.str "name",.str "x")]))) ↔
    ¬ Overruns properLanguage (.table false [(.str "name",.str "x")]) named ∧
      (ProperlySatisfies named (.table false [(.str "name",.str "x")]) ↔
        Satisfies named (.table false [(.str "name",.str "x")])) :=
  validate_decides _ named _ (by decide)

/-- An object schema with one alternative, an array of strings: such an array is neither accepted nor rejected. -/
theorem validate_decides_list : ¬ ∀ parameters args, check parameters = .ok () →
    ∃ message, validate (fun _ => "") parameters args = .ok message ∧ (message = none ↔ Satisfies parameters args) := by
  intro h
  obtain ⟨message,hmessage,-⟩ := h
    (.table false [(.str "type",.str "object"),(.str "oneOf",.table true [(.int 1,.table false
      [(.str "type",.str "array"),(.str "items",.table false [(.str "type",.str "string")])])])])
    (.table true [(.int 1,.str "x")]) (by decide)
  have hraises : validate (fun _ => "")
      (.table false [(.str "type",.str "object"),(.str "oneOf",.table true [(.int 1,.table false
        [(.str "type",.str "array"),(.str "items",.table false [(.str "type",.str "string")])])])])
      (.table true [(.int 1,.str "x")]) = .error .concatenate := by
    decide
  rw [hraises] at hmessage
  cases hmessage

end Nefor.Tool.Schema
