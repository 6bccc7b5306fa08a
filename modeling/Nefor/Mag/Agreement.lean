import Mathlib.Logic.Relation
import Nefor.Mag.Decoded

/-! Schema validation and typed decoding accept the same documents. The schema of a type and the
declarations behind it are unfolded by two recursions, and repeated members are found by two
equalities. -/
namespace Nefor.Mag

/-- The types that the body of a declaration is written with. -/
def TypeDeclBody.types : TypeDeclBody → List MagType
  | fields fs => fs.types.map (·.2)
  | transparentAlias body => [body]
  | nominalAlias body => [body]
  | adt constructors => constructors.map (·.payload)
  | native => []

/-- The second type is read somewhere inside a document of the first. -/
inductive Part (env : Env) : MagType → MagType → Prop
  | list (item) : Part env (.list item) item
  | set (item) : Part env (.set item) item
  | key (key value) : Part env (.map key value) key
  | value (key value) : Part env (.map key value) value
  | component {c cs} : c ∈ cs → Part env (.product cs) c
  | body {name args decl ty} : env.typeDecl name = some decl → ty ∈ decl.body.types →
      Part env (.named name args) (ty.substitute (substitutions decl.params args))

/-- No map key is another name for `String`. -/
def KeysPlain (env : Env) (ty : MagType) : Prop :=
  ∀ key value, Relation.ReflTransGen (Part env) ty (.map key value) → key ≠ .string →
    ∀ n, ConcreteType.resolve env n key ≠ .ok .string

theorem KeysPlain.part {env : Env} {ty part : MagType} (h : KeysPlain env ty)
    (hp : Part env ty part) : KeysPlain env part :=
  fun key value hm => h key value (.head hp hm)

/-- A well formed document and the value read from it. -/
def Read (env : Env) (n : Nat) (ty : MagType) (j : Json) (v : Value) : Prop :=
  j.wellFormed ∧ Decodes env n ty j v

/-- Equality of documents once their integers are in their 64-bit form. -/
def sameForm (s : SchemaType) (j k : Json) : Bool :=
  semanticJsonEqual s (i64Form s j) (i64Form s k)

/-- A type and a schema take the same documents, and find the same ones equal. -/
structure Agrees (env : Env) (n : Nat) (ty : MagType) (s : SchemaType) : Prop where
  decodes : ∀ j, j.wellFormed → Accepts s j → ∃ v, Decodes env n ty j v
  accepted : ∀ j v, Read env n ty j v → Accepts s (i64Form s j)
  same : ∀ m, n ≤ m → Decides env m (Read env n ty) (sameForm s)

theorem read_list {env : Env} {n : Nat} {ty : MagType} {items : List Json} {vs : List Value}
    (hw : ∀ x ∈ items, x.wellFormed) (h : List.Forall₂ (Decodes env n ty) items vs) :
    List.Forall₂ (Read env n ty) items vs := forall₂_and_left h hw

section Scalars
variable {env : Env} {n : Nat}

theorem jsonEqual_int (i k : Int64) :
    jsonEqual (.number (.ofI64 i)) (.number (.ofI64 k)) = (i == k) := by
  have hinj : JsonNumber.ofI64 i = JsonNumber.ofI64 k → i = k := by
    intro h
    have h := congrArg JsonNumber.asI64 h
    simpa using h
  have heq : (JsonNumber.ofI64 i).eq (JsonNumber.ofI64 k) ↔
      JsonNumber.ofI64 i = JsonNumber.ofI64 k := by
    unfold JsonNumber.ofI64
    split <;> split <;> simp [JsonNumber.eq]
  rw [jsonEqual]
  · rw [Bool.eq_iff_iff,heq,beq_iff_eq]
    exact ⟨hinj,congrArg JsonNumber.ofI64⟩
  · intro a b ha
    unfold JsonNumber.ofI64 at ha
    split at ha <;> cases ha

theorem agrees_jsonValue : Agrees env (n+1) .jsonValue .jsonValue where
  decodes := fun j _ _ => ⟨.jsonValue j,rfl⟩
  accepted := by
    intro j v _ p
    rw [validateAt]
  same := by
    rintro m _ j v k w ⟨_,hj⟩ ⟨_,hk⟩
    cases hj
    cases hk
    rw [equal_jsonValue]
    rfl

theorem agrees_unit : Agrees env (n+1) .unit .unit where
  decodes := by
    intro j _ ha
    obtain rfl := accepts_unit.mp ha
    exact ⟨.unit,rfl⟩
  accepted := by
    rintro j v ⟨_,hj⟩
    cases j <;> cases hj
    exact accepts_unit.mpr rfl
  same := by
    rintro m _ j v k w ⟨_,hj⟩ ⟨_,hk⟩
    cases j <;> cases hj
    cases k <;> cases hk
    rw [equal_unit]
    rfl

theorem agrees_bool : Agrees env (n+1) .bool .bool where
  decodes := by
    intro j _ ha
    obtain ⟨b,rfl⟩ := accepts_bool.mp ha
    exact ⟨.bool b,rfl⟩
  accepted := by
    rintro j v ⟨_,hj⟩
    cases j <;> cases hj
    exact accepts_bool.mpr ⟨_,rfl⟩
  same := by
    rintro m _ j v k w ⟨_,hj⟩ ⟨_,hk⟩
    cases j <;> cases hj
    cases k <;> cases hk
    rw [equal_bool]
    rfl

theorem agrees_string : Agrees env (n+1) .string .string where
  decodes := by
    intro j _ ha
    obtain ⟨b,rfl⟩ := accepts_string.mp ha
    exact ⟨.str b,rfl⟩
  accepted := by
    rintro j v ⟨_,hj⟩
    cases j <;> cases hj
    exact accepts_string.mpr ⟨_,rfl⟩
  same := by
    rintro m _ j v k w ⟨_,hj⟩ ⟨_,hk⟩
    cases j <;> cases hj
    cases k <;> cases hk
    rw [equal_str]
    rfl

theorem decodes_float {j : Json} {v : Value} : Decodes env (n+1) .float j v ↔
    ∃ f, j.asF64 = some f ∧ v = .float (.finite f) := by
  constructor
  · intro h
    obtain ⟨f,hf,h⟩ := bind_eq_ok.mp h
    cases h
    exact ⟨f,Run.ofOption_eq_ok.mp hf,rfl⟩
  · rintro ⟨f,hf,rfl⟩
    exact bind_eq_ok.mpr ⟨f,Run.ofOption_eq_ok.mpr hf,rfl⟩

theorem agrees_float : Agrees env (n+1) .float .float where
  decodes := by
    intro j _ ha
    obtain ⟨f,hf⟩ := Option.isSome_iff_exists.mp (accepts_float.mp ha)
    exact ⟨_,decodes_float.mpr ⟨f,hf,rfl⟩⟩
  accepted := by
    rintro j v ⟨_,hj⟩
    obtain ⟨f,hf,rfl⟩ := decodes_float.mp hj
    refine accepts_float.mpr ?_
    rw [i64Form,hf]
    · rfl
    all_goals (intros; contradiction)
  same := by
    rintro m _ j v k w ⟨_,hj⟩ ⟨_,hk⟩
    obtain ⟨f,hf,rfl⟩ := decodes_float.mp hj
    obtain ⟨g,hg,rfl⟩ := decodes_float.mp hk
    rw [equal_float]
    simp [sameForm,i64Form,semanticJsonEqual,hf,hg,bothAnd]

theorem decodes_int {j : Json} {v : Value} : Decodes env (n+1) .int j v ↔
    ∃ number i, j = .number number ∧ jsonNumberToI64 number = some i ∧ v = .int i := by
  constructor
  · intro h
    cases j with
    | number number =>
      obtain ⟨i,hi,h⟩ := bind_eq_ok.mp h
      cases h
      exact ⟨number,i,rfl,Run.ofOption_eq_ok.mp hi,rfl⟩
    | _ => cases h
  · rintro ⟨number,i,rfl,hi,rfl⟩
    exact bind_eq_ok.mpr ⟨i,Run.ofOption_eq_ok.mpr hi,rfl⟩

theorem i64Form_int {number : JsonNumber} {i : Int64} (h : jsonNumberToI64 number = some i) :
    i64Form .int (.number number) = .number (.ofI64 i) := by
  simp only [i64Form,h]

theorem agrees_int : Agrees env (n+1) .int .int where
  decodes := by
    intro j _ ha
    have ha := accepts_int.mp ha
    cases j with
    | number number =>
      obtain ⟨i,hi⟩ := Option.isSome_iff_exists.mp ha
      have hn : jsonNumberToI64 number = some i := by
        rw [jsonNumberToI64,show number.asI64 = some i from hi]; rfl
      exact ⟨_,decodes_int.mpr ⟨number,i,rfl,hn,rfl⟩⟩
    | _ => cases ha
  accepted := by
    rintro j v ⟨_,hj⟩
    obtain ⟨number,i,rfl,hi,rfl⟩ := decodes_int.mp hj
    rw [i64Form_int hi]
    exact accepts_int.mpr (by simp [Json.asI64])
  same := by
    rintro m _ j v k w ⟨_,hj⟩ ⟨_,hk⟩
    obtain ⟨_,i,rfl,hi,rfl⟩ := decodes_int.mp hj
    obtain ⟨_,l,rfl,hl,rfl⟩ := decodes_int.mp hk
    rw [equal_int,sameForm,i64Form_int hi,i64Form_int hl,semanticJsonEqual,jsonEqual_int]

end Scalars

section Collections
variable {env : Env} {n : Nat} {item : MagType} {s : SchemaType}

theorem agrees_list (h : Agrees env n item s) : Agrees env (n+1) (.list item) (.list s) where
  decodes := by
    intro j hw ha
    obtain ⟨items,rfl,hitems⟩ := (accepts_list hw).mp ha
    have hwf := (Json.wellFormed_array items).mp hw
    obtain ⟨vs,hvs⟩ := exists_forall₂ fun x hx => h.decodes x (hwf x hx) (hitems x hx)
    exact ⟨_,decodes_list.mpr ⟨items,vs,rfl,hvs,rfl⟩⟩
  accepted := by
    rintro j v ⟨hw,hj⟩
    have hwf := i64Form_wellFormed (.list s) hw
    obtain ⟨items,vs,rfl,hvs,rfl⟩ := decodes_list.mp hj
    have hvs := read_list ((Json.wellFormed_array items).mp hw) hvs
    refine (accepts_list hwf).mpr ⟨items.map (i64Form s ·),by rw [i64Form],?_⟩
    refine List.forall_mem_map.mpr fun x hx => ?_
    obtain ⟨v,_,hv⟩ := forall₂_mem hvs hx
    exact h.accepted x v hv
  same := by
    rintro m hm j v k w ⟨hwj,hj⟩ ⟨hwk,hk⟩
    obtain ⟨xs,vs,rfl,hvs,rfl⟩ := decodes_list.mp hj
    obtain ⟨ys,ws,rfl,hws,rfl⟩ := decodes_list.mp hk
    have hvs := read_list ((Json.wellFormed_array xs).mp hwj) hvs
    have hws := read_list ((Json.wellFormed_array ys).mp hwk) hws
    rw [equal_list,← hvs.length_eq,← hws.length_eq,
      equalPositions_eq (h.same m (by omega)) hvs hws]
    simp only [sameForm,i64Form,semanticJsonEqual,Json.asArray,bothAnd,List.length_map,
      List.zip_map,List.all_map]
    by_cases hl : xs.length = ys.length
    · rw [if_pos hl,beq_iff_eq.mpr hl]
      rfl
    · simp [hl]

theorem agrees_set {c : ConcreteType} (hc : ConcreteType.resolve env (n+1) (.set item) = .ok c)
    (h : Agrees env n item s) : Agrees env (n+1) (.set item) (.set s) where
  decodes := by
    intro j hw ha
    obtain ⟨items,rfl,hitems,hpair⟩ := (accepts_set hw).mp ha
    have hwf := (wellFormed_envelope (by decide)).mp hw
    obtain ⟨vs,hvs⟩ := exists_forall₂ fun x hx => h.decodes x (hwf x hx) (hitems x hx)
    have hd := (rejectDuplicateValues_ok (h.same n le_rfl) "set item" .nil
      (read_list hwf hvs)).mpr ⟨nofun,?_⟩
    · exact ⟨_,(decodes_set hw).mpr ⟨items,vs,rfl,hvs,hd,rfl⟩⟩
    · refine hpair.imp_of_mem fun {a b} ha hb hab => ?_
      rwa [sameForm,i64Form_of_accepts s (hwf a ha) (hitems a ha),
        i64Form_of_accepts s (hwf b hb) (hitems b hb)]
  accepted := by
    rintro j v ⟨hw,hj⟩
    have hwf := i64Form_wellFormed (.set s) hw
    obtain ⟨items,vs,rfl,hvs,hd,rfl⟩ := (decodes_set hw).mp hj
    have hvs := read_list ((wellFormed_envelope (by decide)).mp hw) hvs
    have hd := ((rejectDuplicateValues_ok (h.same n le_rfl) "set item" .nil hvs).mp hd).2
    refine (accepts_set hwf).mpr ⟨items.map (i64Form s ·),?_,?_,List.pairwise_map.mpr hd⟩
    · rw [i64Form,onItems_envelope (by decide)]
    · refine List.forall_mem_map.mpr fun x hx => ?_
      obtain ⟨v,_,hv⟩ := forall₂_mem hvs hx
      exact h.accepted x v hv
  same := by
    rintro m hm j v k w ⟨hwj,hj⟩ ⟨hwk,hk⟩
    obtain ⟨xs,vs,rfl,hvs,_,rfl⟩ := (decodes_set hwj).mp hj
    obtain ⟨ys,ws,rfl,hws,_,rfl⟩ := (decodes_set hwk).mp hk
    have hvs := read_list ((wellFormed_envelope (by decide)).mp hwj) hvs
    have hws := read_list ((wellFormed_envelope (by decide)).mp hwk) hws
    rw [equal_typed ((ConcreteType.resolve_le hm _).ok hc),equal_set,← hvs.length_eq,
      ← hws.length_eq,equalItems_eq (h.same m (by omega)) hvs hws]
    simp only [sameForm,i64Form,onItems_envelope (show "$mag" < "items" by decide),
      semanticJsonEqual]
    simp only [Json.get,envelope,Json.asObject,Option.bind_some,
      get_field (show "$mag" < "items" by decide),Json.asArray,bothAnd,List.length_map,
      List.all_map,List.any_map]
    by_cases hl : xs.length = ys.length
    · rw [if_pos hl,beq_iff_eq.mpr hl]
      rfl
    · simp [hl]

/-- Of the entries of a sorted object, the one of a key is found by looking it up. -/
theorem any_key {fields : Json.Object} (hs : fields.Sorted) (key : String) (q : Json → Bool) :
    (fields.any fun e => key == e.1 && q e.2) = match Json.Object.get fields key with
      | some y => q y
      | none => false := by
  cases hg : Json.Object.get fields key with
  | none =>
    have hne := Json.Object.get_eq_none.mp hg
    refine List.any_eq_false.mpr fun e he => ?_
    simp [(hne e he).symm]
  | some y =>
    refine Bool.eq_iff_iff.mpr ⟨fun h => ?_,fun h => ?_⟩
    · obtain ⟨e,he,hq⟩ := List.any_eq_true.mp h
      obtain ⟨hk,hq⟩ := (Bool.and_eq_true _ _).mp hq
      have hy := hs.get he
      rw [← beq_iff_eq.mp hk,hg] at hy
      rwa [Option.some.inj hy]
    · exact List.any_eq_true.mpr ⟨(key,y),Json.Object.mem_of_get hg,by simp [h]⟩

theorem read_stringEntries {entries : Json.Object} {vs : List (Value × Value)}
    (hw : ∀ e ∈ entries, e.2.wellFormed)
    (h : List.Forall₂ (fun (e : String × Json) (f : Value × Value) =>
      f.1 = .str e.1 ∧ Decodes env n item e.2 f.2) entries vs) :
    List.Forall₂ (EntryOf (Read env 1 .string) (Read env n item))
      (entries.map fun e => (.string e.1,e.2)) vs := by
  refine List.forall₂_map_left_iff.mpr ((forall₂_and_left h hw).imp ?_)
  rintro e ⟨k,v⟩ ⟨hwe,rfl,hv⟩
  exact ⟨⟨rfl,rfl⟩,hwe,hv⟩

theorem agrees_stringMap {c : ConcreteType}
    (hc : ConcreteType.resolve env (n+1) (.map .string item) = .ok c) (h : Agrees env n item s) :
    Agrees env (n+1) (.map .string item) (.map .string s) where
  decodes := by
    intro j hw ha
    obtain ⟨entries,rfl,hentries⟩ := (accepts_stringMap hw).mp ha
    obtain ⟨_,hwf⟩ := (Json.wellFormed_object entries).mp hw
    have hvs : ∀ e ∈ entries, ∃ f : Value × Value, f.1 = .str e.1 ∧ Decodes env n item e.2 f.2 := by
      intro e he
      obtain ⟨v,hv⟩ := h.decodes e.2 (hwf e he) (hentries e he)
      exact ⟨(.str e.1,v),rfl,hv⟩
    obtain ⟨vs,hvs⟩ := exists_forall₂ hvs
    exact ⟨_,decodes_stringMap.mpr ⟨entries,vs,rfl,hvs,rfl⟩⟩
  accepted := by
    rintro j v ⟨hw,hj⟩
    have hwf := i64Form_wellFormed (.map .string s) hw
    obtain ⟨entries,vs,rfl,hvs,rfl⟩ := decodes_stringMap.mp hj
    obtain ⟨_,hwe⟩ := (Json.wellFormed_object entries).mp hw
    refine (accepts_stringMap hwf).mpr ⟨_,by rw [i64Form]; rfl,?_⟩
    refine List.forall_mem_map.mpr fun e he => ?_
    obtain ⟨f,_,_,hf⟩ := forall₂_mem hvs he
    exact h.accepted e.2 f.2 ⟨hwe e he,hf⟩
  same := by
    rintro m hm j v k w ⟨hwj,hj⟩ ⟨hwk,hk⟩
    obtain ⟨xs,vs,rfl,hvs,rfl⟩ := decodes_stringMap.mp hj
    obtain ⟨ys,ws,rfl,hws,rfl⟩ := decodes_stringMap.mp hk
    obtain ⟨_,hwx⟩ := (Json.wellFormed_object xs).mp hwj
    obtain ⟨hsy,hwy⟩ := (Json.wellFormed_object ys).mp hwk
    have hvs := read_stringEntries hwx hvs
    have hws := read_stringEntries hwy hws
    have hkeys : ∀ a b : String, sameForm .string (.string a) (.string b) = (a == b) :=
      fun a b => rfl
    have hany : ∀ e : String × Json, (ys.any fun y => e.1 == y.1 && sameForm s e.2 y.2) =
        match Json.Object.get (ys.map fun y => (y.1,i64Form s y.2)) e.1 with
          | some y => semanticJsonEqual s (i64Form s e.2) y
          | none => false := by
      intro e
      rw [any_key hsy e.1 (sameForm s e.2),get_map ys fun _ y => i64Form s y]
      cases Json.Object.get ys e.1 <;> rfl
    rw [equal_typed ((ConcreteType.resolve_le hm _).ok hc),equal_map,← hvs.length_eq,
      ← hws.length_eq,equalEntries_eq (agrees_string.same m (by omega)) (h.same m (by omega)) hvs hws]
    simp only [List.length_map,List.all_map,List.any_map,Function.comp_def,hkeys,hany]
    simp only [sameForm,i64Form,semanticJsonEqual,isStringKey,if_true,Json.asObject,bothAnd,
      List.length_map,List.all_map,Function.comp_def]
    by_cases hl : xs.length = ys.length
    · rw [if_pos hl,beq_iff_eq.mpr hl]
      rfl
    · simp [hl]

theorem read_pairs {key : MagType} {pairs : List (Json × Json)} {vs : List (Value × Value)}
    (hw : ∀ e ∈ pairs, e.1.wellFormed ∧ e.2.wellFormed)
    (h : List.Forall₂ (EntryOf (Decodes env n key) (Decodes env n item)) pairs vs) :
    List.Forall₂ (EntryOf (Read env n key) (Read env n item)) pairs vs :=
  (forall₂_and_left h hw).imp fun _ _ h => ⟨⟨h.1.1,h.2.1⟩,h.1.2,h.2.2⟩

/-- The keys of entries stand for the keys of the entries they are read from. -/
theorem read_keys {key : MagType} {pairs : List (Json × Json)} {vs : List (Value × Value)}
    (h : List.Forall₂ (EntryOf (Read env n key) (Read env n item)) pairs vs) :
    List.Forall₂ (Read env n key) (pairs.map (·.1)) (vs.map (·.1)) :=
  List.forall₂_map_left_iff.mpr (List.forall₂_map_right_iff.mpr (h.imp fun _ _ h => h.1))

theorem i64Form_pairs {t : SchemaType} (ht : isStringKey t = false) (pairs : List (Json × Json)) :
    i64Form (.map t s) (envelope "map" "entries" (pairs.map mapEntry)) =
      envelope "map" "entries"
        ((pairs.map fun e => (i64Form t e.1,i64Form s e.2)).map mapEntry) := by
  rw [i64Form.eq_def]
  simp only [ht,Bool.false_eq_true,if_false]
  rw [onItems_envelope (by decide),List.map_map,List.map_map]
  rfl

theorem agrees_map {key : MagType} {t : SchemaType} {c : ConcreteType} (hk : key ≠ .string)
    (ht : isStringKey t = false) (hc : ConcreteType.resolve env (n+1) (.map key item) = .ok c)
    (hkey : Agrees env n key t) (h : Agrees env n item s) :
    Agrees env (n+1) (.map key item) (.map t s) where
  decodes := by
    intro j hw ha
    obtain ⟨pairs,rfl,hpairs,hdistinct⟩ := (accepts_map ht hw).mp ha
    have hwf := wellFormed_pairs.mp ((wellFormed_envelope (by decide)).mp hw)
    have hvs : ∀ e ∈ pairs, ∃ f : Value × Value,
        EntryOf (Decodes env n key) (Decodes env n item) e f := by
      intro e he
      obtain ⟨k,hk⟩ := hkey.decodes e.1 (hwf e he).1 (hpairs e he).1
      obtain ⟨v,hv⟩ := h.decodes e.2 (hwf e he).2 (hpairs e he).2
      exact ⟨(k,v),hk,hv⟩
    obtain ⟨vs,hvs⟩ := exists_forall₂ hvs
    have hd := (rejectDuplicateValues_ok (hkey.same n le_rfl) "map key" .nil
      (read_keys (read_pairs hwf hvs))).mpr ⟨nofun,?_⟩
    · exact ⟨_,(decodes_map hk hw).mpr ⟨pairs,vs,rfl,hvs,hd,rfl⟩⟩
    · refine List.pairwise_map.mpr (hdistinct.imp_of_mem fun {a b} ha hb hab => ?_)
      rwa [sameForm,i64Form_of_accepts t (hwf a ha).1 (hpairs a ha).1,
        i64Form_of_accepts t (hwf b hb).1 (hpairs b hb).1]
  accepted := by
    rintro j v ⟨hw,hj⟩
    have hwf := i64Form_wellFormed (.map t s) hw
    obtain ⟨pairs,vs,rfl,hvs,hd,rfl⟩ := (decodes_map hk hw).mp hj
    have hvs := read_pairs (wellFormed_pairs.mp ((wellFormed_envelope (by decide)).mp hw)) hvs
    have hd := ((rejectDuplicateValues_ok (hkey.same n le_rfl) "map key" .nil
      (read_keys hvs)).mp hd).2
    rw [i64Form_pairs ht] at hwf ⊢
    refine (accepts_map ht hwf).mpr ⟨_,rfl,?_,List.pairwise_map.mpr (List.pairwise_map.mp hd)⟩
    refine List.forall_mem_map.mpr fun e he => ?_
    obtain ⟨f,_,hf⟩ := forall₂_mem hvs he
    exact ⟨hkey.accepted e.1 f.1 hf.1,h.accepted e.2 f.2 hf.2⟩
  same := by
    rintro m hm j v k w ⟨hwj,hj⟩ ⟨hwk,hk'⟩
    obtain ⟨xs,vs,rfl,hvs,_,rfl⟩ := (decodes_map hk hwj).mp hj
    obtain ⟨ys,ws,rfl,hws,_,rfl⟩ := (decodes_map hk hwk).mp hk'
    have hvs := read_pairs (wellFormed_pairs.mp ((wellFormed_envelope (by decide)).mp hwj)) hvs
    have hws := read_pairs (wellFormed_pairs.mp ((wellFormed_envelope (by decide)).mp hwk)) hws
    rw [equal_typed ((ConcreteType.resolve_le hm _).ok hc),equal_map,← hvs.length_eq,
      ← hws.length_eq,equalEntries_eq (hkey.same m (by omega)) (h.same m (by omega)) hvs hws,
      sameForm,i64Form_pairs ht,i64Form_pairs ht]
    simp only [semanticJsonEqual,ht,Bool.false_eq_true,if_false]
    simp only [Json.get,envelope,Json.asObject,Option.bind_some,
      get_field (show "$mag" < "entries" by decide),Json.asArray,bothAnd,List.length_map,
      List.all_map,List.any_map]
    by_cases hl : xs.length = ys.length
    · rw [if_pos hl,beq_iff_eq.mpr hl]
      rfl
    · simp [hl]

end Collections

section Products
variable {env : Env} {n m : Nat} {components : List MagType} {ss : List SchemaType}

/-- The positions of a tuple and the values read from them. -/
def Positions (env : Env) (n : Nat) (components : List MagType) (items : List Json)
    (vs : List Value) : Prop :=
  items.length = components.length ∧
    List.Forall₂ (fun p w => Read env n p.2 p.1 w) (items.zip components) vs

theorem positions_cons {c : MagType} {items : List Json} {vs : List Value}
    (h : Positions env n (c :: components) items vs) : ∃ x xs v ws, items = x :: xs ∧ vs = v :: ws ∧
      Read env n c x v ∧ Positions env n components xs ws := by
  obtain ⟨hl,h⟩ := h
  cases items with
  | nil => cases hl
  | cons x xs =>
    rw [List.zip_cons_cons] at h
    cases h with
    | cons hx hxs => exact ⟨x,xs,_,_,rfl,rfl,hx,Nat.succ.inj hl,hxs⟩

theorem positions_nil {items : List Json} {vs : List Value} (h : Positions env n [] items vs) :
    items = [] ∧ vs = [] := by
  obtain ⟨hl,h⟩ := h
  obtain rfl := List.eq_nil_of_length_eq_zero hl
  cases h
  exact ⟨rfl,rfl⟩

theorem positions_decode (h : List.Forall₂ (Agrees env n) components ss) {items : List Json}
    (hw : ∀ x ∈ items, x.wellFormed) (ha : List.Forall₂ Accepts ss items) :
    ∃ vs, Positions env n components items vs := by
  induction h generalizing items with
  | nil => cases ha; exact ⟨[],rfl,.nil⟩
  | cons hc _ ih =>
    cases ha with
    | cons hx hxs =>
      obtain ⟨hwx,hwxs⟩ := List.forall_mem_cons.mp hw
      obtain ⟨v,hv⟩ := hc.decodes _ hwx hx
      obtain ⟨vs,hl,hvs⟩ := ih hwxs hxs
      exact ⟨v :: vs,congrArg Nat.succ hl,.cons ⟨hwx,hv⟩ hvs⟩

theorem positions_accepted (h : List.Forall₂ (Agrees env n) components ss) {items : List Json}
    {vs : List Value} (hv : Positions env n components items vs) :
    List.Forall₂ Accepts ss (i64Positions ss items) := by
  induction h generalizing items vs with
  | nil =>
    obtain ⟨rfl,rfl⟩ := positions_nil hv
    rw [i64Positions]
    · exact .nil
    · intros; contradiction
  | cons hc _ ih =>
    obtain ⟨x,xs,v,ws,rfl,rfl,hx,hxs⟩ := positions_cons hv
    rw [i64Positions]
    exact .cons (hc.accepted x v hx) (ih hxs)

theorem positions_same (hm : n ≤ m) (h : List.Forall₂ (Agrees env n) components ss)
    {xs ys : List Json} {vs ws : List Value} (hv : Positions env n components xs vs)
    (hw : Positions env n components ys ws) : equalPositions env m vs ws =
      .ok (semanticPositions ss (i64Positions ss xs) (i64Positions ss ys)) := by
  induction h generalizing xs ys vs ws with
  | nil =>
    obtain ⟨rfl,rfl⟩ := positions_nil hv
    obtain ⟨rfl,rfl⟩ := positions_nil hw
    simp [equalPositions,semanticPositions]
  | cons hc _ ih =>
    obtain ⟨x,xs,v,vs,rfl,rfl,hx,hxs⟩ := positions_cons hv
    obtain ⟨y,ys,w,ws,rfl,rfl,hy,hys⟩ := positions_cons hw
    rw [equalPositions,hc.same m hm x v y w hx hy,ok_bind,i64Positions,i64Positions,
      semanticPositions,sameForm]
    cases semanticJsonEqual _ (i64Form _ x) (i64Form _ y) with
    | true => exact ih hxs hys
    | false => rfl

theorem i64Positions_length (ss : List SchemaType) (items : List Json) :
    (i64Positions ss items).length = items.length := by
  induction ss generalizing items with
  | nil => rw [i64Positions]; intros; contradiction
  | cons s rest ih =>
    cases items with
    | nil => rw [i64Positions]; intros; contradiction
    | cons x xs => rw [i64Positions,List.length_cons,List.length_cons,ih]

theorem read_positions {items : List Json} {vs : List Value} (hw : ∀ x ∈ items, x.wellFormed)
    (hl : items.length = components.length)
    (h : List.Forall₂ (fun p w => Decodes env n p.2 p.1 w) (items.zip components) vs) :
    Positions env n components items vs :=
  ⟨hl,forall₂_and_left h fun _ hp => hw _ (List.of_mem_zip hp).1⟩

theorem agrees_product (h : List.Forall₂ (Agrees env n) components ss) :
    Agrees env (n+1) (.product components) (.product ss) where
  decodes := by
    intro j hw ha
    obtain ⟨items,rfl,hitems⟩ := (accepts_product hw).mp ha
    obtain ⟨vs,hl,hvs⟩ := positions_decode h ((Json.wellFormed_array items).mp hw) hitems
    exact ⟨_,decodes_product.mpr ⟨items,vs,rfl,hl,hvs.imp fun _ _ h => h.2,rfl⟩⟩
  accepted := by
    rintro j v ⟨hw,hj⟩
    have hwf := i64Form_wellFormed (.product ss) hw
    obtain ⟨items,vs,rfl,hl,hvs,rfl⟩ := decodes_product.mp hj
    have hvs := read_positions ((Json.wellFormed_array items).mp hw) hl hvs
    exact (accepts_product hwf).mpr ⟨_,by rw [i64Form],positions_accepted h hvs⟩
  same := by
    rintro m hm j v k w ⟨hwj,hj⟩ ⟨hwk,hk⟩
    obtain ⟨xs,vs,rfl,hlx,hvs,rfl⟩ := decodes_product.mp hj
    obtain ⟨ys,ws,rfl,hly,hws,rfl⟩ := decodes_product.mp hk
    have hvs := read_positions ((Json.wellFormed_array xs).mp hwj) hlx hvs
    have hws := read_positions ((Json.wellFormed_array ys).mp hwk) hly hws
    have hlv := hvs.2.length_eq
    have hlw := hws.2.length_eq
    rw [List.length_zip] at hlv hlw
    rw [equal_product,if_pos (by omega),positions_same (by omega) h hvs hws]
    simp [sameForm,i64Form,semanticJsonEqual,Json.asArray,bothAnd,i64Positions_length,hlx,hly,
      h.length_eq]

end Products

section Nominals
variable {env : Env} {n : Nat} {name : String} {args : List MagType} {decl : TypeDecl}

/-- The name of a schema says nothing about documents. -/
theorem Agrees.named {ty : MagType} {s : SchemaType} (h : Agrees env n ty s) (name : String) :
    Agrees env n ty (.named name s) where
  decodes := fun j hw ha => h.decodes j hw (accepts_named.mp ha)
  accepted := by
    intro j v hv
    rw [i64Form]
    exact accepts_named.mpr (h.accepted j v hv)
  same := by
    intro m hm j v k w hj hk
    rw [h.same m hm j v k w hj hk,sameForm,sameForm,i64Form,i64Form,semanticJsonEqual]

theorem agrees_alias (hd : env.typeDecl name = some decl) {body : MagType}
    (hb : decl.body = .transparentAlias body ∨ decl.body = .nominalAlias body)
    {c : ConcreteType} (hc : ConcreteType.resolve env (n+1) (.named name args) = .ok c)
    {s : SchemaType} (h : Agrees env n (body.substitute (substitutions decl.params args)) s) :
    Agrees env (n+1) (.named name args) s where
  decodes := by
    intro j hw ha
    obtain ⟨w,hw⟩ := h.decodes j hw ha
    exact ⟨_,(decodes_alias hd hb).mpr ⟨w,hw,rfl⟩⟩
  accepted := by
    rintro j v ⟨hw,hj⟩
    obtain ⟨w,hv,rfl⟩ := (decodes_alias hd hb).mp hj
    exact h.accepted j w ⟨hw,hv⟩
  same := by
    rintro m hm j v k w ⟨hwj,hj⟩ ⟨hwk,hk⟩
    obtain ⟨v,hv,rfl⟩ := (decodes_alias hd hb).mp hj
    obtain ⟨w,hw,rfl⟩ := (decodes_alias hd hb).mp hk
    rw [equal_typed ((ConcreteType.resolve_le hm _).ok hc)]
    exact h.same m (by omega) j v k w ⟨hwj,hv⟩ ⟨hwk,hw⟩

end Nominals

section Records
variable {env : Env} {n m : Nat} {subst : List (String × MagType)}
  {ts : List (String × MagType)} {ms : List (String × SchemaType)}

/-- Declared members and the members of their schema, in one order. -/
def Members (env : Env) (n : Nat) (subst : List (String × MagType)) (ts : List (String × MagType))
    (ms : List (String × SchemaType)) : Prop :=
  List.Forall₂ (fun f m => m.1 = f.1 ∧ Agrees env n (f.2.substitute subst) m.2) ts ms

/-- Each declared field is read from the entry of its name. -/
def Fields (env : Env) (n : Nat) (subst : List (String × MagType)) (ts : List (String × MagType))
    (entries : Json.Object) (vs : List (String × Value)) : Prop :=
  List.Forall₂ (fun f w => w.1 = f.1 ∧ ∃ x, Json.Object.get entries f.1 = some x ∧
    Read env n (f.2.substitute subst) x w.2) ts vs

theorem members_names (h : Members env n subst ts ms) : ms.map (·.1) = ts.map (·.1) :=
  forall₂_names (h.imp fun _ _ h => h.1)

theorem fields_names {entries : Json.Object} {vs : List (String × Value)}
    (h : Fields env n subst ts entries vs) : vs.map (·.1) = ts.map (·.1) :=
  forall₂_names (h.imp fun _ _ h => h.1)

theorem read_fields {entries : Json.Object} {vs : List (String × Value)}
    (hw : ∀ e ∈ entries, e.2.wellFormed)
    (h : List.Forall₂ (fun (f : String × MagType) (w : String × Value) => w.1 = f.1 ∧
      ∃ x, Json.Object.get entries f.1 = some x ∧ Decodes env n (f.2.substitute subst) x w.2)
      ts vs) : Fields env n subst ts entries vs := by
  refine h.imp ?_
  rintro f w ⟨hn,x,hx,hd⟩
  exact ⟨hn,x,hx,hw _ (Json.Object.mem_of_get hx),hd⟩

theorem sorted_nodup {entries : Json.Object} (hs : entries.Sorted) : (entries.map (·.1)).Nodup :=
  (List.pairwise_map.mpr hs).imp fun h => h.ne

/-- An object has as many entries as there are names exactly when it has no others. -/
theorem length_eq_iff {entries : Json.Object} {names : List String} (hs : entries.Sorted)
    (hn : names.Nodup) (hsub : ∀ name ∈ names, (Json.Object.get entries name).isSome) :
    entries.length = names.length ↔ ∀ e ∈ entries, e.1 ∈ names := by
  have hsub : names ⊆ entries.map (·.1) := fun name h =>
    Json.Object.exists_mem_iff.mp (Json.Object.get_isSome.mp (hsub name h))
  have hperm := List.subperm_of_subset hn hsub
  constructor
  · intro hl e he
    have hp := hperm.perm_of_length_le (by simp [hl])
    exact hp.mem_iff.mpr (List.mem_map_of_mem he)
  · intro he
    have hp : (entries.map (·.1)).Subperm names :=
      List.subperm_of_subset (sorted_nodup hs) (List.forall_mem_map.mpr he)
    have h1 := hperm.length_le
    have h2 := hp.length_le
    simp only [List.length_map] at h1 h2
    omega

theorem fields_decode (h : Members env n subst ts ms) {entries : Json.Object}
    (hw : ∀ e ∈ entries, e.2.wellFormed)
    (ha : ∀ f ∈ ms, ∃ x, Json.Object.get entries f.1 = some x ∧ Accepts f.2 x) :
    ∃ vs, Fields env n subst ts entries vs := by
  refine exists_forall₂ fun f hf => ?_
  obtain ⟨m,hm,hname,hagrees⟩ := forall₂_mem h hf
  obtain ⟨x,hx,hax⟩ := ha m hm
  have hwx := hw _ (Json.Object.mem_of_get hx)
  obtain ⟨v,hv⟩ := hagrees.decodes x hwx hax
  exact ⟨(f.1,v),rfl,x,hname ▸ hx,hwx,hv⟩

/-- The entry of a member in its 64-bit form. -/
theorem get_form (hn : (ms.map (·.1)).Nodup) (entries : Json.Object) {m : String × SchemaType}
    (hm : m ∈ ms) : Json.Object.get (entries.map fun e => (e.1,i64Member ms e.1 e.2)) m.1 =
      (Json.Object.get entries m.1).map (i64Form m.2) := by
  rw [get_map entries fun key v => i64Member ms key v]
  congr 1
  funext v
  rw [i64Member_eq,(lookup_eq_some hn).mpr hm]

theorem fields_accepted (h : Members env n subst ts ms) {entries : Json.Object}
    {vs : List (String × Value)} (hv : Fields env n subst ts entries vs) {f : String × SchemaType}
    (hf : f ∈ ms) : ∃ x, Json.Object.get entries f.1 = some x ∧ Accepts f.2 (i64Form f.2 x) := by
  obtain ⟨t,ht,hname,hagrees⟩ := forall₂_mem h.flip hf
  obtain ⟨w,_,_,x,hx,hr⟩ := forall₂_mem hv ht
  exact ⟨x,hname ▸ hx,hagrees.accepted x w.2 hr⟩

/-- Records are compared field by field, in the order of the declaration. -/
theorem fields_same (hm : n ≤ m) (h : Members env n subst ts ms) {left right xs ys : Json.Object}
    {vs ws : List (String × Value)} (hv : Fields env n subst ts xs vs)
    (hleft : ∀ m ∈ ms, Json.Object.get left m.1 = (Json.Object.get xs m.1).map (i64Form m.2))
    (hright : ∀ m ∈ ms, Json.Object.get right m.1 = (Json.Object.get ys m.1).map (i64Form m.2))
    (hw : ∀ f ∈ ts, ∃ w y, ws.lookup f.1 = some w ∧ Json.Object.get ys f.1 = some y ∧
      Read env n (f.2.substitute subst) y w) :
    equalFields env m vs ws = .ok (semanticFields ms (.object left) (.object right)) := by
  induction h generalizing vs with
  | nil => cases hv; simp [equalFields,semanticFields]
  | @cons t s ts ms hts _ ih =>
    cases hv with
    | @cons _ v _ vs hv hvs =>
      obtain ⟨w,y,hl,hy,hry⟩ := hw t List.mem_cons_self
      obtain ⟨hvt,x,hx,hrx⟩ := hv
      obtain ⟨hst,hagrees⟩ := hts
      obtain ⟨key,v⟩ := v
      obtain ⟨sname,s⟩ := s
      dsimp only at hvt hst
      subst hvt hst
      have hle := hleft _ List.mem_cons_self
      have hri := hright _ List.mem_cons_self
      dsimp only at hle hri
      rw [hx] at hle
      rw [hy] at hri
      rw [equalFields,hl]
      dsimp only
      rw [hagrees.same m hm x v y w hrx hry,ok_bind,semanticFields]
      simp only [Json.get,Json.asObject,Option.bind_some,hle,hri,Option.map_some,bothAnd]
      rw [← sameForm]
      cases sameForm s x y with
      | true =>
        exact ih hvs (fun m hm => hleft m (List.mem_cons_of_mem _ hm))
          (fun m hm => hright m (List.mem_cons_of_mem _ hm))
          fun f hf => hw f (List.mem_cons_of_mem _ hf)
      | false => rfl

theorem agrees_fields {name : String} {args : List MagType} {decl : TypeDecl}
    (hd : env.typeDecl name = some decl) {fs : FieldTypes} (hb : decl.body = .fields fs)
    {c : ConcreteType} (hc : ConcreteType.resolve env (n+1) (.named name args) = .ok c)
    (h : Members env n (substitutions decl.params args) fs.types ms) :
    Agrees env (n+1) (.named name args) (.fields ms) where
  decodes := by
    intro j hw ha
    obtain ⟨entries,rfl,hnames,hfields⟩ := (accepts_fields hw).mp ha
    obtain ⟨hs,hwe⟩ := (Json.wellFormed_object entries).mp hw
    obtain ⟨vs,hvs⟩ := fields_decode h hwe hfields
    have hn := members_names h
    have hnd : (fs.types.map (·.1)).Nodup := (List.pairwise_map.mpr fs.sorted).imp fun h => h.ne
    have hl := (length_eq_iff hs (hn ▸ hnd) ?_).mpr hnames
    · rw [hn,List.length_map] at hl
      refine ⟨_,(decodes_fields hd hb).mpr ⟨entries,vs,rfl,hl,hvs.imp ?_,rfl⟩⟩
      rintro f w ⟨hname,x,hx,hr⟩
      exact ⟨hname,x,hx,hr.2⟩
    · refine List.forall_mem_map.mpr fun f hf => ?_
      obtain ⟨x,hx,_⟩ := hfields f hf
      rw [hx]; rfl
  accepted := by
    rintro j v ⟨hw,hj⟩
    have hwf := i64Form_wellFormed (.fields ms) hw
    obtain ⟨entries,vs,rfl,hl,hvs,rfl⟩ := (decodes_fields hd hb).mp hj
    obtain ⟨hs,hwe⟩ := (Json.wellFormed_object entries).mp hw
    have hvs := read_fields hwe hvs
    have hn := members_names h
    have hnd : (ms.map (·.1)).Nodup :=
      hn ▸ (List.pairwise_map.mpr fs.sorted).imp fun h => h.ne
    have hnames := (length_eq_iff hs hnd ?_).mp (by rw [hl,hn,List.length_map])
    · rw [i64Form] at hwf ⊢
      refine (accepts_fields hwf).mpr ⟨_,rfl,List.forall_mem_map.mpr hnames,?_⟩
      intro f hf
      obtain ⟨x,hx,ha⟩ := fields_accepted h hvs hf
      exact ⟨_,by rw [get_form hnd entries hf,hx]; rfl,ha⟩
    · refine List.forall_mem_map.mpr fun f hf => ?_
      obtain ⟨x,hx,_⟩ := fields_accepted h hvs hf
      rw [hx]; rfl
  same := by
    rintro m hm j v k w ⟨hwj,hj⟩ ⟨hwk,hk⟩
    obtain ⟨xs,vs,rfl,hlx,hvs,rfl⟩ := (decodes_fields hd hb).mp hj
    obtain ⟨ys,ws,rfl,hly,hws,rfl⟩ := (decodes_fields hd hb).mp hk
    have hvs := read_fields ((Json.wellFormed_object xs).mp hwj).2 hvs
    have hws := read_fields ((Json.wellFormed_object ys).mp hwk).2 hws
    have hnd : (fs.types.map (·.1)).Nodup := (List.pairwise_map.mpr fs.sorted).imp fun h => h.ne
    have hmd : (ms.map (·.1)).Nodup := members_names h ▸ hnd
    rw [equal_typed ((ConcreteType.resolve_le hm _).ok hc),equal_fields,
      if_pos (hvs.length_eq.symm.trans hws.length_eq),sameForm,i64Form,i64Form,semanticJsonEqual]
    refine fields_same (by omega) h hvs (fun m hm => get_form hmd xs hm)
      (fun m hm => get_form hmd ys hm) fun f hf => ?_
    obtain ⟨w,hw,hname,y,hy,hr⟩ := forall₂_mem hws hf
    exact ⟨w.2,y,(lookup_eq_some (fields_names hws ▸ hnd)).mpr (hname ▸ hw),hy,hr⟩

end Records

section Sums
variable {env : Env} {n : Nat} {subst : List (String × MagType)} {cs : List ConstructorDecl}
  {ms : List (String × SchemaType)}

/-- Declared constructors and the members of their schema, in one order. -/
def Constructors (env : Env) (n : Nat) (subst : List (String × MagType))
    (cs : List ConstructorDecl) (ms : List (String × SchemaType)) : Prop :=
  List.Forall₂ (fun c m => m.1 = c.id.name ∧ Agrees env n (c.payload.substitute subst) m.2) cs ms

/-- The first constructor of a name and the first member of that name stand together. -/
theorem constructors_lookup (h : Constructors env n subst cs ms) (tag : String) :
    (cs.find? (fun c => c.id.name == tag) = none ∧ ms.lookup tag = none) ∨
    ∃ c s, cs.find? (fun c => c.id.name == tag) = some c ∧ ms.lookup tag = some s ∧
      Agrees env n (c.payload.substitute subst) s := by
  induction h with
  | nil => exact .inl ⟨rfl,rfl⟩
  | @cons c m _ _ hcm _ ih =>
    obtain ⟨name,s⟩ := m
    obtain ⟨hname,hagrees⟩ := hcm
    by_cases ht : c.id.name = tag
    · refine .inr ⟨c,s,by simp [ht],?_,hagrees⟩
      rw [show name = tag from hname.trans ht,List.lookup_cons_self]
    · have hne : (tag == name) = false := by
        rw [show name = c.id.name from hname,beq_eq_false_iff_ne]
        exact Ne.symm ht
      have hf : ∀ cs : List ConstructorDecl, (c :: cs).find? (fun c => c.id.name == tag) =
          cs.find? fun c => c.id.name == tag := fun cs => by simp [ht]
      have hl : ∀ ms : List (String × SchemaType), ((name,s) :: ms).lookup tag = ms.lookup tag :=
        fun ms => by rw [List.lookup_cons,hne]
      rw [hf,hl]
      exact ih

/-- Sums are equal when their tags are and their payloads are at the member of the tag. -/
theorem semanticSum_sumOf {wire : SumWire} (h : wire.tagKey < "value")
    (ms : List (String × SchemaType)) (tag tag' : String) (x y : Json) :
    semanticSum ms wire.tagKey (sumOf wire tag x) (sumOf wire tag' y) = (tag == tag' &&
      match ms.lookup tag with
      | some s => semanticJsonEqual s x y
      | none => false) := by
  induction ms with
  | nil => simp [semanticSum]
  | cons m rest ih =>
    obtain ⟨name,s⟩ := m
    rw [semanticSum]
    simp only [ih]
    simp only [Json.get,sumOf,Json.asObject,Option.bind_some,get_tag,get_payload h,Json.asStr,
      bothAnd]
    by_cases hn : name = tag
    · rw [if_pos hn,hn,List.lookup_cons_self]
    · rw [if_neg hn,List.lookup_cons,beq_eq_false_iff_ne.mpr (Ne.symm hn)]
      cases tag == tag' <;> rfl

theorem agrees_adt {name owner : String} {args : List MagType} {decl : TypeDecl}
    (hd : env.typeDecl name = some decl) (hb : decl.body = .adt cs) {c : ConcreteType}
    (hc : ConcreteType.resolve env (n+1) (.named name args) = .ok c)
    (h : Constructors env n (substitutions decl.params args) (sortConstructors cs) ms) :
    Agrees env (n+1) (.named name args) (.adt name owner ms) := by
  have hfind : ∀ tag, (sortConstructors cs).find? (fun c => c.id.name == tag) =
      cs.find? fun c => c.id.name == tag := find?_mergeSort (fun c => c.id.name) cs
  have hmember : ∀ tag c, cs.find? (fun c => c.id.name == tag) = some c → ∃ s,
      ms.lookup tag = some s ∧
        Agrees env n (c.payload.substitute (substitutions decl.params args)) s := by
    intro tag c hf
    rcases constructors_lookup h tag with ⟨hn,_⟩ | ⟨c',s,hf',hs,ha⟩
    · rw [hfind,hf] at hn
      cases hn
    · rw [hfind,hf] at hf'
      cases hf'
      exact ⟨s,hs,ha⟩
  have hform : ∀ tag s payload, ms.lookup tag = some s →
      i64Form (.adt name owner ms) (sumOf adtWire tag payload) =
        sumOf adtWire tag (i64Form s payload) := by
    intro tag s payload hs
    rw [i64Form,onPayload_sumOf (by decide),i64Member_eq,hs]
  constructor
  · intro j hw ha
    obtain ⟨tag,s,payload,rfl,hs,hp⟩ := (accepts_adt hw).mp ha
    rcases constructors_lookup h tag with ⟨_,hn⟩ | ⟨k,s',hf,hs',hagrees⟩
    · rw [hs] at hn
      cases hn
    · rw [hs] at hs'
      cases hs'
      obtain ⟨w,hw'⟩ := hagrees.decodes payload ((wellFormed_sumOf (by decide)).mp hw) hp
      exact ⟨_,(decodes_adt hd hb hw).mpr ⟨tag,k,payload,w,rfl,hfind tag ▸ hf,hw',rfl⟩⟩
  · rintro j v ⟨hw,hj⟩
    have hwf := i64Form_wellFormed (.adt name owner ms) hw
    obtain ⟨tag,k,payload,w,rfl,hf,hu,rfl⟩ := (decodes_adt hd hb hw).mp hj
    obtain ⟨s,hs,hagrees⟩ := hmember tag k hf
    have hp := hagrees.accepted payload w ⟨(wellFormed_sumOf (by decide)).mp hw,hu⟩
    exact (accepts_adt hwf).mpr ⟨tag,s,_,hform tag s payload hs,hs,hp⟩
  · rintro m hm j v k w ⟨hwj,hj⟩ ⟨hwk,hk⟩
    obtain ⟨tag,kv,x,v,rfl,hfv,hv,rfl⟩ := (decodes_adt hd hb hwj).mp hj
    obtain ⟨tag',kw,y,w,rfl,hfw,hw,rfl⟩ := (decodes_adt hd hb hwk).mp hk
    obtain ⟨s,hs,hagrees⟩ := hmember tag kv hfv
    obtain ⟨s',hs',_⟩ := hmember tag' kw hfw
    have hnv : kv.id.name = tag := by simpa using List.find?_some hfv
    have hnw : kw.id.name = tag' := by simpa using List.find?_some hfw
    rw [equal_adt ((ConcreteType.resolve_le hm _).ok hc),sameForm,hform tag s x hs,
      hform tag' s' y hs',semanticJsonEqual,semanticSum_sumOf (by decide),hs]
    by_cases ht : tag = tag'
    · subst ht
      obtain rfl : kv = kw := Option.some.inj (hfv.symm.trans hfw)
      obtain rfl : s = s' := Option.some.inj (hs.symm.trans hs')
      rw [if_pos rfl,beq_self_eq_true,Bool.true_and]
      exact hagrees.same m (by omega) x v y w ⟨(wellFormed_sumOf (by decide)).mp hwj,hv⟩
        ⟨(wellFormed_sumOf (by decide)).mp hwk,hw⟩
    · have hne : kv.id ≠ kw.id := fun he => ht (by rw [← hnv,← hnw,he])
      rw [if_neg hne,beq_eq_false_iff_ne.mpr ht,Bool.false_and]

end Sums

section Types
variable {env : Env} {n : Nat}

theorem isStringKey_reify (stableId : ConcreteType → String) {c : ConcreteType}
    (h : c ≠ .string) : isStringKey (reifyConcrete stableId c) = false := by
  cases c with
  | string => exact absurd rfl h
  | _ => simp [reifyConcrete,isStringKey]

/-- Every type that resolves agrees with its schema. -/
theorem agrees (stableId : ConcreteType → String) {resolving : List (String × List ConcreteType)}
    {ty : MagType} {c : ConcreteType} (h : resolve env n resolving ty = .ok c)
    (hk : KeysPlain env ty) : Agrees env n ty (reifyConcrete stableId c) := by
  induction n generalizing resolving ty c with
  | zero => cases h
  | succ n ih =>
    have hc : ConcreteType.resolve env (n+1) ty = .ok c := resolve_fewer (by simp) h
    cases ty with
    | jsonValue => cases h; exact agrees_jsonValue
    | unit => cases h; exact agrees_unit
    | bool => cases h; exact agrees_bool
    | int => cases h; exact agrees_int
    | float => cases h; exact agrees_float
    | string => cases h; exact agrees_string
    | list item =>
      obtain ⟨i,hi,rfl⟩ := resolve_list h
      rw [reifyConcrete]
      exact agrees_list (ih hi (hk.part (.list item)))
    | set item =>
      obtain ⟨i,hi,rfl⟩ := resolve_set h
      rw [reifyConcrete]
      exact agrees_set hc (ih hi (hk.part (.set item)))
    | map key value =>
      obtain ⟨k,v,hkey,hv,rfl⟩ := resolve_map h
      have hvalue := ih hv (hk.part (.value key value))
      rw [reifyConcrete]
      by_cases hs : key = .string
      · subst hs
        cases n with
        | zero => cases hkey
        | succ n =>
          cases hkey
          exact agrees_stringMap hc hvalue
      · have hne : k ≠ .string := by
          rintro rfl
          exact hk key value .refl hs n (resolve_fewer (by simp) hkey)
        exact agrees_map hs (isStringKey_reify stableId hne) hc
          (ih hkey (hk.part (.key key value))) hvalue
    | product components =>
      obtain ⟨cs,hcs,rfl⟩ := resolve_product h
      rw [reifyConcrete,reifyItems_eq]
      refine agrees_product (List.forall₂_map_right_iff.mpr ?_)
      refine (forall₂_and_left hcs fun t ht => ht).imp ?_
      rintro t c ⟨ht,hr⟩
      exact ih hr (hk.part (.component ht))
    | named name args =>
      obtain ⟨decl,arguments,hd,_,_,_,hbody⟩ := resolve_named h
      have hpart : ∀ t ∈ decl.body.types,
          KeysPlain env (t.substitute (substitutions decl.params args)) :=
        fun t ht => hk.part (.body hd ht)
      generalize hb : decl.body = body at hpart
      rw [resolveBody,hb] at hbody
      cases body with
      | fields fs =>
        obtain ⟨members,hms,hbody⟩ := bind_eq_ok.mp hbody
        cases hbody
        rw [reifyConcrete,reifyMembers_eq]
        refine (agrees_fields hd hb hc (List.forall₂_map_right_iff.mpr ?_)).named name
        refine (forall₂_and_left (Run.mapM_eq_ok.mp hms) fun f hf => hf).imp ?_
        rintro f m ⟨hf,hm⟩
        obtain ⟨ty,hty,hm⟩ := bind_eq_ok.mp hm
        cases hm
        exact ⟨rfl,ih hty (hpart f.2 (List.mem_map_of_mem hf))⟩
      | transparentAlias body =>
        exact agrees_alias hd (.inl hb) hc (ih hbody (hpart body List.mem_cons_self))
      | nominalAlias body =>
        obtain ⟨ty,hty,hbody⟩ := bind_eq_ok.mp hbody
        cases hbody
        rw [reifyConcrete]
        exact (agrees_alias hd (.inr hb) hc (ih hty (hpart body List.mem_cons_self))).named name
      | adt constructors =>
        obtain ⟨members,hms,hbody⟩ := bind_eq_ok.mp hbody
        cases hbody
        rw [reifyConcrete,reifyMembers_eq]
        refine agrees_adt hd hb hc (List.forall₂_map_right_iff.mpr ?_)
        refine (forall₂_and_left (Run.mapM_eq_ok.mp hms) fun c hc => hc).imp ?_
        rintro k m ⟨hk,hm⟩
        obtain ⟨ty,hty,hm⟩ := bind_eq_ok.mp hm
        cases hm
        have hmem : k ∈ constructors := List.mem_mergeSort.mp hk
        exact ⟨rfl,ih hty (hpart k.payload (List.mem_map_of_mem hmem))⟩
      | native => cases hbody
    | _ => cases h

end Types

section Agreement
variable {env : Env}

theorem validateValue_fromConcrete (stableId : ConcreteType → String) (c : ConcreteType) (j : Json) :
    ((TypeSchema.fromConcrete stableId c).validateValue j).ok ↔
      validateAt (reifyConcrete stableId c) j "$" = [] := by
  simp [TypeSchema.validateValue,TypeSchema.fromConcrete]

/-- A document that the schema of a type accepts decodes at the type, and one that decodes is
accepted once its integers are in their 64-bit form. -/
theorem validation_agrees_with_decoding (env : Env) (stableId : ConcreteType → String) (n : Nat)
    (ty : MagType) (schema : TypeSchema) (h : TypeSchema.reify stableId env n ty = .ok schema)
    (hk : KeysPlain env ty) (j : Json.Document) :
    ((schema.validateValue j).ok → ∃ v, jsonToTypedValue env n j ty = .ok v) ∧
      ∀ m v, jsonToTypedValue env m j ty = .ok v →
        (schema.validateValue (i64Form schema.root j)).ok := by
  obtain ⟨c,hc,h⟩ := bind_eq_ok.mp h
  cases h
  constructor
  · intro hv
    have hv := (accepts_iff j.2).mpr ((validateValue_fromConcrete stableId c j).mp hv)
    exact (agrees stableId hc hk).decodes j j.2 hv
  · intro m v hv
    -- the decoder may have been given less fuel than the resolution, or more
    have hc' := (ConcreteType.resolve_le (Nat.le_max_left n m) ty).ok hc
    have hv' := (decodeTypedValue_le (Nat.le_max_right n m) j.1 ty).ok hv
    exact (validateValue_fromConcrete stableId c _).mpr
      ((agrees stableId hc' hk).accepted j.1 v ⟨j.2,hv'⟩ "$")

theorem keysPlain_of_parts {ty : MagType} (h : ∀ part, Part env ty part → KeysPlain env part)
    (hm : ∀ key value, ty ≠ .map key value ∨ key = .string) : KeysPlain env ty := by
  intro key value hr hne
  rcases hr.cases_head with rfl | ⟨part,hp,hr⟩
  · rcases hm key value with hm | hm
    · exact absurd rfl hm
    · exact absurd hm hne
  · exact h part hp key value hr hne

theorem keysPlain_stringMap : KeysPlain env (.map .string .int) := by
  refine keysPlain_of_parts (fun part hp => ?_) fun key value => ?_
  · cases hp <;> exact keysPlain_of_parts (fun part hp => nomatch hp) fun _ _ => .inl nofun
  · by_cases hk : key = .string
    · exact .inr hk
    · exact .inl fun he => hk (by cases he; rfl)

def counts : Json.Document := ⟨.object [("a",.number (.posInt ⟨1,by decide⟩))],rfl⟩

theorem validation_agrees_counts :
    ((TypeSchema.fromConcrete (fun _ => "") (.map .string .int)).validateValue counts).ok ∧
      ∃ v, jsonToTypedValue ⟨fun _ => none⟩ 2 counts (.map .string .int) = .ok v :=
  have hv : ((TypeSchema.fromConcrete (fun _ => "") (.map .string .int)).validateValue counts).ok :=
    (validateValue_fromConcrete _ _ _).mpr ((accepts_stringMap counts.2).mpr
      ⟨_,rfl,List.forall_mem_singleton.mpr (accepts_int.mpr rfl)⟩ "$")
  ⟨hv,(validation_agrees_with_decoding ⟨fun _ => none⟩ (fun _ => "") 2 (.map .string .int) _ rfl
    keysPlain_stringMap counts).1 hv⟩

/-- One declaration: `main.Key` is another name for `String`. -/
def aliasedKeys : Env where
  typeDecl name := if name = "main.Key" then some ⟨"main.Key",[],.transparentAlias .string⟩ else none

/-- The schema writes the keys of a map by what they resolve to, the decoder by what they are
called. -/
theorem aliased_keys_disagree :
    ∃ schema, TypeSchema.reify (fun _ => "") aliasedKeys 3 (.map (.named "main.Key" []) .int) =
        .ok schema ∧ (schema.validateValue (.object [])).ok ∧
      ∀ n v, jsonToTypedValue aliasedKeys n (.object []) (.map (.named "main.Key" []) .int) ≠
        .ok v := by
  refine ⟨_,rfl,?_,fun n v h => ?_⟩
  · exact (validateValue_fromConcrete _ _ _).mpr
      ((accepts_stringMap (by decide)).mpr ⟨[],rfl,by simp⟩ "$")
  cases n with
  | zero => cases h
  | succ n => cases h

end Agreement

end Nefor.Mag
