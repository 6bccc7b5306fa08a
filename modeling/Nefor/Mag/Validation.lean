import Nefor.Lists
import Nefor.Mag.Schema

/-! What a schema accepts, constructor by constructor. Violations carry a path, but whether
there are any does not depend on it. -/
namespace Nefor.Mag
open Nefor.Json (record)

theorem expect_eq_nil {b : Bool} {path expected : String} {value : Json} :
    expect b path expected value = [] ↔ b = true := by
  cases b <;> simp [expect]

theorem isStringKey_iff {key : SchemaType} : isStringKey key ↔ key = .string := by
  cases key <;> simp [isStringKey]

section Envelopes

/-- The wire form of sets and of maps without string keys. -/
def envelope (tag field : String) (items : List Json) : Json :=
  .object [("$mag",.string tag),(field,.array items)]

theorem envelope_eq {tag field : String} (h : "$mag" < field) (items : List Json) :
    record [("$mag",.string tag),(field,.array items)] = envelope tag field items := by
  rw [record,(Json.Object.sorted_pair h _ _).ofList,envelope]

theorem wellFormed_envelope {tag field : String} (h : "$mag" < field) {items : List Json} :
    (envelope tag field items).wellFormed ↔ ∀ x ∈ items, x.wellFormed := by
  rw [envelope,Json.wellFormed_object,← Json.wellFormed_array]
  constructor
  · intro hw
    exact hw.2 (field,.array items) (by simp)
  · intro hw
    exact ⟨Json.Object.sorted_pair h _ _,by simpa [Json.wellFormed] using hw⟩

variable {tag field : String} {items : List Json}

theorem get_mag : Json.Object.get [("$mag",.string tag),(field,.array items)] "$mag" =
    some (.string tag) := by
  simp [Json.Object.get_cons]

theorem get_field (h : "$mag" < field) :
    Json.Object.get [("$mag",.string tag),(field,.array items)] field = some (.array items) := by
  simp [Json.Object.get_cons,h.ne']

theorem exactWireArray_envelope (h : "$mag" < field) (items : List Json) (path : String) :
    exactWireArray (envelope tag field items) tag field path = .ok items := by
  simp [exactWireArray,envelope,get_mag,get_field h,Json.asStr]

/-- The parts of an object that is read as an envelope. -/
theorem eq_envelope (h : "$mag" < field) {fields : Json.Object} (hs : fields.Sorted)
    (hl : fields.length = 2) (ht : (fields.get "$mag").bind Json.asStr = some tag)
    (hi : (fields.get field).bind Json.asArray = some items) :
    Json.object fields = envelope tag field items := by
  obtain ⟨t,ht,hts⟩ := Option.bind_eq_some_iff.mp ht
  obtain ⟨a,ha,has⟩ := Option.bind_eq_some_iff.mp hi
  obtain rfl := Json.asStr_eq_some.mp hts
  obtain rfl := Json.asArray_eq_some.mp has
  rw [envelope,hs.eq_pair_of_length hl h ht ha]

theorem exactWireArray_ok (h : "$mag" < field) {m : Json} (hw : m.wellFormed) {path : String}
    (hi : exactWireArray m tag field path = .ok items) : m = envelope tag field items := by
  cases m with
  | object fields =>
    obtain ⟨hsorted,_⟩ := (Json.wellFormed_object fields).mp hw
    simp only [exactWireArray] at hi
    split at hi
    · cases hi
    · rename_i hc
      simp only [not_or,not_not] at hc
      obtain ⟨hlen,hmag,_⟩ := hc
      split at hi
      · rename_i hget
        cases hi
        exact eq_envelope h hsorted hlen hmag (by rw [hget]; rfl)
      · cases hi
      · cases hi
  | _ => cases hi

theorem exactWireArray_error {m : Json} {path : String} {violations : List Violation}
    (h : exactWireArray m tag field path = .error violations) : violations ≠ [] := by
  cases m with
  | object fields =>
    simp only [exactWireArray] at h
    split at h
    · cases h; simp [expect]
    · rename_i hc
      simp only [not_or,not_not] at hc
      split at h
      · cases h
      · cases h; simp [expect]
      · rename_i hnone; exact absurd hnone hc.2.2
  | _ => cases h; simp [expect]

end Envelopes

/-- The document has no violations. -/
def Accepts (s : SchemaType) (j : Json) : Prop := ∀ path, validateAt s j path = []

/-- No violations at one path are no violations at any. -/
def PathFree (s : SchemaType) : Prop :=
  ∀ j, j.wellFormed → ∀ p, validateAt s j p = [] → Accepts s j

section Constructors
variable {item key value : SchemaType} {j : Json} {p : String}

theorem validateAt_list (h : PathFree item) (hw : j.wellFormed) : validateAt (.list item) j p = [] ↔
    ∃ items, j = .array items ∧ ∀ x ∈ items, Accepts item x := by
  rw [validateAt.eq_def]
  cases j with
  | array items =>
    refine mapIdx_flatten_eq_nil.trans ?_
    constructor
    · intro hv
      refine ⟨items,rfl,fun x hx => ?_⟩
      obtain ⟨i,hi,rfl⟩ := List.mem_iff_getElem.mp hx
      exact h _ ((Json.wellFormed_array items).mp hw _ hx) _ (hv i hi)
    · rintro ⟨_,he,hv⟩ i hi
      cases he
      exact hv _ (List.getElem_mem hi) _
  | _ => simp [expect]

theorem validateAt_set (h : PathFree item) (hw : j.wellFormed) : validateAt (.set item) j p = [] ↔
    ∃ items, j = envelope "set" "items" items ∧ (∀ x ∈ items, Accepts item x) ∧
      items.Pairwise fun a b => semanticJsonEqual item a b = false := by
  rw [validateAt,validateSet]
  constructor
  · intro hv
    split at hv
    · rename_i he
      exact absurd hv (exactWireArray_error he)
    · rename_i items he
      have hv := mapIdx_flatten_eq_nil.mp hv
      have hj := exactWireArray_ok (by decide) hw he
      have hitems := (wellFormed_envelope (by decide)).mp (hj ▸ hw)
      refine ⟨items,hj,fun x hx => ?_,pairwise_iff_take.mpr ?_⟩
      · obtain ⟨i,hi,rfl⟩ := List.mem_iff_getElem.mp hx
        exact h _ (hitems _ hx) _ (List.append_eq_nil_iff.mp (hv i hi)).1
      · intro i hi
        have hd := (List.append_eq_nil_iff.mp (hv i hi)).2
        by_contra hr
        rw [Bool.not_eq_false] at hr
        rw [if_pos hr] at hd
        cases hd
  · rintro ⟨items,rfl,hv,hd⟩
    rw [exactWireArray_envelope (by decide)]
    refine mapIdx_flatten_eq_nil.mpr fun i hi => List.append_eq_nil_iff.mpr ⟨?_,?_⟩
    · exact hv _ (List.getElem_mem hi) _
    · rw [pairwise_iff_take.mp hd i hi]; rfl

theorem validateAt_pairs (hk : isStringKey key = false) :
    validateAt (.map key value) j p =
      validateMap (validateAt key) (validateAt value) (semanticJsonEqual key) j p := by
  rw [validateAt.eq_def]
  exact if_neg (by simp [hk])

/-- An entry of a map that is not written as an object. -/
def mapEntry (e : Json × Json) : Json := .array [e.1,e.2]

theorem pairKeys_mapEntry (pairs : List (Json × Json)) :
    pairKeys (pairs.map mapEntry) = pairs.map (·.1) := by
  induction pairs with
  | nil => rfl
  | cons e rest ih =>
    have he : pairKeys ((e :: rest).map mapEntry) = e.1 :: pairKeys (rest.map mapEntry) := rfl
    rw [he,ih,List.map_cons]

theorem exists_pairs {items : List Json} (h : ∀ x ∈ items, ∃ e, x = mapEntry e) :
    ∃ pairs : List (Json × Json), items = pairs.map mapEntry := by
  obtain ⟨pairs,hp⟩ := exists_forall₂ h
  refine ⟨pairs,?_⟩
  induction hp with
  | nil => rfl
  | cons hx _ ih => rw [List.map_cons,← hx,← ih fun x hx => h x (List.mem_cons_of_mem _ hx)]

theorem wellFormed_pairs {pairs : List (Json × Json)} :
    (∀ x ∈ pairs.map mapEntry, x.wellFormed) ↔ ∀ e ∈ pairs, e.1.wellFormed ∧ e.2.wellFormed := by
  rw [List.forall_mem_map]
  simp [mapEntry]

theorem validateAt_map (hk : isStringKey key = false) (ihk : PathFree key) (ihv : PathFree value)
    (hw : j.wellFormed) : validateAt (.map key value) j p = [] ↔
    ∃ pairs : List (Json × Json), j = envelope "map" "entries" (pairs.map mapEntry) ∧
      (∀ e ∈ pairs, Accepts key e.1 ∧ Accepts value e.2) ∧
      pairs.Pairwise fun a b => semanticJsonEqual key a.1 b.1 = false := by
  rw [validateAt_pairs hk,validateMap]
  constructor
  · intro hv
    split at hv
    · rename_i he
      exact absurd hv (exactWireArray_error he)
    · rename_i items he
      have hv := mapIdx_flatten_eq_nil.mp hv
      have hp : ∀ x ∈ items, ∃ e, x = mapEntry e := by
        intro x hx
        obtain ⟨i,hi,rfl⟩ := List.mem_iff_getElem.mp hx
        have hi := hv i hi
        split at hi
        · rename_i k v hkv
          exact ⟨(k,v),hkv⟩
        · simp [expect] at hi
      obtain ⟨pairs,rfl⟩ := exists_pairs hp
      have hj := exactWireArray_ok (by decide) hw he
      have hpair := wellFormed_pairs.mp ((wellFormed_envelope (by decide)).mp (hj ▸ hw))
      have hv : ∀ i (hi : i < pairs.length), (Accepts key pairs[i].1 ∧ Accepts value pairs[i].2) ∧
          ((pairs.take i).any fun a => semanticJsonEqual key a.1 pairs[i].1) = false := by
        intro i hi'
        have hi := hv i (by simpa using hi')
        simp only [List.getElem_map,mapEntry] at hi
        obtain ⟨hkv,hd⟩ := List.append_eq_nil_iff.mp hi
        obtain ⟨hk,hv⟩ := List.append_eq_nil_iff.mp hkv
        obtain ⟨hwk,hwv⟩ := hpair _ (List.getElem_mem hi')
        refine ⟨⟨ihk _ hwk _ hk,ihv _ hwv _ hv⟩,?_⟩
        rw [← List.map_take,pairKeys_mapEntry,List.any_map] at hd
        by_contra hr
        rw [Bool.not_eq_false] at hr
        exact List.cons_ne_nil _ _ ((if_pos hr).symm.trans hd)
      refine ⟨pairs,hj,fun e he => ?_,?_⟩
      · obtain ⟨i,hi,rfl⟩ := List.mem_iff_getElem.mp he
        exact (hv i hi).1
      · exact pairwise_iff_take.mpr fun i hi => (hv i hi).2
  · rintro ⟨pairs,rfl,hv,hd⟩
    rw [exactWireArray_envelope (by decide)]
    refine mapIdx_flatten_eq_nil.mpr fun i hi => ?_
    have hi' : i < pairs.length := by simpa using hi
    obtain ⟨hk,hval⟩ := hv _ (List.getElem_mem hi')
    have hr := pairwise_iff_take.mp hd i hi'
    simp only [List.getElem_map,mapEntry]
    rw [hk,hval,← List.map_take,pairKeys_mapEntry,List.any_map]
    simp only [Function.comp_def,hr]
    rfl

theorem validateAt_stringMap (h : PathFree value) (hw : j.wellFormed) :
    validateAt (.map .string value) j p = [] ↔
      ∃ entries, j = .object entries ∧ ∀ e ∈ entries, Accepts value e.2 := by
  rw [validateAt.eq_def]
  cases j with
  | object entries =>
    refine map_flatten_eq_nil.trans ?_
    constructor
    · have hwf := ((Json.wellFormed_object entries).mp hw).2
      exact fun hv => ⟨entries,rfl,fun e he => h _ (hwf e he) _ (hv e he)⟩
    · rintro ⟨_,he,hv⟩ e hm
      cases he
      exact hv e hm _
  | _ => simp [isStringKey,expect]

theorem validateFields_eq_nil {fs : List (String × SchemaType)} (h : ∀ f ∈ fs, PathFree f.2)
    {entries : Json.Object} (hw : ∀ e ∈ entries, e.2.wellFormed) :
    validateFields fs entries p = [] ↔
      ∀ f ∈ fs, ∃ m, entries.get f.1 = some m ∧ Accepts f.2 m := by
  induction fs with
  | nil => simp [validateFields]
  | cons f rest ih =>
    rw [validateFields,List.append_eq_nil_iff,ih fun g hg => h g (List.mem_cons_of_mem _ hg),
      List.forall_mem_cons]
    refine and_congr_left fun _ => ?_
    cases hget : entries.get f.1 with
    | none => simp
    | some m =>
      constructor
      · have hwm := hw _ (Json.Object.mem_of_get hget)
        exact fun hm => ⟨m,rfl,h f List.mem_cons_self _ hwm _ hm⟩
      · rintro ⟨_,hm,ha⟩
        cases hm
        exact ha _

theorem validateAt_fields {fs : List (String × SchemaType)} (h : ∀ f ∈ fs, PathFree f.2)
    (hw : j.wellFormed) :
    validateAt (.fields fs) j p = [] ↔
      ∃ entries, j = .object entries ∧ (∀ e ∈ entries, e.1 ∈ fs.map (·.1)) ∧
        ∀ f ∈ fs, ∃ m, Json.Object.get entries f.1 = some m ∧ Accepts f.2 m := by
  rw [validateAt.eq_def]
  cases j with
  | object entries =>
    refine List.append_eq_nil_iff.trans ?_
    rw [validateFields_eq_nil h ((Json.wellFormed_object entries).mp hw).2,List.map_eq_nil_iff,List.filter_eq_nil_iff,and_comm]
    have hd : (∀ e ∈ entries, ¬(!(fs.any fun f => f.1 == e.1)) = true) ↔
        ∀ e ∈ entries, e.1 ∈ fs.map (·.1) := by
      refine forall₂_congr fun e _ => ?_
      simp [List.mem_map]
    rw [hd]
    constructor
    · exact fun hv => ⟨entries,rfl,hv⟩
    · rintro ⟨_,he,hv⟩
      cases he
      exact hv
  | _ => simp [expect]

theorem validatePositions_eq_nil {cs : List SchemaType} (h : ∀ c ∈ cs, PathFree c)
    {vs : List Json} (hw : ∀ v ∈ vs, v.wellFormed) (hl : vs.length = cs.length) {index : Nat} :
    validatePositions cs vs p index = [] ↔ List.Forall₂ Accepts cs vs := by
  induction cs generalizing vs index with
  | nil =>
    obtain rfl := List.length_eq_zero_iff.mp hl
    simp [validatePositions]
  | cons c rest ih =>
    cases vs with
    | nil => cases hl
    | cons v vs =>
      rw [validatePositions,List.append_eq_nil_iff,List.forall₂_cons,
        ih (fun c hc => h c (List.mem_cons_of_mem _ hc)) (List.forall_mem_cons.mp hw).2
          (Nat.succ_inj.mp hl)]
      have hwv := hw v List.mem_cons_self
      exact and_congr_left fun _ => ⟨fun hv => h c List.mem_cons_self _ hwv _ hv,fun hv => hv _⟩

theorem validateAt_product {cs : List SchemaType} (h : ∀ c ∈ cs, PathFree c)
    (hw : j.wellFormed) : validateAt (.product cs) j p = [] ↔ ∃ vs, j = .array vs ∧ List.Forall₂ Accepts cs vs := by
  rw [validateAt.eq_def]
  cases j with
  | array vs =>
    have hwf := (Json.wellFormed_array vs).mp hw
    refine List.append_eq_nil_iff.trans ?_
    constructor
    · rintro ⟨ha,hv⟩
      have hl : vs.length = cs.length := by
        by_contra hl
        rw [if_neg hl] at ha
        cases ha
      exact ⟨vs,rfl,(validatePositions_eq_nil h hwf hl).mp hv⟩
    · rintro ⟨_,he,hv⟩
      cases he
      have hl := hv.length_eq.symm
      exact ⟨if_pos hl,(validatePositions_eq_nil h hwf hl).mpr hv⟩
  | _ => simp [expect]

/-- The payload is looked up at the first member of the tag. -/
theorem validateMember_eq {ms : List (String × SchemaType)} {tag : String}
    {entries : Json.Object} : validateMember ms tag entries p =
      (ms.lookup tag).map fun s => match entries.get "value" with
        | some payload => validateAt s payload (fieldPath p "value")
        | none => [missingField (fieldPath p "value") (describe s) "value"] := by
  induction ms with
  | nil => simp [validateMember]
  | cons m rest ih =>
    obtain ⟨name,s⟩ := m
    rw [validateMember]
    by_cases hn : name = tag
    · rw [if_pos hn,hn,List.lookup_cons_self]; rfl
    · rw [if_neg hn,ih,List.lookup_cons,beq_eq_false_iff_ne.mpr (Ne.symm hn)]

/-- The wire form of a sum. -/
def sumOf (wire : SumWire) (tag : String) (payload : Json) : Json :=
  .object [(wire.tagKey,.string tag),("value",payload)]

section Sums
variable {wire : SumWire} {tag : String} {payload : Json}

theorem get_tag : Json.Object.get [(wire.tagKey,.string tag),("value",payload)] wire.tagKey =
    some (.string tag) := by
  simp [Json.Object.get_cons]

theorem get_payload (h : wire.tagKey < "value") :
    Json.Object.get [(wire.tagKey,.string tag),("value",payload)] "value" = some payload := by
  simp [Json.Object.get_cons,h.ne']

theorem wellFormed_sumOf (h : wire.tagKey < "value") :
    (sumOf wire tag payload).wellFormed ↔ payload.wellFormed := by
  rw [sumOf,Json.wellFormed_object]
  constructor
  · exact fun hw => hw.2 ("value",payload) (by simp)
  · exact fun hw => ⟨Json.Object.sorted_pair h _ _,by simpa [Json.wellFormed] using hw⟩

/-- The shape of a valid sum: a tag of one of the members and its payload. -/
theorem validateSum_eq_nil {ms : List (String × SchemaType)} (h : ∀ m ∈ ms, PathFree m.2)
    (hlt : wire.tagKey < "value") (hw : j.wellFormed) : validateSum ms wire j p = [] ↔
    ∃ tag s payload, j = sumOf wire tag payload ∧ ms.lookup tag = some s ∧ Accepts s payload := by
  constructor
  · intro hv
    cases j with
    | object entries =>
      obtain ⟨hsorted,_⟩ := (Json.wellFormed_object entries).mp hw
      rw [validateSum] at hv
      obtain ⟨hextra,hv⟩ := List.append_eq_nil_iff.mp hv
      have hkeys : ∀ e ∈ entries, e.1 = wire.tagKey ∨ e.1 = "value" := by
        intro e he
        have hf := List.filter_eq_nil_iff.mp (List.map_eq_nil_iff.mp hextra) e he
        by_contra hno
        exact hf (by simpa [not_or] using hno)
      split at hv
      · cases hv
      · rename_i tag htag
        rw [validateMember_eq] at hv
        cases hs : ms.lookup tag with
        | none => simp [hs] at hv
        | some s =>
          cases hpay : Json.Object.get entries "value" with
          | none => simp [hs,hpay] at hv
          | some payload =>
            have hva : validateAt s payload (fieldPath p "value") = [] := by
              simpa [hs,hpay] using hv
            have hm := mem_of_lookup hs
            have hwp := ((Json.wellFormed_object entries).mp hw).2 _ (Json.Object.mem_of_get hpay)
            refine ⟨tag,s,payload,?_,hs,h _ hm _ hwp _ hva⟩
            obtain ⟨a,b,rfl⟩ := hsorted.eq_pair hlt fun key => by
              constructor
              · intro hk
                obtain ⟨v,hv⟩ := Option.isSome_iff_exists.mp hk
                exact hkeys _ (Json.Object.mem_of_get hv)
              · rintro (rfl | rfl)
                · rw [htag]; rfl
                · rw [hpay]; rfl
            rw [Json.Object.get_cons,if_pos rfl] at htag
            rw [Json.Object.get_cons,if_neg hlt.ne',Json.Object.get_cons,if_pos rfl] at hpay
            obtain rfl : a = .string tag := Option.some.inj htag
            obtain rfl : b = payload := Option.some.inj hpay
            rfl
      · simp [expect] at hv
    | _ => simp [validateSum,expect] at hv
  · rintro ⟨tag,s,payload,rfl,hs,ha⟩
    simp only [sumOf,validateSum,get_tag,validateMember_eq,hs,get_payload hlt]
    simp [ha _]

end Sums

theorem validateAt_named {name : String} {body : SchemaType} :
    validateAt (.named name body) j p = [] ↔ validateAt body j p = [] := by
  rw [validateAt,List.map_eq_nil_iff]

end Constructors

/-- Whether there are violations does not depend on the path. -/
theorem pathFree (s : SchemaType) : PathFree s := by
  induction s with
  | jsonValue => intro j hw p hv q; rw [validateAt]
  | unit => intro j hw p hv q; cases j <;> simp [validateAt,expect] at hv ⊢
  | bool => intro j hw p hv q; cases j <;> simp [validateAt,expect] at hv ⊢
  | int => intro j hw p hv q; rw [validateAt,expect_eq_nil] at hv ⊢; exact hv
  | float => intro j hw p hv q; rw [validateAt,expect_eq_nil] at hv ⊢; exact hv
  | string => intro j hw p hv q; rw [validateAt,expect_eq_nil] at hv ⊢; exact hv
  | list item ih =>
    intro j hw p hv q
    exact (validateAt_list ih hw).mpr ((validateAt_list ih hw).mp hv)
  | set item ih =>
    intro j hw p hv q
    exact (validateAt_set ih hw).mpr ((validateAt_set ih hw).mp hv)
  | map key value ihk ihv =>
    intro j hw p hv q
    by_cases hk : isStringKey key
    · obtain rfl := isStringKey_iff.mp hk
      exact (validateAt_stringMap ihv hw).mpr ((validateAt_stringMap ihv hw).mp hv)
    · have hk := Bool.eq_false_iff.mpr hk
      exact (validateAt_map hk ihk ihv hw).mpr ((validateAt_map hk ihk ihv hw).mp hv)
  | fields fs ih =>
    intro j hw p hv q
    exact (validateAt_fields ih hw).mpr ((validateAt_fields ih hw).mp hv)
  | union vs ih =>
    intro j hw p hv q
    rw [validateAt] at hv ⊢
    exact (validateSum_eq_nil ih (by decide) hw).mpr
      ((validateSum_eq_nil ih (by decide) hw).mp hv)
  | adt name owner cs ih =>
    intro j hw p hv q
    rw [validateAt] at hv ⊢
    exact (validateSum_eq_nil ih (by decide) hw).mpr
      ((validateSum_eq_nil ih (by decide) hw).mp hv)
  | product cs ih =>
    intro j hw p hv q
    exact (validateAt_product ih hw).mpr ((validateAt_product ih hw).mp hv)
  | named name body ih =>
    intro j hw p hv q
    exact validateAt_named.mpr (ih j hw p (validateAt_named.mp hv) q)

section Accepted
variable {item key value : SchemaType} {j : Json}

theorem accepts_iff {s : SchemaType} (hw : j.wellFormed) {p : String} :
    Accepts s j ↔ validateAt s j p = [] :=
  ⟨fun h => h p,fun h => pathFree s j hw p h⟩

theorem accepts_unit : Accepts .unit j ↔ j = .null := by
  cases j <;> simp [Accepts,validateAt,expect]

theorem accepts_bool : Accepts .bool j ↔ ∃ b, j = .bool b := by
  cases j <;> simp [Accepts,validateAt,expect]

theorem accepts_int : Accepts .int j ↔ j.asI64.isSome := by
  simp [Accepts,validateAt,expect_eq_nil]

theorem accepts_float : Accepts .float j ↔ j.asF64.isSome := by
  simp [Accepts,validateAt,expect_eq_nil]

theorem accepts_string : Accepts .string j ↔ ∃ s, j = .string s := by
  cases j <;> simp [Accepts,validateAt,expect,Json.asStr]

theorem accepts_list (hw : j.wellFormed) : Accepts (.list item) j ↔
    ∃ items, j = .array items ∧ ∀ x ∈ items, Accepts item x :=
  (accepts_iff hw (p := "$")).trans (validateAt_list (pathFree item) hw)

theorem accepts_set (hw : j.wellFormed) : Accepts (.set item) j ↔
    ∃ items, j = envelope "set" "items" items ∧ (∀ x ∈ items, Accepts item x) ∧
      items.Pairwise fun a b => semanticJsonEqual item a b = false :=
  (accepts_iff hw (p := "$")).trans (validateAt_set (pathFree item) hw)

theorem accepts_map (hk : isStringKey key = false) (hw : j.wellFormed) :
    Accepts (.map key value) j ↔
    ∃ pairs : List (Json × Json), j = envelope "map" "entries" (pairs.map mapEntry) ∧
      (∀ e ∈ pairs, Accepts key e.1 ∧ Accepts value e.2) ∧
      pairs.Pairwise fun a b => semanticJsonEqual key a.1 b.1 = false :=
  (accepts_iff hw (p := "$")).trans (validateAt_map hk (pathFree key) (pathFree value) hw)

theorem accepts_stringMap (hw : j.wellFormed) : Accepts (.map .string value) j ↔
    ∃ entries, j = .object entries ∧ ∀ e ∈ entries, Accepts value e.2 :=
  (accepts_iff hw (p := "$")).trans (validateAt_stringMap (pathFree value) hw)

theorem accepts_fields {fs : List (String × SchemaType)} (hw : j.wellFormed) :
    Accepts (.fields fs) j ↔
      ∃ entries, j = .object entries ∧ (∀ e ∈ entries, e.1 ∈ fs.map (·.1)) ∧
        ∀ f ∈ fs, ∃ m, Json.Object.get entries f.1 = some m ∧ Accepts f.2 m :=
  (accepts_iff hw (p := "$")).trans (validateAt_fields (fun f _ => pathFree f.2) hw)

theorem accepts_product {cs : List SchemaType} (hw : j.wellFormed) :
    Accepts (.product cs) j ↔ ∃ vs, j = .array vs ∧ List.Forall₂ Accepts cs vs :=
  (accepts_iff hw (p := "$")).trans (validateAt_product (fun c _ => pathFree c) hw)

theorem accepts_union {vs : List (String × SchemaType)} (hw : j.wellFormed) :
    Accepts (.union vs) j ↔ ∃ tag s payload, j = sumOf unionWire tag payload ∧
      vs.lookup tag = some s ∧ Accepts s payload := by
  rw [accepts_iff hw (p := "$"),validateAt]
  exact validateSum_eq_nil (fun v _ => pathFree v.2) (by decide) hw

theorem accepts_adt {name owner : String} {cs : List (String × SchemaType)} (hw : j.wellFormed) :
    Accepts (.adt name owner cs) j ↔ ∃ tag s payload, j = sumOf adtWire tag payload ∧
      cs.lookup tag = some s ∧ Accepts s payload := by
  rw [accepts_iff hw (p := "$"),validateAt]
  exact validateSum_eq_nil (fun c _ => pathFree c.2) (by decide) hw

theorem accepts_named {name : String} {body : SchemaType} :
    Accepts (.named name body) j ↔ Accepts body j :=
  forall_congr' fun _ => validateAt_named

end Accepted

end Nefor.Mag
