import Mathlib
import Nefor.Except
import Nefor.Mag.Provider
import Nefor.Mag.Validation

/-! Faithfulness of the provider lowering. A document of the emitted schema decodes to a value
of the type, unless a set item or a map key repeats; and every value of the type has such a
document. -/
namespace Nefor.Mag
open Nefor.Json (record exactly arrayOf satisfies)

/-- Names are unique wherever a schema looks them up. -/
def SchemaType.Distinct : SchemaType → Prop
  | .list item => item.Distinct
  | .set item => item.Distinct
  | .map key value => key.Distinct ∧ value.Distinct
  | .fields fs => (fs.map (·.1)).Nodup ∧ distinctMembers fs
  | .union variants => (variants.map (·.1)).Nodup ∧ distinctMembers variants
  | .adt _ _ constructors => (constructors.map (·.1)).Nodup ∧ distinctMembers constructors
  | .product components => distinctAll components
  | .named _ body => body.Distinct
  | _ => True
where
  distinctMembers : List (String × SchemaType) → Prop
    | [] => True
    | (_,s) :: rest => s.Distinct ∧ distinctMembers rest
  distinctAll : List SchemaType → Prop
    | [] => True
    | s :: rest => s.Distinct ∧ distinctAll rest

/-- A `JsonValue` occurs in the schema. -/
def SchemaType.hasJsonValue : SchemaType → Bool
  | .jsonValue => true
  | .list item => item.hasJsonValue
  | .set item => item.hasJsonValue
  | .map key value => key.hasJsonValue || value.hasJsonValue
  | .fields fs => anyMember fs
  | .union variants => anyMember variants
  | .adt _ _ constructors => anyMember constructors
  | .product components => anyOf components
  | .named _ body => body.hasJsonValue
  | _ => false
where
  anyMember : List (String × SchemaType) → Bool
    | [] => false
    | (_,s) :: rest => s.hasJsonValue || anyMember rest
  anyOf : List SchemaType → Bool
    | [] => false
    | s :: rest => s.hasJsonValue || anyOf rest

theorem SchemaType.distinctMembers_iff (ms : List (String × SchemaType)) :
    Distinct.distinctMembers ms ↔ ∀ m ∈ ms, m.2.Distinct := by
  induction ms with
  | nil => simp [Distinct.distinctMembers]
  | cons m rest ih => rw [Distinct.distinctMembers,ih,List.forall_mem_cons]

theorem SchemaType.distinctAll_iff (cs : List SchemaType) :
    Distinct.distinctAll cs ↔ ∀ c ∈ cs, c.Distinct := by
  induction cs with
  | nil => simp [Distinct.distinctAll]
  | cons c rest ih => rw [Distinct.distinctAll,ih,List.forall_mem_cons]

theorem SchemaType.anyMember_eq (ms : List (String × SchemaType)) :
    hasJsonValue.anyMember ms = ms.any fun m => m.2.hasJsonValue := by
  induction ms with
  | nil => rfl
  | cons m rest ih => rw [hasJsonValue.anyMember,ih,List.any_cons]

theorem SchemaType.anyOf_eq (cs : List SchemaType) :
    hasJsonValue.anyOf cs = cs.any fun c => c.hasJsonValue := by
  induction cs with
  | nil => rfl
  | cons c rest ih => rw [hasJsonValue.anyOf,ih,List.any_cons]

section Emission

/-- The emitted schema is always an object, which a title can be added to. -/
theorem providerSchemaAtPath_object {s : SchemaType} {path : String} {schema : Json}
    (h : providerSchemaAtPath s path = .ok schema) :
    ∃ keywords, schema = .object keywords ∧ Json.Object.Sorted keywords := by
  have hrecord : ∀ entries, ∃ keywords, record entries = .object keywords ∧
      Json.Object.Sorted keywords := fun entries => ⟨_,rfl,Json.Object.ofList_sorted entries⟩
  induction s generalizing path schema with
  | jsonValue => cases h
  | unit => cases h; exact hrecord _
  | bool => cases h; exact hrecord _
  | int => cases h; exact hrecord _
  | float => cases h; exact hrecord _
  | string => cases h; exact hrecord _
  | list item _ =>
    obtain ⟨items,_,h⟩ := bind_eq_ok.mp h
    cases h; exact hrecord _
  | set item _ =>
    obtain ⟨items,_,h⟩ := bind_eq_ok.mp h
    cases h; exact hrecord _
  | map key value _ _ =>
    obtain ⟨k,_,h⟩ := bind_eq_ok.mp h
    obtain ⟨v,_,h⟩ := bind_eq_ok.mp h
    cases h; exact hrecord _
  | fields fs _ =>
    obtain ⟨properties,_,h⟩ := bind_eq_ok.mp h
    cases h; exact hrecord _
  | union vs _ =>
    obtain ⟨options,_,h⟩ := bind_eq_ok.mp h
    cases h; exact hrecord _
  | adt name owner cs _ =>
    obtain ⟨options,_,h⟩ := bind_eq_ok.mp h
    cases h; exact hrecord _
  | product cs _ =>
    obtain ⟨properties,_,h⟩ := bind_eq_ok.mp h
    cases h; exact hrecord _
  | named name body ih =>
    obtain ⟨value,hv,h⟩ := bind_eq_ok.mp h
    obtain ⟨keywords,rfl,hs⟩ := ih hv
    cases h
    exact ⟨_,rfl,hs.insert _ _⟩

theorem providerProperties_ok (fs : List (String × SchemaType)) (path : String)
    (h : ∀ f ∈ fs, ∀ p, (∃ schema, providerSchemaAtPath f.2 p = .ok schema) ↔
      f.2.hasJsonValue = false) :
    (∃ properties, providerProperties fs path = .ok properties) ↔
      ∀ f ∈ fs, f.2.hasJsonValue = false := by
  induction fs with
  | nil => simp [providerProperties]
  | cons f rest ih =>
    have ih := ih fun f hf => h f (List.mem_cons_of_mem _ hf)
    have hf := h f List.mem_cons_self (fieldPath path f.1)
    rw [List.forall_mem_cons,← ih,← hf]
    simp [providerProperties,bind_eq_ok]

theorem providerPositions_ok (cs : List SchemaType) (path : String) (index : Nat)
    (h : ∀ c ∈ cs, ∀ p, (∃ schema, providerSchemaAtPath c p = .ok schema) ↔
      c.hasJsonValue = false) :
    (∃ properties, providerPositions cs path index = .ok properties) ↔
      ∀ c ∈ cs, c.hasJsonValue = false := by
  induction cs generalizing index with
  | nil => simp [providerPositions]
  | cons c rest ih =>
    have ih := ih (index+1) fun c hc => h c (List.mem_cons_of_mem _ hc)
    have hc := h c List.mem_cons_self (itemPath path index)
    rw [List.forall_mem_cons,← ih,← hc]
    simp [providerPositions,bind_eq_ok]

theorem providerOptions_ok (ms : List (String × SchemaType)) (tagKey path : String)
    (h : ∀ m ∈ ms, ∀ p, (∃ schema, providerSchemaAtPath m.2 p = .ok schema) ↔
      m.2.hasJsonValue = false) :
    (∃ options, providerOptions ms tagKey path = .ok options) ↔
      ∀ m ∈ ms, m.2.hasJsonValue = false := by
  induction ms with
  | nil => simp [providerOptions]
  | cons m rest ih =>
    have ih := ih fun m hm => h m (List.mem_cons_of_mem _ hm)
    have hm := h m List.mem_cons_self (path ++ "<" ++ m.1 ++ ">")
    rw [List.forall_mem_cons,← ih,← hm]
    simp [providerOptions,bind_eq_ok]

/-- A schema lowers unless a `JsonValue` occurs in it. -/
theorem providerSchemaAtPath_ok (s : SchemaType) (path : String) :
    (∃ schema, providerSchemaAtPath s path = .ok schema) ↔ s.hasJsonValue = false := by
  induction s generalizing path with
  | jsonValue => simp [providerSchemaAtPath,SchemaType.hasJsonValue]
  | unit => simp [providerSchemaAtPath,SchemaType.hasJsonValue]
  | bool => simp [providerSchemaAtPath,SchemaType.hasJsonValue]
  | int => simp [providerSchemaAtPath,SchemaType.hasJsonValue]
  | float => simp [providerSchemaAtPath,SchemaType.hasJsonValue]
  | string => simp [providerSchemaAtPath,SchemaType.hasJsonValue]
  | list item ih => simp [providerSchemaAtPath,SchemaType.hasJsonValue,bind_eq_ok,ih]
  | set item ih => simp [providerSchemaAtPath,SchemaType.hasJsonValue,bind_eq_ok,ih]
  | map key value ihk ihv =>
    simp [providerSchemaAtPath,SchemaType.hasJsonValue,bind_eq_ok,ihk,ihv]
  | fields fs ih =>
    have h := providerProperties_ok fs path ih
    simp [providerSchemaAtPath,SchemaType.hasJsonValue,SchemaType.anyMember_eq,bind_eq_ok] at h ⊢
    exact h
  | union vs ih =>
    have h := providerOptions_ok vs unionWire.tagKey path ih
    simp [providerSchemaAtPath,SchemaType.hasJsonValue,SchemaType.anyMember_eq,bind_eq_ok] at h ⊢
    exact h
  | adt name owner cs ih =>
    have h := providerOptions_ok cs adtWire.tagKey path ih
    simp [providerSchemaAtPath,SchemaType.hasJsonValue,SchemaType.anyMember_eq,bind_eq_ok] at h ⊢
    exact h
  | product cs ih =>
    have h := providerPositions_ok cs path 0 ih
    simp [providerSchemaAtPath,SchemaType.hasJsonValue,SchemaType.anyOf_eq,bind_eq_ok] at h ⊢
    exact h
  | named name body ih =>
    simp [providerSchemaAtPath,SchemaType.hasJsonValue,bind_eq_ok,ih]

end Emission

/-- A violation that reports a repeated set item or map key. -/
def Violation.IsDuplicate (v : Violation) : Prop :=
  v.code = "duplicate_set_item" ∨ v.code = "duplicate_map_key"

def OnlyDuplicates (violations : List Violation) : Prop := ∀ v ∈ violations, v.IsDuplicate

theorem duplicateCode_set : duplicateCode "set item" = "duplicate_set_item" := by with_unfolding_all decide

theorem duplicateCode_map : duplicateCode "map key" = "duplicate_map_key" := by with_unfolding_all decide

theorem duplicateViolation_set (path : String) :
    (duplicateViolation path "set item").IsDuplicate := .inl duplicateCode_set

theorem duplicateViolation_map (path : String) :
    (duplicateViolation path "map key").IsDuplicate := .inr duplicateCode_map

theorem OnlyDuplicates.append {a b : List Violation} (ha : OnlyDuplicates a)
    (hb : OnlyDuplicates b) : OnlyDuplicates (a ++ b) := by
  intro v hv
  exact (List.mem_append.mp hv).elim (ha v) (hb v)

theorem onlyDuplicates_nil : OnlyDuplicates [] := fun _ h => nomatch h

theorem onlyDuplicates_ite {b : Bool} {v : Violation} (h : v.IsDuplicate) :
    OnlyDuplicates (if b then [v] else []) := by
  intro w hw
  cases b with
  | false => simp at hw
  | true => simp at hw; exact hw ▸ h

theorem onlyDuplicates_mapIdx {items : List Json} {f : Nat → Json → List Violation}
    (h : ∀ i, ∀ x ∈ items, OnlyDuplicates (f i x)) :
    OnlyDuplicates (items.mapIdx f).flatten := by
  intro v hv
  obtain ⟨l,hl,hv⟩ := List.mem_flatten.mp hv
  obtain ⟨i,hi,rfl⟩ := List.mem_mapIdx.mp hl
  exact h i _ (List.getElem_mem hi) v hv

section Decoding
variable {decode : Json → String → Except Violation Json} {Good : Json → Prop}
  {Bad : Violation → Prop}

/-- The decoding of a document ends with a good value or a bad violation. -/
def Outcome {α : Type} (Good : α → Prop) (Bad : Violation → Prop) (r : Except Violation α) : Prop :=
  match r with
  | .ok v => Good v
  | .error violation => Bad violation

theorem Outcome.bind {α β : Type} {G : α → Prop} {Next : β → Prop} {r : Except Violation α}
    {f : α → Except Violation β} (h : Outcome G Bad r)
    (hf : ∀ a, G a → Outcome Next Bad (f a)) : Outcome Next Bad (r >>= f) := by
  cases r with
  | error violation => exact h
  | ok a => exact hf a h

theorem Outcome.mono {α : Type} {Good Good' : α → Prop} {r : Except Violation α}
    (h : Outcome Good Bad r) (hg : ∀ a, Good a → Good' a) : Outcome Good' Bad r := by
  cases r with
  | error violation => exact h
  | ok a => exact hg a h

theorem decodeItems_outcome {path : String} {items : List Json}
    (h : ∀ x ∈ items, ∀ p, Outcome Good Bad (decode x p)) (index : Nat) :
    Outcome (fun vs => ∀ v ∈ vs, Good v) Bad (decodeItems decode path items index) := by
  induction items generalizing index with
  | nil => exact fun _ h => nomatch h
  | cons x rest ih =>
    refine (h x List.mem_cons_self _).bind fun v hv => ?_
    refine (ih (fun x hx => h x (List.mem_cons_of_mem _ hx)) (index+1)).bind fun vs hvs => ?_
    exact List.forall_mem_cons.mpr ⟨hv,hvs⟩

/-- A map entry that the emitted schema describes. -/
def IsEntry (keySchema valueSchema entry : Json) : Prop :=
  ∃ k v, entry = .object [("key",k),("value",v)] ∧ satisfies keySchema k ∧
    satisfies valueSchema v ∧ k.wellFormed ∧ v.wellFormed

theorem isEntry_of_satisfies {keySchema valueSchema entry : Json} (hw : entry.wellFormed)
    (h : satisfies (exactly [("key",keySchema),("value",valueSchema)]) entry) :
    IsEntry keySchema valueSchema entry := by
  obtain ⟨fields,rfl,hk,hv⟩ := (Json.satisfies_exactly (by simp) _).mp h
  obtain ⟨hs,hwf⟩ := (Json.wellFormed_object fields).mp hw
  obtain ⟨k,v,rfl⟩ := hs.eq_pair (by decide : "key" < "value") (by simpa using hk)
  refine ⟨k,v,rfl,?_,?_,?_,?_⟩
  · exact hv ("key",keySchema) (by simp) k rfl
  · exact hv ("value",valueSchema) (by simp) v rfl
  · exact hwf ("key",k) (by simp)
  · exact hwf ("value",v) (by simp)

theorem decodeEntry_eq (decodeKey decodeValue : Json → String → Except Violation Json)
    (k v : Json) (path : String) :
    decodeEntry decodeKey decodeValue (.object [("key",k),("value",v)]) path = (do
      let key ← decodeKey k (path ++ ".key")
      let value ← decodeValue v (path ++ ".value")
      .ok (key,value)) := by
  have hk : Json.Object.get [("key",k),("value",v)] "key" = some k := rfl
  have hv : Json.Object.get [("key",k),("value",v)] "value" = some v := rfl
  simp [decodeEntry,hk,hv]

section Entries
variable {decodeKey decodeValue : Json → String → Except Violation Json}
  {keySchema valueSchema : Json} {GoodKey GoodValue : Json → Prop} {path : String}

theorem decodeEntries_outcome {entries : List Json}
    (he : ∀ e ∈ entries, IsEntry keySchema valueSchema e)
    (hk : ∀ x, x.wellFormed → satisfies keySchema x → ∀ p, Outcome GoodKey Bad (decodeKey x p))
    (hv : ∀ x, x.wellFormed → satisfies valueSchema x → ∀ p,
      Outcome GoodValue Bad (decodeValue x p)) (index : Nat) :
    Outcome (fun vs => ∀ e ∈ vs, ∃ k v, e = .array [k,v] ∧ GoodKey k ∧ GoodValue v) Bad
      (decodeEntries decodeKey decodeValue path entries index) := by
  induction entries generalizing index with
  | nil => exact fun _ h => nomatch h
  | cons e rest ih =>
    obtain ⟨k,v,rfl,hsk,hsv,hwk,hwv⟩ := he e List.mem_cons_self
    rw [decodeEntries,decodeEntry_eq]
    refine Outcome.bind (G := fun r => GoodKey r.1 ∧ GoodValue r.2) ?_ ?_
    · refine (hk k hwk hsk _).bind fun k' hk' => ?_
      exact (hv v hwv hsv _).bind fun v' hv' => ⟨hk',hv'⟩
    · rintro ⟨k',v'⟩ ⟨hk',hv'⟩
      refine (ih (fun e he' => he e (List.mem_cons_of_mem _ he')) (index+1)).bind fun vs hvs => ?_
      exact List.forall_mem_cons.mpr ⟨⟨k',v',rfl,hk',hv'⟩,hvs⟩

/-- With string keys the only refusal of the map itself is a repeated key. -/
theorem decodeStringEntries_outcome {entries : List Json}
    (he : ∀ e ∈ entries, IsEntry keySchema valueSchema e)
    (hk : ∀ x, x.wellFormed → satisfies keySchema x → ∀ p,
      Outcome (fun v => ∃ s, v = .string s) Bad (decodeKey x p))
    (hv : ∀ x, x.wellFormed → satisfies valueSchema x → ∀ p,
      Outcome GoodValue Bad (decodeValue x p))
    (hd : ∀ p, Bad (duplicateViolation p "map key")) (index : Nat) (object : Json.Object)
    (ho : ∀ e ∈ object, GoodValue e.2) :
    Outcome (fun object : Json.Object => ∀ e ∈ object, GoodValue e.2) Bad
      (decodeStringEntries decodeKey decodeValue path entries index object) := by
  induction entries generalizing index object with
  | nil => exact ho
  | cons e rest ih =>
    obtain ⟨k,v,rfl,hsk,hsv,hwk,hwv⟩ := he e List.mem_cons_self
    rw [decodeStringEntries,decodeEntry_eq]
    refine Outcome.bind (G := fun r => (∃ s, r.1 = .string s) ∧ GoodValue r.2) ?_ ?_
    · refine (hk k hwk hsk _).bind fun k' hk' => ?_
      exact (hv v hwv hsv _).bind fun v' hv' => ⟨hk',hv'⟩
    · rintro ⟨_,v'⟩ ⟨⟨name,rfl⟩,hv'⟩
      dsimp only
      split
      · exact hd _
      · apply ih (fun e he' => he e (List.mem_cons_of_mem _ he'))
        intro e he'
        rcases Json.Object.mem_insert he' with rfl | he'
        · exact hv'
        · exact ho e he'

end Entries

end Decoding

/-- A value without violations other than repeated items and keys. -/
def Valid (s : SchemaType) (v : Json) : Prop := ∀ path, OnlyDuplicates (validateAt s v path)

/-- Documents of the emitted schema decode to valid values or repeat an item or a key. -/
def Lowers (s : SchemaType) : Prop :=
  ∀ path schema, providerSchemaAtPath s path = .ok schema →
    ∀ x, x.wellFormed → satisfies schema x → ∀ p,
      Outcome (Valid s) Violation.IsDuplicate (decodeProviderValue s x p)

section Fields

theorem providerProperties_names {fs : List (String × SchemaType)} {path : String}
    {properties : List (String × Json)} (h : providerProperties fs path = .ok properties) :
    properties.map (·.1) = fs.map (·.1) := by
  induction fs generalizing properties with
  | nil => cases h; rfl
  | cons f rest ih =>
    obtain ⟨value,_,h⟩ := bind_eq_ok.mp h
    obtain ⟨others,ho,h⟩ := bind_eq_ok.mp h
    cases h
    simp [ih ho]

theorem providerProperties_mem {fs : List (String × SchemaType)} {path : String}
    {properties : List (String × Json)} (h : providerProperties fs path = .ok properties)
    {f : String × SchemaType} (hf : f ∈ fs) :
    ∃ schema p, (f.1,schema) ∈ properties ∧ providerSchemaAtPath f.2 p = .ok schema := by
  induction fs generalizing properties with
  | nil => cases hf
  | cons g rest ih =>
    obtain ⟨value,hv,h⟩ := bind_eq_ok.mp h
    obtain ⟨others,ho,h⟩ := bind_eq_ok.mp h
    cases h
    rcases List.mem_cons.mp hf with rfl | hf
    · exact ⟨value,_,List.mem_cons_self,hv⟩
    · obtain ⟨schema,p,hm,hs⟩ := ih ho hf
      exact ⟨schema,p,List.mem_cons_of_mem _ hm,hs⟩

/-- Decoding the fields keeps the keys and replaces each declared value by a valid one. -/
theorem decodeFields_outcome {fs : List (String × SchemaType)} (hn : (fs.map (·.1)).Nodup)
    {values : Json.Object} (path : String)
    (h : ∀ f ∈ fs, ∀ x, values.get f.1 = some x → ∀ p,
      Outcome (Valid f.2) Violation.IsDuplicate (decodeProviderValue f.2 x p)) :
    Outcome (fun values' : Json.Object =>
        (∀ key, (values'.get key).isSome ↔ (values.get key).isSome) ∧
        (∀ key, key ∉ fs.map (·.1) → values'.get key = values.get key) ∧
        ∀ f ∈ fs, ∀ x, values'.get f.1 = some x → Valid f.2 x)
      Violation.IsDuplicate (decodeFields fs values path) := by
  induction fs generalizing values with
  | nil =>
    rw [decodeFields]
    exact ⟨fun _ => Iff.rfl,fun _ _ => rfl,fun _ hf => absurd hf List.not_mem_nil⟩
  | cons f rest ih =>
    obtain ⟨hf,hrest⟩ := List.nodup_cons.mp hn
    have hne : ∀ g ∈ rest, g.1 ≠ f.1 := fun g hg he => hf (List.mem_map.mpr ⟨g,hg,he⟩)
    rw [decodeFields]
    cases hget : values.get f.1 with
    | none =>
      refine (ih hrest fun g hg => h g (List.mem_cons_of_mem _ hg)).mono ?_
      rintro values' ⟨hk,ho,hv⟩
      refine ⟨hk,fun key hkey => ho key fun hm => hkey (List.mem_cons_of_mem _ hm),?_⟩
      intro g hg x hx
      rcases List.mem_cons.mp hg with rfl | hg
      · rw [ho _ hf,hget] at hx; cases hx
      · exact hv g hg x hx
    | some field =>
      refine (h f List.mem_cons_self field hget _).bind fun v hv => ?_
      have hgot : ∀ g ∈ rest, ∀ x, (values.insert f.1 v).get g.1 = some x → ∀ p,
          Outcome (Valid g.2) Violation.IsDuplicate (decodeProviderValue g.2 x p) := by
        intro g hg x hx
        rw [Json.Object.get_insert,if_neg (hne g hg)] at hx
        exact h g (List.mem_cons_of_mem _ hg) x hx
      refine (ih hrest hgot).mono ?_
      rintro values' ⟨hk,ho,hvs⟩
      refine ⟨?_,?_,?_⟩
      · intro key
        rw [hk,Json.Object.get_insert]
        by_cases hkey : key = f.1
        · simp [hkey,hget]
        · rw [if_neg hkey]
      · intro key hkey
        have hkf : key ≠ f.1 := fun he => hkey (he ▸ List.mem_cons_self)
        rw [ho key fun hm => hkey (List.mem_cons_of_mem _ hm),Json.Object.get_insert,if_neg hkf]
      · intro g hg x hx
        rcases List.mem_cons.mp hg with rfl | hg
        · rw [ho _ hf,Json.Object.get_insert,if_pos rfl] at hx
          cases hx; exact hv
        · exact hvs g hg x hx

theorem validateFields_valid {fs : List (String × SchemaType)} {entries : Json.Object}
    (h : ∀ f ∈ fs, ∃ x, entries.get f.1 = some x ∧ Valid f.2 x) (path : String) :
    OnlyDuplicates (validateFields fs entries path) := by
  induction fs with
  | nil => rw [validateFields]; exact onlyDuplicates_nil
  | cons f rest ih =>
    obtain ⟨x,hx,hv⟩ := h f List.mem_cons_self
    rw [validateFields,hx]
    exact (hv _).append (ih fun g hg => h g (List.mem_cons_of_mem _ hg))

end Fields

section Positions

theorem providerPositions_keys {cs : List SchemaType} {path : String} {index : Nat}
    {properties : List (String × Json)} (h : providerPositions cs path index = .ok properties)
    {key : String} (hk : key ∈ properties.map (·.1)) : ∃ i, index ≤ i ∧ key = toString i := by
  induction cs generalizing index properties with
  | nil => cases h; cases hk
  | cons c rest ih =>
    obtain ⟨value,_,h⟩ := bind_eq_ok.mp h
    obtain ⟨others,ho,h⟩ := bind_eq_ok.mp h
    cases h
    rcases List.mem_cons.mp hk with rfl | hk
    · exact ⟨index,le_refl _,rfl⟩
    · obtain ⟨i,hi,he⟩ := ih ho hk
      exact ⟨i,by omega,he⟩

theorem providerPositions_fresh {cs : List SchemaType} {path : String} {index : Nat}
    {properties : List (String × Json)}
    (h : providerPositions cs path (index+1) = .ok properties) :
    toString index ∉ properties.map (·.1) := by
  intro hk
  obtain ⟨i,hi,he⟩ := providerPositions_keys h hk
  have := Nat.repr_injective he
  omega

theorem providerPositions_nodup {cs : List SchemaType} {path : String} {index : Nat}
    {properties : List (String × Json)} (h : providerPositions cs path index = .ok properties) :
    (properties.map (·.1)).Nodup := by
  induction cs generalizing index properties with
  | nil => cases h; exact List.nodup_nil
  | cons c rest ih =>
    obtain ⟨value,_,h⟩ := bind_eq_ok.mp h
    obtain ⟨others,ho,h⟩ := bind_eq_ok.mp h
    cases h
    exact List.nodup_cons.mpr ⟨providerPositions_fresh ho,ih ho⟩

/-- A positional object with exactly the emitted keys is used up. -/
theorem decodePositions_outcome {cs : List SchemaType} {path : String} {index : Nat}
    {properties : List (String × Json)} (h : providerPositions cs path index = .ok properties)
    (hl : ∀ c ∈ cs, Lowers c) {fields : Json.Object}
    (hk : ∀ key, (fields.get key).isSome ↔ key ∈ properties.map (·.1))
    (hs : ∀ e ∈ properties, ∀ v, fields.get e.1 = some v → satisfies e.2 v ∧ v.wellFormed)
    (p : String) :
    Outcome (fun r : List Json × Json.Object => List.Forall₂ Valid cs r.1 ∧ r.2 = [])
      Violation.IsDuplicate (decodePositions cs fields p index) := by
  induction cs generalizing index properties fields with
  | nil =>
    cases h
    rw [decodePositions]
    refine ⟨.nil,?_⟩
    cases fields with
    | nil => rfl
    | cons e rest => have := hk e.1; simp [Json.Object.get_cons] at this
  | cons c rest ih =>
    obtain ⟨value,hv,h⟩ := bind_eq_ok.mp h
    obtain ⟨others,ho,h⟩ := bind_eq_ok.mp h
    cases h
    obtain ⟨x,hx⟩ := Option.isSome_iff_exists.mp ((hk (toString index)).mpr List.mem_cons_self)
    obtain ⟨hsx,hwx⟩ := hs _ List.mem_cons_self x hx
    have hfresh := providerPositions_fresh ho
    rw [decodePositions,hx]
    refine (hl c List.mem_cons_self _ _ hv x hwx hsx _).bind fun v hv => ?_
    refine (ih ho (fun c hc => hl c (List.mem_cons_of_mem _ hc)) ?_ ?_).bind ?_
    · intro key
      rw [Json.Object.get_erase]
      by_cases hkey : key = toString index
      · simp [hkey] at hfresh ⊢; exact hfresh
      · rw [if_neg hkey,hk,List.map_cons,List.mem_cons]
        exact or_iff_right hkey
    · intro e he w hw
      rw [Json.Object.get_erase] at hw
      split at hw
      · cases hw
      · exact hs e (List.mem_cons_of_mem _ he) w hw
    · rintro ⟨vs,left⟩ ⟨hvs,hleft⟩
      exact ⟨.cons hv hvs,hleft⟩

theorem validatePositions_valid {cs : List SchemaType} {vs : List Json}
    (h : List.Forall₂ Valid cs vs) (path : String) (index : Nat) :
    OnlyDuplicates (validatePositions cs vs path index) := by
  induction h generalizing index with
  | nil => simpa [validatePositions] using onlyDuplicates_nil
  | cons hv _ ih => rw [validatePositions]; exact (hv _).append (ih _)

end Positions

section Sums

theorem providerOptions_mem {ms : List (String × SchemaType)} {tagKey path : String}
    {options : List Json} (h : providerOptions ms tagKey path = .ok options) {v : Json}
    (hv : v ∈ options) : ∃ m ∈ ms, ∃ schema p, providerSchemaAtPath m.2 p = .ok schema ∧
      v = exactly [(tagKey,record [("type",.string "string"),("enum",.array [.string m.1])]),
        ("value",schema)] := by
  induction ms generalizing options with
  | nil => cases h; cases hv
  | cons m rest ih =>
    obtain ⟨value,hval,h⟩ := bind_eq_ok.mp h
    obtain ⟨others,ho,h⟩ := bind_eq_ok.mp h
    cases h
    rcases List.mem_cons.mp hv with rfl | hv
    · exact ⟨m,List.mem_cons_self,value,_,hval,rfl⟩
    · obtain ⟨n,hn,hrest⟩ := ih ho hv
      exact ⟨n,List.mem_cons_of_mem _ hn,hrest⟩

theorem satisfies_tag {tag : String} {x : Json} :
    satisfies (record [("type",.string "string"),("enum",.array [.string tag])]) x ↔
      x = .string tag := by
  rw [Json.satisfies_record (by simp)]
  cases x <;> simp [Json.keywordHolds,Json.hasType,Json.equivalent]
  exact eq_comm

/-- The payload is decoded at the first member of the tag. -/
theorem decodeSum_sumOf {ms : List (String × SchemaType)} {wire : SumWire}
    (h : wire.tagKey < "value") {tag : String} {s : SchemaType} (hs : ms.lookup tag = some s)
    (payload : Json) (label path : String) :
    decodeSum ms wire.tagKey label (sumOf wire tag payload) path = (do
      let value ← decodeProviderValue s payload (fieldPath path "value")
      .ok (sumOf wire tag value)) := by
  have hd : decodeMember ms tag [(wire.tagKey,.string tag),("value",payload)] path = (do
      let value ← decodeProviderValue s payload (fieldPath path "value")
      .ok (sumOf wire tag value)) := by
    induction ms with
    | nil => cases hs
    | cons m rest ih =>
      obtain ⟨name,t⟩ := m
      rw [decodeMember]
      by_cases hn : name = tag
      · rw [hn,List.lookup_cons_self] at hs
        cases hs
        rw [if_pos hn,get_payload h]
        have hi : ∀ value, Json.Object.insert [(wire.tagKey,.string tag),("value",payload)]
            "value" value = [(wire.tagKey,.string tag),("value",value)] := by
          intro value
          rw [Json.Object.insert,if_neg h.asymm,if_neg h.ne',Json.Object.insert,
            if_neg (lt_irrefl _),if_pos rfl]
        simp only [hi,sumOf]
      · rw [List.lookup_cons,beq_eq_false_iff_ne.mpr (Ne.symm hn)] at hs
        rw [if_neg hn]
        exact ih hs
  rw [sumOf,decodeSum,get_tag]
  exact hd

/-- A document of one of the options decodes as the member of its tag. -/
theorem decodeSum_outcome {ms : List (String × SchemaType)} {wire : SumWire} {path : String}
    {options : List Json} (hn : (ms.map (·.1)).Nodup) (hl : ∀ m ∈ ms, Lowers m.2)
    (hw : wire.tagKey < "value") (h : providerOptions ms wire.tagKey path = .ok options)
    {x : Json} (hx : x.wellFormed) {v : Json} (hv : v ∈ options) (hs : satisfies v x)
    (label p : String) :
    Outcome (fun x' => ∀ path, OnlyDuplicates (validateSum ms wire x' path))
      Violation.IsDuplicate (decodeSum ms wire.tagKey label x p) := by
  obtain ⟨m,hm,schema,q,hq,rfl⟩ := providerOptions_mem h hv
  have hne : wire.tagKey ≠ "value" := hw.ne
  obtain ⟨fields,rfl,hk,hvs⟩ := (Json.satisfies_exactly (by simp [hne]) _).mp hs
  obtain ⟨hsorted,_⟩ := (Json.wellFormed_object fields).mp hx
  obtain ⟨t,payload,rfl⟩ := hsorted.eq_pair hw (by simpa using hk)
  have htag : t = .string m.1 := by
    refine satisfies_tag.mp (hvs _ List.mem_cons_self t ?_)
    simp [Json.Object.get_cons]
  subst htag
  have hsp : satisfies schema payload := hvs ("value",schema) (by simp) payload (get_payload hw)
  have hwp : payload.wellFormed := (wellFormed_sumOf hw).mp hx
  have hlookup : ms.lookup m.1 = some m.2 := (lookup_eq_some hn).mpr hm
  have hdec := decodeSum_sumOf hw hlookup payload label p
  rw [sumOf] at hdec
  rw [hdec]
  refine (hl m hm _ _ hq payload hwp hsp _).bind fun value hvalue path' => ?_
  simp only [sumOf,validateSum,get_tag,validateMember_eq,hlookup,get_payload hw]
  simpa using hvalue _

end Sums

section Soundness

theorem onlyDuplicates_map {α : Type} {items : List α} {f : α → List Violation}
    (h : ∀ x ∈ items, OnlyDuplicates (f x)) : OnlyDuplicates (items.map f).flatten := by
  intro v hv
  obtain ⟨l,hl,hv⟩ := List.mem_flatten.mp hv
  obtain ⟨x,hx,rfl⟩ := List.mem_map.mp hl
  exact h x hx v hv

theorem onlyDuplicates_expect {b : Bool} (h : b = true) (path expected : String) (value : Json) :
    OnlyDuplicates (expect b path expected value) := by
  rw [expect,if_pos h]; exact onlyDuplicates_nil

/-- A schema of one `type` keyword. -/
theorem satisfies_type {kind : String} {x : Json} :
    satisfies (record [("type",.string kind)]) x ↔ Json.hasType kind x := by
  rw [Json.satisfies_record (by simp)]
  simp [Json.keywordHolds]

theorem satisfies_range {kind : String} {low high : JsonNumber} {x : Json} :
    satisfies (record [("type",.string kind),("minimum",.number low),
      ("maximum",.number high)]) x ↔
    Json.hasType kind x ∧ ∀ n, x = .number n → low.toRat ≤ n.toRat ∧ n.toRat ≤ high.toRat := by
  rw [Json.satisfies_record (by simp)]
  cases x <;> simp [Json.keywordHolds]

theorem keywordHolds_anyOf {schema : Json.Object} {options : List Json} {x : Json} :
    Json.keywordHolds schema "anyOf" (.array options) x ↔ ∃ v ∈ options, satisfies v x := by
  rw [← Json.anyHolds_iff]
  cases x <;> simp [Json.keywordHolds]

theorem satisfies_anyOf {options : List Json} {x : Json} :
    satisfies (record [("anyOf",.array options)]) x ↔ ∃ v ∈ options, satisfies v x := by
  rw [Json.satisfies_record (by simp),List.forall_mem_singleton]
  exact keywordHolds_anyOf

theorem satisfies_titledAnyOf {title : String} {options : List Json} {x : Json} :
    satisfies (record [("title",.string title),("anyOf",.array options)]) x ↔
      ∃ v ∈ options, satisfies v x := by
  rw [Json.satisfies_record (by simp),List.forall_mem_cons,List.forall_mem_singleton]
  have ht : Json.keywordHolds (Json.Object.ofList [("title",.string title),
      ("anyOf",.array options)]) "title" (.string title) x := Json.keywordHolds_title _ _ _
  exact ⟨fun h => keywordHolds_anyOf.mp h.2,fun h => ⟨ht,keywordHolds_anyOf.mpr h⟩⟩

/-- A number in the emitted integer range reads as a 64-bit integer. -/
theorem jsonNumberToI64_isSome {n : JsonNumber} (hd : n.toRat.den = 1)
    (hl : (-9223372036854775808 : ℚ) ≤ n.toRat) (hh : n.toRat ≤ 9223372036854775807) :
    (jsonNumberToI64 n).isSome := by
  cases n with
  | posInt n =>
    have hn : n.val < 9223372036854775808 := by
      simp only [JsonNumber.toRat] at hh
      have : (n.val : ℚ) < 9223372036854775808 := lt_of_le_of_lt hh (by norm_num)
      exact_mod_cast this
    simp [jsonNumberToI64,JsonNumber.asI64,hn]
  | negInt n => simp [jsonNumberToI64,JsonNumber.asI64]
  | float f =>
    have hh' : f.toRat < 9223372036854775808 := lt_of_le_of_lt hh (by norm_num)
    have hc : f.toRat.den = 1 ∧ -9223372036854775808 ≤ f.toRat ∧
        f.toRat < 9223372036854775808 := ⟨hd,hl,hh'⟩
    simp [jsonNumberToI64,JsonNumber.asI64,JsonNumber.asF64,hc]

theorem toRat_ofI64 (i : Int64) : (JsonNumber.ofI64 i).toRat = i.toInt :=
  JsonNumber.toRat_of_asI64 (JsonNumber.asI64_ofI64 i)

theorem valid_int {n : JsonNumber} (h : n.asI64.isSome) : Valid .int (.number n) := by
  intro path
  rw [validateAt]
  exact onlyDuplicates_expect h path "Int" _

theorem lowers_int : Lowers .int := by
  intro path schema he x _ hs p
  cases he
  obtain ⟨ht,hr⟩ := satisfies_range.mp hs
  cases x with
  | number n =>
    obtain ⟨hlow,hhigh⟩ := hr n rfl
    rw [toRat_ofI64] at hlow hhigh
    have hd : n.toRat.den = 1 := by simpa [Json.hasType] using ht
    have hn := jsonNumberToI64_isSome hd (by simpa using hlow)
      (by simpa [Int64.maxValue] using hhigh)
    obtain ⟨i,hi⟩ := Option.isSome_iff_exists.mp hn
    simp only [decodeProviderValue]
    split
    · rename_i hsome
      exact valid_int hsome
    · rw [hi]
      exact valid_int (by rw [JsonNumber.asI64_ofI64]; rfl)
  | _ => simp [Json.hasType] at ht

theorem lowers_item {item : SchemaType} (hl : Lowers item) {path : String} {schema : Json}
    (he : (do
      let items ← providerSchemaAtPath item (path ++ "[]")
      Except.ok (arrayOf items)) = .ok schema) {x : Json} (hx : x.wellFormed)
    (hs : satisfies schema x) : ∃ items, x = .array items ∧ ∀ y ∈ items, ∀ p,
      Outcome (Valid item) Violation.IsDuplicate (decodeProviderValue item y p) := by
  obtain ⟨itemSchema,hi,he⟩ := bind_eq_ok.mp he
  cases he
  obtain ⟨keywords,rfl,_⟩ := providerSchemaAtPath_object hi
  obtain ⟨items,rfl,hitems⟩ := (Json.satisfies_arrayOf _ _).mp hs
  exact ⟨items,rfl,fun y hy => hl _ _ hi y ((Json.wellFormed_array items).mp hx y hy) (hitems y hy)⟩

theorem valid_set {item : SchemaType} {vs : List Json} (h : ∀ v ∈ vs, Valid item v) :
    Valid (.set item) (record [("$mag",.string "set"),("items",.array vs)]) := by
  intro path
  rw [validateAt,validateSet,envelope_eq (by decide),exactWireArray_envelope (by decide)]
  refine onlyDuplicates_mapIdx fun i v hv => ?_
  exact (h v hv _).append (onlyDuplicates_ite (duplicateViolation_set _))

theorem valid_map {key value : SchemaType} (hk : isStringKey key = false) {vs : List Json}
    (h : ∀ e ∈ vs, ∃ k v, e = .array [k,v] ∧ Valid key k ∧ Valid value v) :
    Valid (.map key value) (record [("$mag",.string "map"),("entries",.array vs)]) := by
  intro path
  rw [validateAt_pairs hk,validateMap,envelope_eq (by decide),exactWireArray_envelope (by decide)]
  refine onlyDuplicates_mapIdx fun i e he => ?_
  obtain ⟨k,v,rfl,hkv,hvv⟩ := h e he
  exact ((hkv _).append (hvv _)).append (onlyDuplicates_ite (duplicateViolation_map _))

theorem valid_stringMap {key value : SchemaType} (hk : isStringKey key) {object : Json.Object}
    (h : ∀ e ∈ object, Valid value e.2) : Valid (.map key value) (.object object) := by
  intro path
  rw [validateAt,if_pos hk]
  exact onlyDuplicates_map fun e he => h e he _

theorem lowers_map {key value : SchemaType} (ihk : Lowers key) (ihv : Lowers value) :
    Lowers (.map key value) := by
  intro path schema he x hx hs p
  obtain ⟨keySchema,hks,he⟩ := bind_eq_ok.mp he
  obtain ⟨valueSchema,hvs,he⟩ := bind_eq_ok.mp he
  cases he
  obtain ⟨items,rfl,hitems⟩ := (Json.satisfies_arrayOf _ _).mp hs
  have hwf := (Json.wellFormed_array items).mp hx
  have hentry : ∀ e ∈ items, IsEntry keySchema valueSchema e := fun e he =>
    isEntry_of_satisfies (hwf e he) (hitems e he)
  have hv : ∀ y, y.wellFormed → satisfies valueSchema y → ∀ p,
      Outcome (Valid value) Violation.IsDuplicate (decodeProviderValue value y p) :=
    fun y hy hsy => ihv _ _ hvs y hy hsy
  rw [decodeProviderValue]
  by_cases hstring : isStringKey key
  · rw [if_pos hstring]
    obtain rfl := isStringKey_iff.mp hstring
    have hk : ∀ y, y.wellFormed → satisfies keySchema y → ∀ p,
        Outcome (fun v => ∃ s, v = .string s) Violation.IsDuplicate
          (decodeProviderValue .string y p) := by
      intro y _ hsy p
      cases hks
      have ht := satisfies_type.mp hsy
      cases y <;> simp [Json.hasType] at ht
      rw [decodeProviderValue]
      exact ⟨_,rfl⟩
    refine (decodeStringEntries_outcome hentry hk hv duplicateViolation_map 0 []
      fun e he => absurd he List.not_mem_nil).bind fun object ho => ?_
    exact valid_stringMap rfl ho
  · rw [if_neg hstring]
    have hk : ∀ y, y.wellFormed → satisfies keySchema y → ∀ p,
        Outcome (Valid key) Violation.IsDuplicate (decodeProviderValue key y p) :=
      fun y hy hsy => ihk _ _ hks y hy hsy
    refine (decodeEntries_outcome hentry hk hv 0).bind fun vs hvs => ?_
    exact valid_map (Bool.eq_false_iff.mpr hstring) hvs

theorem lowers_fields {fs : List (String × SchemaType)} (hn : (fs.map (·.1)).Nodup)
    (hl : ∀ f ∈ fs, Lowers f.2) : Lowers (.fields fs) := by
  intro path schema he x hx hs p
  obtain ⟨properties,hp,he⟩ := bind_eq_ok.mp he
  cases he
  have hnames := providerProperties_names hp
  obtain ⟨values,rfl,hk,hvs⟩ := (Json.satisfies_exactly (hnames ▸ hn) _).mp hs
  obtain ⟨_,hwf⟩ := (Json.wellFormed_object values).mp hx
  have hget : ∀ f ∈ fs, ∀ y, Json.Object.get values f.1 = some y → ∀ p,
      Outcome (Valid f.2) Violation.IsDuplicate (decodeProviderValue f.2 y p) := by
    intro f hf y hy
    obtain ⟨fieldSchema,q,hm,hq⟩ := providerProperties_mem hp hf
    exact hl f hf _ _ hq y (hwf _ (Json.Object.mem_of_get hy)) (hvs _ hm y hy)
  rw [decodeProviderValue]
  refine (decodeFields_outcome hn p hget).bind ?_
  rintro values' ⟨hkeys,_,hvalid⟩ path'
  have hsome : ∀ key, (values'.get key).isSome ↔ key ∈ fs.map (·.1) := by
    intro key
    rw [hkeys,hk,hnames]
  rw [validateAt]
  refine OnlyDuplicates.append (validateFields_valid ?_ _) ?_
  · intro f hf
    obtain ⟨y,hy⟩ := Option.isSome_iff_exists.mp ((hsome f.1).mpr (List.mem_map_of_mem hf))
    exact ⟨y,hy,hvalid f hf y hy⟩
  · intro v hv
    obtain ⟨e,he,rfl⟩ := List.mem_map.mp hv
    obtain ⟨he,hno⟩ := List.mem_filter.mp he
    obtain ⟨f,hf,hfe⟩ := List.mem_map.mp ((hsome e.1).mp (Json.Object.get_isSome.mpr ⟨e.2,he⟩))
    have : (fs.any fun f => f.1 == e.1) = true := List.any_eq_true.mpr ⟨f,hf,by simpa using hfe⟩
    simp [this] at hno

theorem lowers_product {cs : List SchemaType} (hl : ∀ c ∈ cs, Lowers c) :
    Lowers (.product cs) := by
  intro path schema he x hx hs p
  obtain ⟨properties,hp,he⟩ := bind_eq_ok.mp he
  cases he
  obtain ⟨values,rfl,hk,hvs⟩ := (Json.satisfies_exactly (providerPositions_nodup hp) _).mp hs
  obtain ⟨_,hwf⟩ := (Json.wellFormed_object values).mp hx
  rw [decodeProviderValue]
  refine (decodePositions_outcome hp hl hk ?_ p).bind ?_
  · intro e he v hv
    exact ⟨hvs e he v hv,hwf _ (Json.Object.mem_of_get hv)⟩
  · rintro ⟨vs,left⟩ ⟨hvalid,rfl⟩ path'
    have hlen := hvalid.length_eq
    rw [validateAt]
    simp only [hlen,if_true,List.nil_append]
    exact validatePositions_valid hvalid path' 0

theorem lowers_named {name : String} {body : SchemaType} (hl : Lowers body) :
    Lowers (.named name body) := by
  intro path schema he x hx hs p
  obtain ⟨value,hv,he⟩ := bind_eq_ok.mp he
  obtain ⟨keywords,rfl,hsorted⟩ := providerSchemaAtPath_object hv
  cases he
  have hbody := (Json.satisfies_title hsorted _ x).mp hs
  rw [decodeProviderValue]
  refine (hl _ _ hv x hx hbody p).mono fun w hw path' => ?_
  rw [validateAt]
  intro v hv
  obtain ⟨u,hu,rfl⟩ := List.mem_map.mp hv
  have hdup := hw path' u hu
  split
  · exact hdup
  · exact hdup

/-- Every document of the emitted schema decodes, up to repeated items and keys. -/
theorem lowers (s : SchemaType) (hd : s.Distinct) : Lowers s := by
  induction s with
  | jsonValue => intro path schema he; cases he
  | int => exact lowers_int
  | unit =>
    intro path schema he x _ hs p
    cases he
    have ht := satisfies_type.mp hs
    cases x <;> simp [Json.hasType] at ht
    rw [decodeProviderValue]
    intro path'
    rw [validateAt]
    exact onlyDuplicates_expect rfl path' "Unit" _
  | bool =>
    intro path schema he x _ hs p
    cases he
    have ht := satisfies_type.mp hs
    cases x <;> simp [Json.hasType] at ht
    rw [decodeProviderValue]
    intro path'
    rw [validateAt]
    exact onlyDuplicates_expect rfl path' "Bool" _
  | float =>
    intro path schema he x _ hs p
    cases he
    have ht := (satisfies_range.mp hs).1
    cases x <;> simp [Json.hasType] at ht
    rw [decodeProviderValue]
    intro path'
    rw [validateAt]
    exact onlyDuplicates_expect rfl path' "Float" _
  | string =>
    intro path schema he x _ hs p
    cases he
    have ht := satisfies_type.mp hs
    cases x <;> simp [Json.hasType] at ht
    rw [decodeProviderValue]
    intro path'
    rw [validateAt]
    exact onlyDuplicates_expect rfl path' "String" _
  | list item ih =>
    intro path schema he x hx hs p
    obtain ⟨items,rfl,hi⟩ := lowers_item (ih hd) he hx hs
    rw [decodeProviderValue]
    refine (decodeItems_outcome hi 0).bind fun vs hvs => ?_
    intro path'
    rw [validateAt]
    exact onlyDuplicates_mapIdx fun i v hv => hvs v hv _
  | set item ih =>
    intro path schema he x hx hs p
    obtain ⟨items,rfl,hi⟩ := lowers_item (ih hd) he hx hs
    rw [decodeProviderValue]
    exact (decodeItems_outcome hi 0).bind fun vs hvs => valid_set hvs
  | map key value ihk ihv => exact lowers_map (ihk hd.1) (ihv hd.2)
  | fields fs ih =>
    exact lowers_fields hd.1 fun f hf => ih f hf ((SchemaType.distinctMembers_iff fs).mp hd.2 f hf)
  | union vs ih =>
    intro path schema he x hx hs p
    obtain ⟨options,ho,he⟩ := bind_eq_ok.mp he
    cases he
    obtain ⟨v,hv,hs⟩ := satisfies_anyOf.mp hs
    have hl : ∀ m ∈ vs, Lowers m.2 := fun m hm =>
      ih m hm ((SchemaType.distinctMembers_iff vs).mp hd.2 m hm)
    rw [decodeProviderValue]
    refine (decodeSum_outcome hd.1 hl (by decide) ho hx hv hs _ p).mono fun w hw path' => ?_
    rw [validateAt]
    exact hw path'
  | adt name owner cs ih =>
    intro path schema he x hx hs p
    obtain ⟨options,ho,he⟩ := bind_eq_ok.mp he
    cases he
    obtain ⟨v,hv,hs⟩ := satisfies_titledAnyOf.mp hs
    have hl : ∀ m ∈ cs, Lowers m.2 := fun m hm =>
      ih m hm ((SchemaType.distinctMembers_iff cs).mp hd.2 m hm)
    rw [decodeProviderValue]
    refine (decodeSum_outcome hd.1 hl (by decide) ho hx hv hs _ p).mono fun w hw path' => ?_
    rw [validateAt]
    exact hw path'
  | product cs ih =>
    exact lowers_product fun c hc => ih c hc ((SchemaType.distinctAll_iff cs).mp hd c hc)
  | named name body ih => exact lowers_named (ih hd)

end Soundness

end Nefor.Mag
