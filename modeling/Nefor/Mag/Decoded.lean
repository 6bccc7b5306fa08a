import Nefor.Mag.Decode
import Nefor.Mag.Int64Form

/-! What decodes, type by type: the shape of the document and of the value read from it. -/
namespace Nefor.Mag
open Run (ofOption)

section Duplicates
variable {env : Env} {m : Nat} {D : Json → Value → Prop} {r : Json → Json → Bool}

/-- On values that stand for documents, equality is decided by the documents. -/
def Decides (env : Env) (m : Nat) (D : Json → Value → Prop) (r : Json → Json → Bool) : Prop :=
  ∀ j v k w, D j v → D k w → equal env m v w = .ok (r j k)

theorem equalPositions_eq (h : Decides env m D r) {js ks : List Json} {vs ws : List Value}
    (hv : List.Forall₂ D js vs) (hw : List.Forall₂ D ks ws) :
    equalPositions env m vs ws = .ok ((js.zip ks).all fun p => r p.1 p.2) := by
  induction hv generalizing ks ws with
  | nil => simp [equalPositions]
  | @cons j v _ _ hjv _ ih =>
    cases hw with
    | nil => simp [equalPositions]
    | @cons k w _ _ hkw hw =>
      rw [equalPositions,h j v k w hjv hkw,ok_bind,List.zip_cons_cons,List.all_cons]
      cases r j k with
      | true => exact ih hw
      | false => rfl

theorem equalItems_eq (h : Decides env m D r) {js ks : List Json} {vs ws : List Value}
    (hv : List.Forall₂ D js vs) (hw : List.Forall₂ D ks ws) :
    equalItems env m vs ws = .ok (js.all fun x => ks.any fun y => r x y) := by
  induction hv with
  | nil => simp [equalItems]
  | @cons j v _ _ hjv _ ih =>
    rw [equalItems,Run.anyM_eq hw fun k w hkw => h j v k w hjv hkw,ok_bind,List.all_cons]
    cases ks.any fun y => r j y with
    | true => exact ih
    | false => rfl

/-- A key and a value that stand for the parts of an entry. -/
def EntryOf (D E : Json → Value → Prop) (e : Json × Json) (f : Value × Value) : Prop :=
  D e.1 f.1 ∧ E e.2 f.2

theorem equalEntries_eq {E : Json → Value → Prop} {t : Json → Json → Bool}
    (h : Decides env m D r) (he : Decides env m E t) {js ks : List (Json × Json)}
    {vs ws : List (Value × Value)} (hv : List.Forall₂ (EntryOf D E) js vs)
    (hw : List.Forall₂ (EntryOf D E) ks ws) :
    equalEntries env m vs ws =
      .ok (js.all fun x => ks.any fun y => r x.1 y.1 && t x.2 y.2) := by
  induction hv with
  | nil => simp [equalEntries]
  | @cons j v _ _ hjv _ ih =>
    have hsame : ∀ k w, EntryOf D E k w → (do
        if ← equal env m v.1 w.1 then equal env m v.2 w.2 else .ok false) =
          (.ok (r j.1 k.1 && t j.2 k.2) : Run MagError Bool) := by
      intro k w hkw
      rw [h _ _ _ _ hjv.1 hkw.1,ok_bind,he _ _ _ _ hjv.2 hkw.2]
      cases r j.1 k.1 <;> rfl
    rw [equalEntries,Run.anyM_eq hw hsame,ok_bind,List.all_cons]
    cases ks.any fun y => r j.1 y.1 && t j.2 y.2 with
    | true => exact ih
    | false => rfl

theorem rejectDuplicateValues_ok (h : Decides env m D r) (label : String) {ps js : List Json}
    {previous vs : List Value} (hp : List.Forall₂ D ps previous) (hv : List.Forall₂ D js vs) :
    rejectDuplicateValues env m label previous vs = .ok () ↔
      (∀ p ∈ ps, ∀ j ∈ js, r p j = false) ∧ js.Pairwise fun a b => r a b = false := by
  induction hv generalizing ps previous with
  | nil => simp [rejectDuplicateValues]
  | @cons j v js vs hjv hv ih =>
    have hany := Run.anyM_eq hp fun p w hpw => h p w j v hpw hjv
    rw [rejectDuplicateValues,hany,ok_bind]
    cases hd : ps.any fun p => r p j with
    | true =>
      obtain ⟨p,hp,hr⟩ := List.any_eq_true.mp hd
      refine ⟨fun hf => absurd hf Run.fail_ne_ok,fun hn => ?_⟩
      rw [hn.1 p hp j List.mem_cons_self] at hr
      cases hr
    | false =>
      have hd := List.any_eq_false.mp hd
      have hpj := ih (List.rel_append hp (.cons hjv .nil))
      rw [if_neg (by simp),hpj,List.pairwise_cons]
      simp only [List.mem_append,List.mem_cons,List.not_mem_nil,or_false]
      constructor
      · rintro ⟨hps,hjs⟩
        refine ⟨?_,fun k hk => hps j (.inr rfl) k hk,hjs⟩
        rintro p hp k (rfl | hk)
        · simpa using hd p hp
        · exact hps p (.inl hp) k hk
      · rintro ⟨hps,hj,hjs⟩
        refine ⟨?_,hjs⟩
        rintro p (hp | rfl) k hk
        · exact hps p hp k (.inr hk)
        · exact hj k hk

end Duplicates

section Decoded
variable {env : Env} {n : Nat} {j : Json} {v : Value}

/-- A document decodes to a value. -/
def Decodes (env : Env) (n : Nat) (ty : MagType) (j : Json) (v : Value) : Prop :=
  decodeTypedValue env .exact n j ty = .ok v

theorem exactEnvelope_iff {tag field : String} (h : "$mag" < field) (hw : j.wellFormed)
    (ty : MagType) {items : List Json} :
    (∃ o, exactEnvelope j tag field ty = .ok o ∧
      (Json.Object.get o field).bind Json.asArray = some items) ↔ j = envelope tag field items := by
  constructor
  · rintro ⟨o,ho,hi⟩
    cases j with
    | object fields =>
      simp only [exactEnvelope] at ho
      split at ho
      · cases ho
      · rename_i hc
        simp only [not_or,not_not] at hc
        cases ho
        exact eq_envelope h ((Json.wellFormed_object _).mp hw).1 hc.1 hc.2.1 hi
    | _ => cases ho
  · rintro rfl
    refine ⟨[("$mag",.string tag),(field,.array items)],?_,?_⟩
    · simp [exactEnvelope,envelope,get_mag,get_field h,Json.asStr]
    · rw [get_field h]; rfl

theorem decodes_list {item : MagType} : Decodes env (n+1) (.list item) j v ↔
    ∃ items vs, j = .array items ∧ List.Forall₂ (Decodes env n item) items vs ∧ v = .list vs := by
  constructor
  · intro h
    obtain ⟨items,hi,h⟩ := bind_eq_ok.mp h
    obtain ⟨vs,hvs,h⟩ := bind_eq_ok.mp h
    cases h
    have hj := Json.asArray_eq_some.mp (Run.ofOption_eq_ok.mp hi)
    exact ⟨items,vs,hj,Run.mapM_eq_ok.mp hvs,rfl⟩
  · rintro ⟨items,vs,rfl,hvs,rfl⟩
    exact bind_eq_ok.mpr ⟨items,rfl,bind_eq_ok.mpr ⟨vs,Run.mapM_eq_ok.mpr hvs,rfl⟩⟩

theorem decodes_set {item : MagType} (hw : j.wellFormed) : Decodes env (n+1) (.set item) j v ↔
    ∃ items vs, j = envelope "set" "items" items ∧ List.Forall₂ (Decodes env n item) items vs ∧
      rejectDuplicateValues env n "set item" [] vs = .ok () ∧ v = .typed (.set vs) (.set item) := by
  constructor
  · intro h
    obtain ⟨o,ho,h⟩ := bind_eq_ok.mp h
    obtain ⟨items,hi,h⟩ := bind_eq_ok.mp h
    obtain ⟨vs,hvs,h⟩ := bind_eq_ok.mp h
    obtain ⟨_,hd,h⟩ := bind_eq_ok.mp h
    cases h
    have hj := (exactEnvelope_iff (by decide) hw _).mp ⟨o,ho,Run.ofOption_eq_ok.mp hi⟩
    exact ⟨items,vs,hj,Run.mapM_eq_ok.mp hvs,hd,rfl⟩
  · rintro ⟨items,vs,hj,hvs,hd,rfl⟩
    obtain ⟨o,ho,hi⟩ := (exactEnvelope_iff (by decide) hw (.set item)).mpr hj
    refine bind_eq_ok.mpr ⟨o,ho,bind_eq_ok.mpr ⟨items,Run.ofOption_eq_ok.mpr hi,?_⟩⟩
    exact bind_eq_ok.mpr ⟨vs,Run.mapM_eq_ok.mpr hvs,bind_eq_ok.mpr ⟨(),hd,rfl⟩⟩

theorem decodes_stringMap {item : MagType} : Decodes env (n+1) (.map .string item) j v ↔
    ∃ entries vs, j = .object entries ∧
      List.Forall₂ (fun (e : String × Json) (f : Value × Value) =>
        f.1 = .str e.1 ∧ Decodes env n item e.2 f.2) entries vs ∧
      v = .typed (.map vs) (.map .string item) := by
  have hentry : ∀ (e : String × Json) (f : Value × Value), (do
      let v ← decodeTypedValue env .exact n e.2 item
      Except.ok (Value.str e.1,v)) = (.ok f : Run MagError (Value × Value)) ↔
        f.1 = .str e.1 ∧ Decodes env n item e.2 f.2 := by
    intro e f
    obtain ⟨k,v⟩ := f
    rw [bind_eq_ok]
    constructor
    · rintro ⟨w,hw,he⟩
      cases he
      exact ⟨rfl,hw⟩
    · rintro ⟨hk,hv⟩
      cases hk
      exact ⟨v,hv,rfl⟩
  constructor
  · intro h
    obtain ⟨entries,hi,h⟩ := bind_eq_ok.mp h
    obtain ⟨vs,hvs,h⟩ := bind_eq_ok.mp h
    cases h
    have hj := Json.asObject_eq_some.mp (Run.ofOption_eq_ok.mp hi)
    exact ⟨entries,vs,hj,(Run.mapM_eq_ok.mp hvs).imp fun e f h => (hentry e f).mp h,rfl⟩
  · rintro ⟨entries,vs,rfl,hvs,rfl⟩
    refine bind_eq_ok.mpr ⟨entries,rfl,bind_eq_ok.mpr ⟨vs,Run.mapM_eq_ok.mpr ?_,rfl⟩⟩
    exact hvs.imp fun e f h => (hentry e f).mpr h

theorem decodeMapEntry_ok {key item ty : MagType} {e : Json} {f : Value × Value} :
    decodeMapEntry (decodeTypedValue env .exact n) key item ty e = .ok f ↔
      ∃ k, e = mapEntry k ∧ EntryOf (Decodes env n key) (Decodes env n item) k f := by
  constructor
  · intro h
    unfold decodeMapEntry at h
    split at h
    · rename_i k w
      obtain ⟨a,ha,h⟩ := bind_eq_ok.mp h
      obtain ⟨b,hb,h⟩ := bind_eq_ok.mp h
      cases h
      exact ⟨(k,w),rfl,ha,hb⟩
    · cases h
  · rintro ⟨⟨k,w⟩,rfl,hk,hw⟩
    exact bind_eq_ok.mpr ⟨f.1,hk,bind_eq_ok.mpr ⟨f.2,hw,rfl⟩⟩

theorem decodes_map {key item : MagType} (hk : key ≠ .string) (hw : j.wellFormed) :
    Decodes env (n+1) (.map key item) j v ↔
    ∃ (pairs : List (Json × Json)) (vs : List (Value × Value)),
      j = envelope "map" "entries" (pairs.map mapEntry) ∧
      List.Forall₂ (EntryOf (Decodes env n key) (Decodes env n item)) pairs vs ∧
      rejectDuplicateMapKeys env n vs = .ok () ∧ v = .typed (.map vs) (.map key item) := by
  rw [Decodes,decodeTypedValue_map hk]
  constructor
  · intro h
    obtain ⟨o,ho,h⟩ := bind_eq_ok.mp h
    obtain ⟨items,hi,h⟩ := bind_eq_ok.mp h
    obtain ⟨vs,hvs,h⟩ := bind_eq_ok.mp h
    obtain ⟨_,hd,h⟩ := bind_eq_ok.mp h
    cases h
    have hj := (exactEnvelope_iff (by decide) hw _).mp ⟨o,ho,Run.ofOption_eq_ok.mp hi⟩
    have hvs := (Run.mapM_eq_ok.mp hvs).imp fun e f h => decodeMapEntry_ok.mp h
    have hpairs : ∀ x ∈ items, ∃ e, x = mapEntry e := fun x hx => by
      obtain ⟨f,_,k,hk,_⟩ := forall₂_mem hvs hx
      exact ⟨k,hk⟩
    obtain ⟨pairs,rfl⟩ := exists_pairs hpairs
    refine ⟨pairs,vs,hj,?_,hd,rfl⟩
    refine (List.forall₂_map_left_iff.mp hvs).imp ?_
    rintro k f ⟨k',hkk,hf⟩
    obtain rfl : k = k' := by
      simp only [mapEntry,Json.array.injEq,List.cons.injEq,and_true] at hkk
      exact Prod.ext hkk.1 hkk.2
    exact hf
  · rintro ⟨pairs,vs,hj,hvs,hd,rfl⟩
    obtain ⟨o,ho,hi⟩ := (exactEnvelope_iff (by decide) hw (.map key item)).mpr hj
    refine bind_eq_ok.mpr ⟨o,ho,bind_eq_ok.mpr ⟨_,Run.ofOption_eq_ok.mpr hi,?_⟩⟩
    refine bind_eq_ok.mpr ⟨vs,Run.mapM_eq_ok.mpr ?_,bind_eq_ok.mpr ⟨(),hd,rfl⟩⟩
    exact List.forall₂_map_left_iff.mpr (hvs.imp fun k f h => decodeMapEntry_ok.mpr ⟨k,rfl,h⟩)

theorem decodes_product {components : List MagType} : Decodes env (n+1) (.product components) j v ↔
    ∃ items vs, j = .array items ∧ items.length = components.length ∧
      List.Forall₂ (fun p w => Decodes env n p.2 p.1 w) (items.zip components) vs ∧
      v = .product vs := by
  constructor
  · intro h
    obtain ⟨items,hi,h⟩ := bind_eq_ok.mp h
    split at h
    · cases h
    · rename_i hl
      obtain ⟨vs,hvs,h⟩ := bind_eq_ok.mp h
      cases h
      have hj := Json.asArray_eq_some.mp (Run.ofOption_eq_ok.mp hi)
      exact ⟨items,vs,hj,not_not.mp hl,Run.mapM_eq_ok.mp hvs,rfl⟩
  · rintro ⟨items,vs,rfl,hl,hvs,rfl⟩
    refine bind_eq_ok.mpr ⟨items,rfl,?_⟩
    rw [if_neg (not_not.mpr hl)]
    exact bind_eq_ok.mpr ⟨vs,Run.mapM_eq_ok.mpr hvs,rfl⟩

section Nominal
variable {name : String} {args : List MagType} {decl : TypeDecl}

theorem decodes_named (hd : env.typeDecl name = some decl) :
    Decodes env (n+1) (.named name args) j v ↔
      decodeNamed (decodeTypedValue env .exact n) .exact j decl name args = .ok v := by
  rw [Decodes,decodeTypedValue,hd]
  rfl

/-- Each field of the declaration is read from the entry of its name. -/
theorem decodes_fields (hd : env.typeDecl name = some decl) {fs : FieldTypes}
    (hb : decl.body = .fields fs) : Decodes env (n+1) (.named name args) j v ↔
    ∃ entries vs, j = .object entries ∧ entries.length = fs.types.length ∧
      List.Forall₂ (fun (f : String × MagType) (w : String × Value) => w.1 = f.1 ∧
        ∃ m, Json.Object.get entries f.1 = some m ∧
          Decodes env n (f.2.substitute (substitutions decl.params args)) m w.2) fs.types vs ∧
      v = .typed (.fields vs) (.named name args) := by
  have hfield : ∀ (entries : Json.Object) (f : String × MagType) (w : String × Value), (do
      let field ← ofOption (Json.Object.get entries f.1)
        (.type ("missing field " ++ f.1 ++ " for " ++ (MagType.named name args).text))
      let v ← decodeTypedValue env .exact n field
        (f.2.substitute (substitutions decl.params args))
      Except.ok (f.1,v)) = (.ok w : Run MagError (String × Value)) ↔ w.1 = f.1 ∧
        ∃ m, Json.Object.get entries f.1 = some m ∧
          Decodes env n (f.2.substitute (substitutions decl.params args)) m w.2 := by
    intro entries f w
    obtain ⟨k,w⟩ := w
    rw [bind_eq_ok]
    constructor
    · rintro ⟨m,hm,h⟩
      obtain ⟨u,hu,h⟩ := bind_eq_ok.mp h
      cases h
      exact ⟨rfl,m,Run.ofOption_eq_ok.mp hm,hu⟩
    · rintro ⟨hk,m,hm,hu⟩
      cases hk
      exact ⟨m,Run.ofOption_eq_ok.mpr hm,bind_eq_ok.mpr ⟨w,hu,rfl⟩⟩
  rw [decodes_named hd,decodeNamed,hb]
  dsimp only
  constructor
  · intro h
    obtain ⟨u,hu,h⟩ := bind_eq_ok.mp h
    cases h
    cases j with
    | object entries =>
      simp only [decodeFieldValues,true_and,List.length_map] at hu
      split at hu
      · cases hu
      · rename_i hl
        obtain ⟨vs,hvs,hu⟩ := bind_eq_ok.mp hu
        cases hu
        have hvs := List.forall₂_map_left_iff.mp (Run.mapM_eq_ok.mp hvs)
        exact ⟨entries,vs,rfl,not_not.mp hl,hvs.imp fun f w h => (hfield entries f w).mp h,rfl⟩
    | _ => cases hu
  · rintro ⟨entries,vs,rfl,hl,hvs,rfl⟩
    refine bind_eq_ok.mpr ⟨.fields vs,?_,rfl⟩
    simp only [decodeFieldValues,true_and,List.length_map]
    rw [if_neg (not_not.mpr hl)]
    refine bind_eq_ok.mpr ⟨vs,Run.mapM_eq_ok.mpr (List.forall₂_map_left_iff.mpr ?_),rfl⟩
    exact hvs.imp fun f w h => (hfield entries f w).mpr h

theorem decodes_alias (hd : env.typeDecl name = some decl) {body : MagType}
    (hb : decl.body = .transparentAlias body ∨ decl.body = .nominalAlias body) :
    Decodes env (n+1) (.named name args) j v ↔
    ∃ w, Decodes env n (body.substitute (substitutions decl.params args)) j w ∧
      v = .typed w (.named name args) := by
  rw [decodes_named hd,decodeNamed]
  rcases hb with hb | hb <;> rw [hb] <;> dsimp only <;> rw [bind_eq_ok] <;>
    simp only [Except.ok.injEq,Decodes,eq_comm]

/-- The payload is read at the first constructor of its name. -/
theorem decodes_adt (hd : env.typeDecl name = some decl) {cs : List ConstructorDecl}
    (hb : decl.body = .adt cs) (hw : j.wellFormed) : Decodes env (n+1) (.named name args) j v ↔
    ∃ tag c payload w, j = sumOf adtWire tag payload ∧
      cs.find? (fun c => c.id.name == tag) = some c ∧
      Decodes env n (c.payload.substitute (substitutions decl.params args)) payload w ∧
      v = .adt (.named name args) c.id w := by
  rw [decodes_named hd,decodeNamed,hb]
  dsimp only
  constructor
  · intro h
    cases j with
    | object fields =>
      simp only [decodeAdt] at h
      split at h
      · cases h
      · rename_i hc
        simp only [not_or,not_not] at hc
        obtain ⟨tag,ht,h⟩ := bind_eq_ok.mp h
        obtain ⟨c,hc',h⟩ := bind_eq_ok.mp h
        obtain ⟨payload,hp,h⟩ := bind_eq_ok.mp h
        obtain ⟨w,hw',h⟩ := bind_eq_ok.mp h
        cases h
        obtain ⟨t,hg,ht⟩ := Option.bind_eq_some_iff.mp (Run.ofOption_eq_ok.mp ht)
        obtain rfl := Json.asStr_eq_some.mp ht
        have hf := ((Json.wellFormed_object _).mp hw).1.eq_pair_of_length hc.1
          (show "constructor" < "value" by decide) hg (Run.ofOption_eq_ok.mp hp)
        exact ⟨tag,c,payload,w,congrArg Json.object hf,Run.ofOption_eq_ok.mp hc',hw',rfl⟩
    | _ => cases h
  · rintro ⟨tag,c,payload,w,rfl,hc,hu,rfl⟩
    have hp := @get_payload adtWire tag payload (by decide)
    have ht : Json.Object.get [(adtWire.tagKey,.string tag),("value",payload)] "constructor" =
        some (.string tag) := get_tag
    simp only [decodeAdt,sumOf]
    rw [if_neg (by simp [ht,hp])]
    refine bind_eq_ok.mpr ⟨tag,Run.ofOption_eq_ok.mpr (by rw [ht]; rfl),?_⟩
    refine bind_eq_ok.mpr ⟨c,Run.ofOption_eq_ok.mpr hc,?_⟩
    refine bind_eq_ok.mpr ⟨payload,Run.ofOption_eq_ok.mpr hp,?_⟩
    exact bind_eq_ok.mpr ⟨w,hu,rfl⟩

end Nominal

end Decoded

end Nefor.Mag
