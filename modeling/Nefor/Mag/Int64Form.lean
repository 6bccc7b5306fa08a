import Nefor.Mag.Validation

/-! The form that integers take once they are read: a double that is an integer counts as one. -/
namespace Nefor.Mag

/-- Rewrite the items of an envelope. -/
def onItems (field : String) (f : Json → Json) : Json → Json
  | .object fields => .object (fields.map fun e => (e.1,
      if e.1 = field then match e.2 with
        | .array items => .array (items.map f)
        | other => other
      else e.2))
  | other => other

/-- Rewrite the payload of a sum by its tag. -/
def onPayload (tagKey : String) (f : String → Json → Json) : Json → Json
  | .object fields => .object (match (Json.Object.get fields tagKey).bind Json.asStr with
    | some tag => fields.map fun e => (e.1,if e.1 = "value" then f tag e.2 else e.2)
    | none => fields)
  | other => other

mutual
/-- The document with every number at an `Int` position in its 64-bit form. -/
def i64Form : SchemaType → Json → Json
  | .named _ body, value => i64Form body value
  | .int, value => match value with
    | .number n => match jsonNumberToI64 n with
      | some i => .number (.ofI64 i)
      | none => value
    | _ => value
  | .list item, value => match value with
    | .array items => .array (items.map fun x => i64Form item x)
    | _ => value
  | .set item, value => onItems "items" (fun x => i64Form item x) value
  | .map key item, value =>
    if isStringKey key then match value with
      | .object entries => .object (entries.map fun e => (e.1,i64Form item e.2))
      | _ => value
    else onItems "entries" (fun e => match e with
      | .array [k,v] => .array [i64Form key k,i64Form item v]
      | _ => e) value
  | .fields fs, value => match value with
    | .object entries => .object (entries.map fun e => (e.1,i64Member fs e.1 e.2))
    | _ => value
  | .union variants, value =>
    onPayload unionWire.tagKey (fun tag payload => i64Member variants tag payload) value
  | .adt _ _ constructors, value =>
    onPayload adtWire.tagKey (fun tag payload => i64Member constructors tag payload) value
  | .product components, value => match value with
    | .array values => .array (i64Positions components values)
    | _ => value
  | _, value => value
/-- Rewrite what is at the first member of that name. -/
def i64Member : List (String × SchemaType) → String → Json → Json
  | [], _, value => value
  | (name,s) :: rest, key, value => if name = key then i64Form s value else i64Member rest key value
def i64Positions : List SchemaType → List Json → List Json
  | s :: rest, value :: values => i64Form s value :: i64Positions rest values
  | _, values => values
end

theorem i64Member_eq (ms : List (String × SchemaType)) (key : String) (value : Json) :
    i64Member ms key value = match ms.lookup key with
      | some s => i64Form s value
      | none => value := by
  induction ms with
  | nil => simp [i64Member]
  | cons m rest ih =>
    obtain ⟨name,s⟩ := m
    rw [i64Member]
    by_cases hn : name = key
    · rw [if_pos hn,hn,List.lookup_cons_self]
    · rw [if_neg hn,ih,List.lookup_cons,beq_eq_false_iff_ne.mpr (Ne.symm hn)]

theorem onItems_envelope {tag field : String} (h : "$mag" < field) (f : Json → Json)
    (items : List Json) : onItems field f (envelope tag field items) =
      envelope tag field (items.map f) := by
  simp [onItems,envelope,h.ne]

theorem onPayload_sumOf {wire : SumWire} (h : wire.tagKey < "value") (f : String → Json → Json)
    (tag : String) (payload : Json) : onPayload wire.tagKey f (sumOf wire tag payload) =
      sumOf wire tag (f tag payload) := by
  simp [onPayload,sumOf,get_tag,Json.asStr,h.ne]

/-- Rewriting the values of an object keeps its keys in order. -/
theorem sorted_map {fields : Json.Object} (h : fields.Sorted) (f : String × Json → Json) :
    Json.Object.Sorted (fields.map fun e => (e.1,f e)) :=
  List.pairwise_map.mpr h

theorem get_map (fields : Json.Object) (f : String → Json → Json) (key : String) :
    Json.Object.get (fields.map fun e => (e.1,f e.1 e.2)) key =
      (fields.get key).map fun v => f key v := by
  induction fields with
  | nil => rfl
  | cons e rest ih =>
    rw [List.map_cons,Json.Object.get_cons,Json.Object.get_cons,ih]
    by_cases hk : key = e.1
    · rw [if_pos hk,if_pos hk,hk]; rfl
    · rw [if_neg hk,if_neg hk]

theorem onItems_wellFormed {field : String} {f : Json → Json} {j : Json} (hw : j.wellFormed)
    (hf : ∀ x, x.wellFormed → (f x).wellFormed) : (onItems field f j).wellFormed := by
  cases j with
  | object fields =>
    obtain ⟨hs,hw⟩ := (Json.wellFormed_object fields).mp hw
    refine (Json.wellFormed_object _).mpr ⟨sorted_map hs _,?_⟩
    intro e he
    obtain ⟨x,hx,rfl⟩ := List.mem_map.mp he
    have hwe := hw x hx
    dsimp only
    split
    · split
      · rename_i items hitems
        rw [hitems,Json.wellFormed_array] at hwe
        exact (Json.wellFormed_array _).mpr (List.forall_mem_map.mpr fun x hx => hf x (hwe x hx))
      · exact hwe
    · exact hwe
  | _ => exact hw

theorem onPayload_wellFormed {tagKey : String} {f : String → Json → Json} {j : Json}
    (hw : j.wellFormed) (hf : ∀ tag x, x.wellFormed → (f tag x).wellFormed) :
    (onPayload tagKey f j).wellFormed := by
  cases j with
  | object fields =>
    obtain ⟨hs,hwf⟩ := (Json.wellFormed_object fields).mp hw
    simp only [onPayload]
    split
    · refine (Json.wellFormed_object _).mpr ⟨sorted_map hs _,?_⟩
      intro e he
      obtain ⟨x,hx,rfl⟩ := List.mem_map.mp he
      dsimp only
      split
      · exact hf _ _ (hwf x hx)
      · exact hwf x hx
    · exact hw
  | _ => exact hw

theorem i64Member_wellFormed {ms : List (String × SchemaType)}
    (h : ∀ m ∈ ms, ∀ x : Json, x.wellFormed → (i64Form m.2 x).wellFormed) (key : String) {x : Json}
    (hx : x.wellFormed) : (i64Member ms key x).wellFormed := by
  rw [i64Member_eq]
  cases hs : ms.lookup key with
  | none => exact hx
  | some s => exact h _ (mem_of_lookup hs) x hx

theorem i64Form_wellFormed (s : SchemaType) {j : Json} (hw : j.wellFormed) :
    (i64Form s j).wellFormed := by
  induction s generalizing j with
  | int =>
    rw [i64Form.eq_def]
    dsimp only
    split
    · split
      · rfl
      · rfl
    · exact hw
  | list item ih =>
    rw [i64Form.eq_def]
    dsimp only
    split
    · have hw := (Json.wellFormed_array _).mp hw
      exact (Json.wellFormed_array _).mpr (List.forall_mem_map.mpr fun x hx => ih (hw x hx))
    · exact hw
  | set item ih => rw [i64Form]; exact onItems_wellFormed hw fun x hx => ih hx
  | map key item ihk ihv =>
    rw [i64Form.eq_def]
    dsimp only
    split
    · split
      · obtain ⟨hs,hw⟩ := (Json.wellFormed_object _).mp hw
        refine (Json.wellFormed_object _).mpr ⟨sorted_map hs _,?_⟩
        exact List.forall_mem_map.mpr fun e he => ihv (hw e he)
      · exact hw
    · refine onItems_wellFormed hw fun x hx => ?_
      split
      · simp only [Json.wellFormed_array,List.mem_cons,List.not_mem_nil,or_false,
          forall_eq_or_imp,forall_eq] at hx ⊢
        exact ⟨ihk hx.1,ihv hx.2⟩
      · exact hx
  | fields fs ih =>
    rw [i64Form.eq_def]
    dsimp only
    split
    · obtain ⟨hs,hw⟩ := (Json.wellFormed_object _).mp hw
      refine (Json.wellFormed_object _).mpr ⟨sorted_map hs _,?_⟩
      exact List.forall_mem_map.mpr fun e he =>
        i64Member_wellFormed (fun m hm x hx => ih m hm hx) _ (hw e he)
    · exact hw
  | union vs ih =>
    rw [i64Form]
    exact onPayload_wellFormed hw fun tag x hx =>
      i64Member_wellFormed (fun m hm x hx => ih m hm hx) tag hx
  | adt name owner cs ih =>
    rw [i64Form]
    exact onPayload_wellFormed hw fun tag x hx =>
      i64Member_wellFormed (fun m hm x hx => ih m hm hx) tag hx
  | product cs ih =>
    rw [i64Form.eq_def]
    dsimp only
    split
    · rename_i values
      have hw := (Json.wellFormed_array _).mp hw
      refine (Json.wellFormed_array _).mpr ?_
      clear * - ih hw
      induction cs generalizing values with
      | nil => rw [i64Positions]; exact hw; intros; contradiction
      | cons c rest ihc =>
        cases values with
        | nil => rw [i64Positions]; exact hw; intros; contradiction
        | cons v vs =>
          rw [i64Positions]
          obtain ⟨hv,hvs⟩ := List.forall_mem_cons.mp hw
          refine List.forall_mem_cons.mpr ⟨ih c List.mem_cons_self hv,?_⟩
          exact ihc (fun c hc => ih c (List.mem_cons_of_mem _ hc)) vs hvs
    · exact hw
  | named name body ih => rw [i64Form]; exact ih hw
  | _ => simpa [i64Form] using hw

/-- An accepted document has its integers in their 64-bit form already. -/
theorem i64Form_of_accepts (s : SchemaType) {j : Json} (hw : j.wellFormed) (h : Accepts s j) :
    i64Form s j = j := by
  induction s generalizing j with
  | int =>
    have h := accepts_int.mp h
    cases j with
    | number n =>
      obtain ⟨i,hi⟩ := Option.isSome_iff_exists.mp h
      have hn : jsonNumberToI64 n = some i := by
        rw [jsonNumberToI64,show n.asI64 = some i from hi]; rfl
      simp only [i64Form,hn]
      rw [← JsonNumber.eq_ofI64 hi]
    | _ => cases h
  | list item ih =>
    obtain ⟨items,rfl,hitems⟩ := (accepts_list hw).mp h
    have hwf := (Json.wellFormed_array items).mp hw
    rw [i64Form,List.map_congr_left fun x hx => ih (hwf x hx) (hitems x hx),List.map_id']
  | set item ih =>
    obtain ⟨items,rfl,hitems,_⟩ := (accepts_set hw).mp h
    have hwf := (wellFormed_envelope (by decide)).mp hw
    rw [i64Form,onItems_envelope (by decide),
      List.map_congr_left fun x hx => ih (hwf x hx) (hitems x hx),List.map_id']
  | map key item ihk ihv =>
    by_cases hk : isStringKey key
    · obtain rfl := isStringKey_iff.mp hk
      obtain ⟨entries,rfl,hentries⟩ := (accepts_stringMap hw).mp h
      obtain ⟨_,hwf⟩ := (Json.wellFormed_object entries).mp hw
      rw [i64Form.eq_def]
      simp only [hk,if_true]
      rw [List.map_congr_left (g := id) fun e he => ?_,List.map_id]
      exact Prod.ext rfl (ihv (hwf e he) (hentries e he))
    · obtain ⟨pairs,rfl,hpairs,_⟩ := (accepts_map (Bool.eq_false_iff.mpr hk) hw).mp h
      have hwf := wellFormed_pairs.mp ((wellFormed_envelope (by decide)).mp hw)
      rw [i64Form.eq_def]
      simp only [hk]
      rw [if_neg (by simp),onItems_envelope (by decide),List.map_map]
      congr 1
      refine List.map_congr_left fun e he => ?_
      obtain ⟨hwk,hwv⟩ := hwf e he
      obtain ⟨hak,hav⟩ := hpairs e he
      simp only [Function.comp_apply,mapEntry]
      rw [ihk hwk hak,ihv hwv hav]
  | fields fs ih =>
    obtain ⟨entries,rfl,_,hfields⟩ := (accepts_fields hw).mp h
    obtain ⟨hsorted,hwf⟩ := (Json.wellFormed_object entries).mp hw
    rw [i64Form,List.map_congr_left (g := id) fun e he => ?_,List.map_id]
    refine Prod.ext rfl ?_
    simp only [i64Member_eq,id]
    cases hs : fs.lookup e.1 with
    | none => rfl
    | some s =>
      obtain ⟨m,hm,ha⟩ := hfields _ (mem_of_lookup hs)
      rw [hsorted.get he] at hm
      cases hm
      exact ih _ (mem_of_lookup hs) (hwf e he) ha
  | union vs ih =>
    obtain ⟨tag,s,payload,rfl,hs,ha⟩ := (accepts_union hw).mp h
    have hwp := (wellFormed_sumOf (by decide)).mp hw
    rw [i64Form,onPayload_sumOf (by decide),i64Member_eq,hs]
    exact congrArg _ (ih _ (mem_of_lookup hs) hwp ha)
  | adt name owner cs ih =>
    obtain ⟨tag,s,payload,rfl,hs,ha⟩ := (accepts_adt hw).mp h
    have hwp := (wellFormed_sumOf (by decide)).mp hw
    rw [i64Form,onPayload_sumOf (by decide),i64Member_eq,hs]
    exact congrArg _ (ih _ (mem_of_lookup hs) hwp ha)
  | product cs ih =>
    obtain ⟨values,rfl,hvs⟩ := (accepts_product hw).mp h
    have hwf := (Json.wellFormed_array values).mp hw
    rw [i64Form]
    congr 1
    clear * - ih hwf hvs
    induction hvs with
    | nil => rw [i64Positions]; intros; contradiction
    | cons hv _ ihc =>
      obtain ⟨hwv,hwvs⟩ := List.forall_mem_cons.mp hwf
      rw [i64Positions,ih _ List.mem_cons_self hwv hv,
        ihc (fun c hc => ih c (List.mem_cons_of_mem _ hc)) hwvs]
  | named name body ih => rw [i64Form]; exact ih hw (accepts_named.mp h)
  | _ => simp [i64Form]

end Nefor.Mag
