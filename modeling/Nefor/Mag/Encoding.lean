import Nefor.Lists
import Nefor.Mag.Lowering

/-! Completeness of the provider lowering. Every value of a type is the decoding of a document
of the emitted schema. -/
namespace Nefor.Mag
open Nefor.Json (record exactly arrayOf satisfies)

/-- A document of the emitted schema that decodes to the value. -/
def EncodedAs (s : SchemaType) (schema value document : Json) : Prop :=
  document.wellFormed ∧ satisfies schema document ∧
    ∀ p, decodeProviderValue s document p = .ok value

/-- Every value without violations is encoded by some document. -/
def Encodes (s : SchemaType) : Prop :=
  ∀ path schema, providerSchemaAtPath s path = .ok schema → ∀ m, m.wellFormed →
    Accepts s m → ∃ d, EncodedAs s schema m d

section Items

theorem decodeItems_eq {decode : Json → String → Except Violation Json} {ms ds : List Json}
    (h : List.Forall₂ (fun m d => ∀ p, decode d p = .ok m) ms ds) (path : String) (index : Nat) :
    decodeItems decode path ds index = .ok ms := by
  induction h generalizing index with
  | nil => rfl
  | cons hd _ ih => simp [decodeItems,hd,ih]

/-- Items that are encoded one by one are encoded as an array. -/
theorem encodes_items {item : SchemaType} (hi : Encodes item) {path : String} {schema : Json}
    (hs : providerSchemaAtPath item path = .ok schema) {ms : List Json}
    (hw : ∀ m ∈ ms, m.wellFormed) (hv : ∀ m ∈ ms, Accepts item m) :
    ∃ ds, (Json.array ds).wellFormed ∧ satisfies (arrayOf schema) (.array ds) ∧
      ∀ p, decodeItems (fun v p => decodeProviderValue item v p) p ds 0 = .ok ms := by
  obtain ⟨ds,hds⟩ := exists_forall₂ (R := EncodedAs item schema) fun m hm =>
    hi path schema hs m (hw m hm) (hv m hm)
  obtain ⟨keywords,rfl,_⟩ := providerSchemaAtPath_object hs
  refine ⟨ds,?_,?_,?_⟩
  · exact (Json.wellFormed_array ds).mpr (forall₂_right hds fun _ _ h => h.1)
  · exact (Json.satisfies_arrayOf _ _).mpr ⟨ds,rfl,forall₂_right hds fun _ _ h => h.2.1⟩
  · exact fun p => decodeItems_eq (hds.imp fun _ _ h => h.2.2) p 0

theorem encodes_list {item : SchemaType} (hi : Encodes item) : Encodes (.list item) := by
  intro path schema hs m hw hv
  obtain ⟨itemSchema,his,hs⟩ := bind_eq_ok.mp hs
  cases hs
  obtain ⟨ms,rfl,hms⟩ := (accepts_list hw).mp hv
  obtain ⟨ds,hwf,hsat,hdec⟩ := encodes_items hi his ((Json.wellFormed_array ms).mp hw) hms
  refine ⟨.array ds,hwf,hsat,fun p => ?_⟩
  rw [decodeProviderValue,hdec]
  rfl

theorem encodes_set {item : SchemaType} (hi : Encodes item) : Encodes (.set item) := by
  intro path schema hs m hw hv
  obtain ⟨itemSchema,his,hs⟩ := bind_eq_ok.mp hs
  cases hs
  obtain ⟨ms,rfl,hv,_⟩ := (accepts_set hw).mp hv
  have hwms := (wellFormed_envelope (by decide)).mp hw
  obtain ⟨ds,hwf,hsat,hdec⟩ := encodes_items hi his hwms hv
  refine ⟨.array ds,hwf,hsat,fun p => ?_⟩
  rw [decodeProviderValue,hdec]
  exact congrArg Except.ok (envelope_eq (by decide) ms)

end Items

section Maps

/-- The entry objects of the document, for entries whose parts are encoded. -/
theorem encodes_entry {key value : SchemaType} {keySchema valueSchema k v dk dv : Json}
    (hk : EncodedAs key keySchema k dk) (hv : EncodedAs value valueSchema v dv) :
    (Json.object [("key",dk),("value",dv)]).wellFormed ∧
      satisfies (exactly [("key",keySchema),("value",valueSchema)])
        (.object [("key",dk),("value",dv)]) ∧
      ∀ p, decodeEntry (fun v p => decodeProviderValue key v p)
        (fun v p => decodeProviderValue value v p) (.object [("key",dk),("value",dv)]) p =
          .ok (k,v) := by
  refine ⟨?_,?_,?_⟩
  · refine (Json.wellFormed_object _).mpr ⟨Json.Object.sorted_pair (by decide) _ _,?_⟩
    simpa using ⟨hk.1,hv.1⟩
  · refine (Json.satisfies_exactly (by simp) _).mpr ⟨_,rfl,?_,?_⟩
    · intro name
      simp only [Json.Object.get_cons,Json.Object.get_nil]
      split
      · simp_all
      · split <;> simp_all
    · simp [Json.Object.get_cons,hk.2.1,hv.2.1]
  · intro p
    rw [decodeEntry_eq,hk.2.2,hv.2.2]
    rfl

theorem decodeEntries_eq {decodeKey decodeValue : Json → String → Except Violation Json}
    {pairs : List (Json × Json)} {ds : List Json}
    (h : List.Forall₂ (fun e d => ∀ p, decodeEntry decodeKey decodeValue d p = .ok e) pairs ds)
    (path : String) (index : Nat) :
    decodeEntries decodeKey decodeValue path ds index = .ok (pairs.map mapEntry) := by
  induction h generalizing index with
  | nil => rfl
  | cons hd _ ih => simp [decodeEntries,hd,ih,mapEntry]

/-- Entries with keys of their own are inserted one after the other. -/
theorem decodeStringEntries_eq {decodeKey decodeValue : Json → String → Except Violation Json}
    {entries : List (String × Json)} {ds : List Json}
    (h : List.Forall₂ (fun (e : String × Json) d =>
      ∀ p, decodeEntry decodeKey decodeValue d p = .ok (.string e.1,e.2)) entries ds)
    (hn : (entries.map (·.1)).Nodup) (path : String) (index : Nat) (object : Json.Object)
    (ho : ∀ e ∈ entries, Json.Object.get object e.1 = none) :
    decodeStringEntries decodeKey decodeValue path ds index object =
      .ok (entries.foldl (fun fields e => Json.Object.insert fields e.1 e.2) object) := by
  induction h generalizing index object with
  | nil => rfl
  | @cons e d rest ds hd _ ih =>
    obtain ⟨he,hrest⟩ := List.nodup_cons.mp hn
    have hfree := ho e List.mem_cons_self
    have hrec : ∀ x ∈ rest, Json.Object.get (Json.Object.insert object e.1 e.2) x.1 = none := by
      intro x hx
      have hne : x.1 ≠ e.1 := fun hxe => he (List.mem_map.mpr ⟨x,hx,hxe⟩)
      rw [Json.Object.get_insert,if_neg hne]
      exact ho x (List.mem_cons_of_mem _ hx)
    simp only [decodeStringEntries,hd,ok_bind,hfree]
    exact ih hrest (index+1) _ hrec

/-- A map whose keys are not strings is encoded from its pairs. -/
theorem encodes_pairs {key value : SchemaType} (ihk : Encodes key) (ihv : Encodes value)
    {kp vp : String} {keySchema valueSchema : Json}
    (hks : providerSchemaAtPath key kp = .ok keySchema)
    (hvs : providerSchemaAtPath value vp = .ok valueSchema) {pairs : List (Json × Json)}
    (hw : ∀ e ∈ pairs, e.1.wellFormed ∧ e.2.wellFormed)
    (hv : ∀ e ∈ pairs, Accepts key e.1 ∧ Accepts value e.2) :
    ∃ ds, (Json.array ds).wellFormed ∧
      satisfies (arrayOf (exactly [("key",keySchema),("value",valueSchema)])) (.array ds) ∧
      ∀ p, decodeEntries (fun v p => decodeProviderValue key v p)
        (fun v p => decodeProviderValue value v p) p ds 0 = .ok (pairs.map mapEntry) := by
  obtain ⟨ds,hds⟩ := exists_forall₂ (R := fun (e : Json × Json) (d : Json) => d.wellFormed ∧
      satisfies (exactly [("key",keySchema),("value",valueSchema)]) d ∧
      ∀ p, decodeEntry (fun v p => decodeProviderValue key v p)
        (fun v p => decodeProviderValue value v p) d p = .ok e) fun e he => by
    obtain ⟨hwk,hwv⟩ := hw e he
    obtain ⟨hkv,hvv⟩ := hv e he
    obtain ⟨dk,hdk⟩ := ihk _ _ hks e.1 hwk hkv
    obtain ⟨dv,hdv⟩ := ihv _ _ hvs e.2 hwv hvv
    exact ⟨_,encodes_entry hdk hdv⟩
  refine ⟨ds,?_,?_,?_⟩
  · exact (Json.wellFormed_array ds).mpr (forall₂_right hds fun _ _ h => h.1)
  · exact (Json.satisfies_arrayOf _ _).mpr ⟨ds,rfl,forall₂_right hds fun _ _ h => h.2.1⟩
  · exact fun p => decodeEntries_eq (hds.imp fun _ _ h => h.2.2) p 0

theorem encodes_stringMap {value : SchemaType} (ihv : Encodes value) {vp : String}
    {valueSchema : Json} (hvs : providerSchemaAtPath value vp = .ok valueSchema)
    {entries : Json.Object} (hw : (Json.object entries).wellFormed)
    (hv : ∀ e ∈ entries, Accepts value e.2) :
    ∃ ds, (Json.array ds).wellFormed ∧
      satisfies (arrayOf (exactly [("key",record [("type",.string "string")]),
        ("value",valueSchema)])) (.array ds) ∧
      ∀ p, decodeStringEntries (fun v p => decodeProviderValue .string v p)
        (fun v p => decodeProviderValue value v p) p ds 0 [] = .ok entries := by
  obtain ⟨hsorted,hwf⟩ := (Json.wellFormed_object entries).mp hw
  have hkey : ∀ name, EncodedAs .string (record [("type",.string "string")]) (.string name)
      (.string name) := by
    intro name
    refine ⟨rfl,satisfies_type.mpr rfl,fun p => ?_⟩
    rw [decodeProviderValue]
  obtain ⟨ds,hds⟩ := exists_forall₂ (R := fun (e : String × Json) d => d.wellFormed ∧
      satisfies (exactly [("key",record [("type",.string "string")]),("value",valueSchema)]) d ∧
      ∀ p, decodeEntry (fun v p => decodeProviderValue .string v p)
        (fun v p => decodeProviderValue value v p) d p = .ok (.string e.1,e.2)) fun e he => by
    obtain ⟨dv,hdv⟩ := ihv _ _ hvs e.2 (hwf e he) (hv e he)
    exact ⟨_,encodes_entry (hkey e.1) hdv⟩
  have hn : (entries.map (·.1)).Nodup := (List.pairwise_map.mpr hsorted).imp fun hlt => hlt.ne
  refine ⟨ds,?_,?_,?_⟩
  · exact (Json.wellFormed_array ds).mpr (forall₂_right hds fun _ _ h => h.1)
  · exact (Json.satisfies_arrayOf _ _).mpr ⟨ds,rfl,forall₂_right hds fun _ _ h => h.2.1⟩
  · intro p
    rw [decodeStringEntries_eq (hds.imp fun _ _ h => h.2.2) hn p 0 [] fun _ _ => rfl]
    exact congrArg Except.ok hsorted.ofList

theorem encodes_map {key value : SchemaType} (ihk : Encodes key) (ihv : Encodes value) :
    Encodes (.map key value) := by
  intro path schema hs m hw hv
  obtain ⟨keySchema,hks,hs⟩ := bind_eq_ok.mp hs
  obtain ⟨valueSchema,hvs,hs⟩ := bind_eq_ok.mp hs
  cases hs
  by_cases hstring : isStringKey key
  · obtain rfl := isStringKey_iff.mp hstring
    cases hks
    obtain ⟨entries,rfl,he⟩ := (accepts_stringMap hw).mp hv
    obtain ⟨ds,hwf,hsat,hdec⟩ := encodes_stringMap ihv hvs hw he
    refine ⟨.array ds,hwf,hsat,fun p => ?_⟩
    rw [decodeProviderValue,if_pos hstring,hdec]
    rfl
  · obtain ⟨pairs,rfl,hv,_⟩ := (accepts_map (Bool.eq_false_iff.mpr hstring) hw).mp hv
    have hwp := wellFormed_pairs.mp ((wellFormed_envelope (by decide)).mp hw)
    obtain ⟨ds,hwf,hsat,hdec⟩ := encodes_pairs ihk ihv hks hvs hwp hv
    refine ⟨.array ds,hwf,hsat,fun p => ?_⟩
    rw [decodeProviderValue,if_neg hstring,hdec]
    exact congrArg Except.ok (envelope_eq (by decide) _)

end Maps

section Records

/-- Fields are replaced one by one until the whole value is there. -/
theorem decodeFields_eq {fs : List (String × SchemaType)} (hn : (fs.map (·.1)).Nodup)
    {values entries : Json.Object} (hs : values.Sorted) (he : entries.Sorted)
    (hf : ∀ f ∈ fs, ∃ d m, values.get f.1 = some d ∧ entries.get f.1 = some m ∧
      ∀ p, decodeProviderValue f.2 d p = .ok m)
    (ho : ∀ key, key ∉ fs.map (·.1) → values.get key = entries.get key) (path : String) :
    decodeFields fs values path = .ok entries := by
  induction fs generalizing values with
  | nil =>
    rw [decodeFields,hs.ext he fun key => ho key (by simp)]
  | cons f rest ih =>
    obtain ⟨hfr,hrest⟩ := List.nodup_cons.mp hn
    obtain ⟨d,m,hd,hm,hdec⟩ := hf f List.mem_cons_self
    rw [decodeFields,hd]
    simp only [hdec,ok_bind]
    apply ih hrest (hs.insert f.1 m)
    · intro g hg
      obtain ⟨d',m',hd',hm',hdec'⟩ := hf g (List.mem_cons_of_mem _ hg)
      have hne : g.1 ≠ f.1 := fun h => hfr (List.mem_map.mpr ⟨g,hg,h⟩)
      exact ⟨d',m',by rw [Json.Object.get_insert,if_neg hne,hd'],hm',hdec'⟩
    · intro key hkey
      rw [Json.Object.get_insert]
      split
      · rename_i h; rw [h,hm]
      · rename_i h
        exact ho key (by simp only [List.map_cons,List.mem_cons,not_or]; exact ⟨h,hkey⟩)

/-- The same keys with other values. -/
theorem sorted_of_keys {a b : Json.Object} (h : b.map (·.1) = a.map (·.1)) (ha : a.Sorted) :
    b.Sorted := by
  have hb : (b.map (·.1)).Pairwise (· < ·) := h ▸ List.pairwise_map.mpr ha
  exact List.pairwise_map.mp hb

theorem encodes_fields {fs : List (String × SchemaType)} (hn : (fs.map (·.1)).Nodup)
    (hi : ∀ f ∈ fs, Encodes f.2) : Encodes (.fields fs) := by
  intro path schema hs m hw hv
  obtain ⟨properties,hp,hs⟩ := bind_eq_ok.mp hs
  cases hs
  obtain ⟨entries,rfl,hdeclared,hfields⟩ := (accepts_fields hw).mp hv
  obtain ⟨hsorted,hwf⟩ := (Json.wellFormed_object entries).mp hw
  -- the document has the keys of the value, each with the encoding of its own field
  obtain ⟨values,hvalues⟩ := exists_forall₂ (R := fun e w : String × Json => w.1 = e.1 ∧
      ∃ f ∈ fs, ∃ schema, f.1 = e.1 ∧ (e.1,schema) ∈ properties ∧
        EncodedAs f.2 schema e.2 w.2) fun e he => by
    obtain ⟨f,hf,hfe⟩ := List.mem_map.mp (hdeclared e he)
    obtain ⟨schema,q,hmem,hq⟩ := providerProperties_mem hp hf
    obtain ⟨m,hm,hvalid⟩ := hfields f hf
    have hme : m = e.2 := by
      rw [hfe,hsorted.get he] at hm
      exact (Option.some.inj hm).symm
    obtain ⟨d,hd⟩ := hi f hf q schema hq m (hme ▸ hwf e he) hvalid
    exact ⟨(e.1,d),rfl,f,hf,schema,hfe,hfe ▸ hmem,hme ▸ hd⟩
  have hkeys : values.map (·.1) = entries.map (·.1) := forall₂_names (hvalues.imp fun _ _ h => h.1)
  have hsv := sorted_of_keys hkeys hsorted
  have hnp : (properties.map (·.1)).Nodup := providerProperties_names hp ▸ hn
  refine ⟨.object values,?_,?_,?_⟩
  · exact (Json.wellFormed_object values).mpr ⟨hsv,forall₂_right hvalues
      fun e w ⟨_,f,_,schema,_,_,hd⟩ => hd.1⟩
  · refine (Json.satisfies_exactly hnp _).mpr ⟨values,rfl,?_,?_⟩
    · intro key
      rw [providerProperties_names hp,Json.Object.get_isSome,Json.Object.exists_mem_iff,hkeys]
      constructor
      · intro hk
        obtain ⟨e,he,rfl⟩ := List.mem_map.mp hk
        exact hdeclared e he
      · intro hk
        obtain ⟨f,hf,rfl⟩ := List.mem_map.mp hk
        obtain ⟨m,hm,_⟩ := hfields f hf
        exact List.mem_map.mpr ⟨_,Json.Object.mem_of_get hm,rfl⟩
    · intro e he v hv
      obtain ⟨x,_,hw,f,_,schema,_,hmem,hd⟩ :=
        forall₂_mem hvalues.flip (Json.Object.mem_of_get hv)
      have heq := eq_of_name hnp he hmem hw
      rw [heq]
      exact hd.2.1
  · intro p
    rw [decodeProviderValue,decodeFields_eq hn hsv hsorted]
    · rfl
    · intro f hf
      obtain ⟨m,hm,_⟩ := hfields f hf
      obtain ⟨w,hw,hwk,g,hg,schema,hge,_,hd⟩ :=
        forall₂_mem hvalues (Json.Object.mem_of_get hm)
      obtain rfl := eq_of_name hn hg hf hge
      exact ⟨w.2,m,hwk ▸ hsv.get hw,hm,hd.2.2⟩
    · intro key hkey
      have hnone : ∀ o : Json.Object, o.map (·.1) = entries.map (·.1) → o.get key = none := by
        intro o ho
        refine Json.Object.get_eq_none.mpr fun e he hek => hkey ?_
        have : key ∈ entries.map (·.1) := ho ▸ List.mem_map.mpr ⟨e,he,hek⟩
        obtain ⟨e,he,rfl⟩ := List.mem_map.mp this
        exact hdeclared e he
      rw [hnone values hkeys,hnone entries rfl]

end Records

section Positions

/-- A positional object with the encodings of the positions is used up by decoding them. -/
theorem encodes_positions {cs : List SchemaType} (hi : ∀ c ∈ cs, Encodes c) {path : String}
    {index : Nat} {properties : List (String × Json)}
    (h : providerPositions cs path index = .ok properties) {ms : List Json}
    (hw : ∀ m ∈ ms, m.wellFormed) (hv : List.Forall₂ Accepts cs ms) :
    ∃ ds : List (String × Json), List.Forall₂ (fun e d : String × Json => d.1 = e.1 ∧
        d.2.wellFormed ∧ satisfies e.2 d.2) properties ds ∧
      ∀ fields : Json.Object, (∀ key, fields.get key = ds.lookup key) →
        ∀ p, decodePositions cs fields p index = .ok (ms,[]) := by
  induction cs generalizing index properties ms with
  | nil =>
    cases h
    cases hv
    refine ⟨[],.nil,fun fields hf p => ?_⟩
    cases fields with
    | nil => rw [decodePositions]
    | cons e rest => have := hf e.1; simp [Json.Object.get_cons] at this
  | cons c rest ih =>
    obtain ⟨schema,hs,h⟩ := bind_eq_ok.mp h
    obtain ⟨others,ho,h⟩ := bind_eq_ok.mp h
    cases h
    cases hv with
    | @cons _ m _ ms hm hms =>
      obtain ⟨hwm,hwms⟩ := List.forall_mem_cons.mp hw
      obtain ⟨d,hwf,hsat,hdec⟩ := hi c List.mem_cons_self _ schema hs m hwm hm
      obtain ⟨ds,hds,hrest⟩ := ih (fun c hc => hi c (List.mem_cons_of_mem _ hc)) ho hwms hms
      have hfresh : ds.lookup (toString index) = none := by
        refine Json.Object.get_eq_none.mpr fun e he hek => ?_
        apply providerPositions_fresh ho
        rw [← forall₂_names (hds.imp fun _ _ h => h.1)]
        exact List.mem_map.mpr ⟨e,he,hek⟩
      refine ⟨(toString index,d) :: ds,.cons ⟨rfl,hwf,hsat⟩ hds,fun fields hf p => ?_⟩
      have hget : fields.get (toString index) = some d := by rw [hf,List.lookup_cons_self]
      rw [decodePositions,hget]
      simp only [hdec,ok_bind]
      rw [hrest]
      · rfl
      · intro key
        rw [Json.Object.get_erase,hf]
        split
        · rename_i hk; rw [hk,hfresh]
        · rename_i hk; rw [List.lookup_cons,beq_eq_false_iff_ne.mpr hk]

theorem encodes_product {cs : List SchemaType} (hi : ∀ c ∈ cs, Encodes c) :
    Encodes (.product cs) := by
  intro path schema hs m hw hv
  obtain ⟨properties,hp,hs⟩ := bind_eq_ok.mp hs
  cases hs
  obtain ⟨ms,rfl,hms⟩ := (accepts_product hw).mp hv
  obtain ⟨ds,hds,hdec⟩ := encodes_positions hi hp ((Json.wellFormed_array ms).mp hw) hms
  have hnames := forall₂_names (hds.imp fun _ _ h => h.1)
  have hnp := providerPositions_nodup hp
  have hnd : (ds.map (·.1)).Nodup := hnames ▸ hnp
  refine ⟨record ds,?_,?_,fun p => ?_⟩
  · refine (Json.wellFormed_object _).mpr ⟨Json.Object.ofList_sorted ds,?_⟩
    intro e he
    exact forall₂_right hds (fun _ _ h => h.2.1) e ((Json.Object.mem_ofList hnd).mp he)
  · refine (Json.satisfies_exactly hnp _).mpr ⟨_,rfl,?_,?_⟩
    · intro key
      rw [Json.Object.get_isSome,← hnames,← Json.Object.exists_mem_iff]
      simp only [Json.Object.mem_ofList hnd]
    · intro e he v hv
      have hmem := (Json.Object.mem_ofList hnd).mp (Json.Object.mem_of_get hv)
      obtain ⟨x,hx,hxe,_,hsat⟩ := forall₂_mem hds.flip hmem
      obtain rfl := eq_of_name hnp he hx hxe
      exact hsat
  · rw [record,decodeProviderValue,hdec _ (Json.Object.get_ofList hnd)]
    rfl

end Positions

section Sums

theorem providerOptions_member {ms : List (String × SchemaType)} {tagKey path : String}
    {options : List Json} (h : providerOptions ms tagKey path = .ok options)
    {m : String × SchemaType} (hm : m ∈ ms) :
    ∃ schema p, providerSchemaAtPath m.2 p = .ok schema ∧
      exactly [(tagKey,record [("type",.string "string"),("enum",.array [.string m.1])]),
        ("value",schema)] ∈ options := by
  induction ms generalizing options with
  | nil => cases hm
  | cons n rest ih =>
    obtain ⟨value,hval,h⟩ := bind_eq_ok.mp h
    obtain ⟨others,ho,h⟩ := bind_eq_ok.mp h
    cases h
    rcases List.mem_cons.mp hm with rfl | hm
    · exact ⟨value,_,hval,List.mem_cons_self⟩
    · obtain ⟨schema,p,hp,hmem⟩ := ih ho hm
      exact ⟨schema,p,hp,List.mem_cons_of_mem _ hmem⟩

/-- A valid sum is encoded by one of the options. -/
theorem encodes_sum {ms : List (String × SchemaType)} {wire : SumWire}
    (hi : ∀ m ∈ ms, Encodes m.2) (hlt : wire.tagKey < "value") {path : String}
    {options : List Json} (h : providerOptions ms wire.tagKey path = .ok options) {tag : String}
    {s : SchemaType} {payload : Json} (hw : (sumOf wire tag payload).wellFormed)
    (hs : ms.lookup tag = some s) (hv : Accepts s payload) :
    ∃ d, d.wellFormed ∧ (∃ v ∈ options, satisfies v d) ∧
      ∀ label p, decodeSum ms wire.tagKey label d p = .ok (sumOf wire tag payload) := by
  have hm := mem_of_lookup hs
  obtain ⟨schema,q,hq,hmem⟩ := providerOptions_member h hm
  obtain ⟨d,hdw,hds,hdd⟩ := hi _ hm q schema hq payload ((wellFormed_sumOf hlt).mp hw) hv
  have hne := hlt.ne
  refine ⟨sumOf wire tag d,(wellFormed_sumOf hlt).mpr hdw,⟨_,hmem,?_⟩,fun label p => ?_⟩
  · refine (Json.satisfies_exactly (by simpa using hne) _).mpr ⟨_,rfl,?_,?_⟩
    · intro key
      simp only [Json.Object.get_cons,Json.Object.get_nil]
      split
      · simp_all
      · split <;> simp_all
    · simp [Json.Object.get_cons,hne.symm,satisfies_tag,hds]
  · rw [decodeSum_sumOf hlt hs,hdd]
    rfl

end Sums

section Completeness

theorem encodes_int : Encodes .int := by
  intro path schema hs m _ hv
  cases hs
  have hv := accepts_int.mp hv
  cases m with
  | number n =>
    obtain ⟨i,hi⟩ := Option.isSome_iff_exists.mp hv
    refine ⟨.number n,rfl,?_,fun p => ?_⟩
    · have hr := JsonNumber.toRat_of_asI64 hi
      refine satisfies_range.mpr ⟨by simp [Json.hasType,hr],?_⟩
      rintro n' hn'
      cases hn'
      rw [toRat_ofI64,toRat_ofI64,hr]
      exact ⟨by exact_mod_cast Int64.minValue_le_toInt i,by exact_mod_cast i.toInt_le⟩
    · simp only [decodeProviderValue]
      exact if_pos hv
  | _ => cases hv

theorem encodes_float : Encodes .float := by
  intro path schema hs m _ hv
  cases hs
  have hv := accepts_float.mp hv
  cases m with
  | number n =>
    refine ⟨.number n,rfl,?_,fun p => by rw [decodeProviderValue]⟩
    refine satisfies_range.mpr ⟨by simp [Json.hasType],?_⟩
    rintro n' hn'
    cases hn'
    exact JsonNumber.toRat_mem n
  | _ => cases hv

/-- Every accepted value has a document of the emitted schema. -/
theorem encodes (s : SchemaType) (hd : s.Distinct) : Encodes s := by
  induction s with
  | jsonValue => intro path schema hs; cases hs
  | int => exact encodes_int
  | float => exact encodes_float
  | unit =>
    intro path schema hs m hw hv
    cases hs
    obtain rfl := accepts_unit.mp hv
    exact ⟨.null,hw,satisfies_type.mpr rfl,fun p => by rw [decodeProviderValue]⟩
  | bool =>
    intro path schema hs m hw hv
    cases hs
    obtain ⟨b,rfl⟩ := accepts_bool.mp hv
    exact ⟨.bool b,hw,satisfies_type.mpr rfl,fun p => by rw [decodeProviderValue]⟩
  | string =>
    intro path schema hs m hw hv
    cases hs
    obtain ⟨t,rfl⟩ := accepts_string.mp hv
    exact ⟨.string t,hw,satisfies_type.mpr rfl,fun p => by rw [decodeProviderValue]⟩
  | list item ih => exact encodes_list (ih hd)
  | set item ih => exact encodes_set (ih hd)
  | map key value ihk ihv => exact encodes_map (ihk hd.1) (ihv hd.2)
  | fields fs ih =>
    exact encodes_fields hd.1 fun f hf => ih f hf ((SchemaType.distinctMembers_iff fs).mp hd.2 f hf)
  | union vs ih =>
    intro path schema hs m hw hv
    obtain ⟨options,ho,hs⟩ := bind_eq_ok.mp hs
    cases hs
    obtain ⟨tag,s,payload,rfl,hlookup,hv⟩ := (accepts_union hw).mp hv
    obtain ⟨d,hwf,hsat,hdec⟩ := encodes_sum
      (fun m hm => ih m hm ((SchemaType.distinctMembers_iff vs).mp hd.2 m hm)) (by decide) ho hw
      hlookup hv
    exact ⟨d,hwf,satisfies_anyOf.mpr hsat,fun p => by rw [decodeProviderValue,hdec]⟩
  | adt name owner cs ih =>
    intro path schema hs m hw hv
    obtain ⟨options,ho,hs⟩ := bind_eq_ok.mp hs
    cases hs
    obtain ⟨tag,s,payload,rfl,hlookup,hv⟩ := (accepts_adt hw).mp hv
    obtain ⟨d,hwf,hsat,hdec⟩ := encodes_sum
      (fun m hm => ih m hm ((SchemaType.distinctMembers_iff cs).mp hd.2 m hm)) (by decide) ho hw
      hlookup hv
    exact ⟨d,hwf,satisfies_titledAnyOf.mpr hsat,fun p => by rw [decodeProviderValue,hdec]⟩
  | product cs ih =>
    exact encodes_product fun c hc => ih c hc ((SchemaType.distinctAll_iff cs).mp hd c hc)
  | named name body ih =>
    intro path schema hs m hw hv
    obtain ⟨value,hvalue,hs⟩ := bind_eq_ok.mp hs
    obtain ⟨keywords,rfl,hsorted⟩ := providerSchemaAtPath_object hvalue
    cases hs
    obtain ⟨d,hwf,hsat,hdec⟩ := ih hd _ _ hvalue m hw (accepts_named.mp hv)
    exact ⟨d,hwf,(Json.satisfies_title hsorted _ d).mpr hsat,
      fun p => by rw [decodeProviderValue,hdec]⟩

end Completeness

section Root

theorem satisfies_envelope {schema x : Json} (hx : x.wellFormed) :
    satisfies (exactly [("value",schema)]) x ↔
      ∃ v, x = .object [("value",v)] ∧ satisfies schema v := by
  rw [Json.satisfies_exactly (by simp)]
  constructor
  · rintro ⟨fields,rfl,hk,hv⟩
    obtain ⟨hsorted,_⟩ := (Json.wellFormed_object fields).mp hx
    obtain ⟨v,hget⟩ := Option.isSome_iff_exists.mp ((hk "value").mpr (by simp))
    have hf : fields = [("value",v)] := by
      refine hsorted.ext (List.pairwise_singleton _ _) fun key => ?_
      rw [Json.Object.get_cons,Json.Object.get_nil]
      split
      · rename_i h; rw [h,hget]
      · rename_i h
        exact Option.not_isSome_iff_eq_none.mp fun hs => h (by simpa using (hk key).mp hs)
    exact ⟨v,by rw [hf],hv _ List.mem_cons_self v hget⟩
  · rintro ⟨v,rfl,hv⟩
    refine ⟨_,rfl,fun key => ?_,?_⟩
    · rw [Json.Object.get_cons,Json.Object.get_nil]
      split <;> simp_all
    · simpa [Json.Object.get_cons] using hv

/-- The only reason to refuse is a repeated set item or map key. -/
def JsonValidation.AcceptedOrDuplicate (r : JsonValidation) : Prop :=
  r.ok ∨ (r.error = none ∧ r.violations ≠ [] ∧ ∀ v ∈ r.violations, v.IsDuplicate)

theorem validateValue_ok {schema : TypeSchema} (hv : schema.version = schemaVersion) (m : Json) :
    schema.validateValue m = {
      ok := (validateAt schema.root m "$").isEmpty
      value := if (validateAt schema.root m "$").isEmpty then some m else none
      violations := validateAt schema.root m "$" } := by
  rw [TypeSchema.validateValue,if_neg (not_not.mpr hv)]

theorem validateProviderJson_envelope {parse : String → Except String Json.Document}
    {schema : TypeSchema} {source : String} {d : Json.Document} (hp : parse source = .ok d)
    {ps : Json} (hs : schema.toProviderSchema = .ok ps) {encoded : Json}
    (hd : d.1 = .object [("value",encoded)]) :
    schema.validateProviderJson parse source =
      match decodeProviderValue schema.root encoded "$" with
      | .ok decoded => schema.validateValue decoded
      | .error violation => failedWith violation := by
  rw [TypeSchema.validateProviderJson,hp]
  cases hv : decodeProviderValue schema.root encoded "$" with
  | ok decoded => simp only [hs,hd,hv]
  | error violation => simp only [hs,hd,hv]

theorem accepted_of_satisfies {schema : TypeSchema} (hv : schema.version = schemaVersion)
    (hd : schema.root.Distinct) {ps : Json} (hs : schema.toProviderSchema = .ok ps)
    {parse : String → Except String Json.Document} {source : String} {d : Json.Document}
    (hp : parse source = .ok d) (hsat : satisfies ps d.1) :
    (schema.validateProviderJson parse source).AcceptedOrDuplicate := by
  obtain ⟨value,hvalue,hs'⟩ := bind_eq_ok.mp hs
  cases hs'
  obtain ⟨encoded,hde,hsat⟩ := (satisfies_envelope d.2).mp hsat
  have hw : encoded.wellFormed :=
    ((Json.wellFormed_object _).mp (hde ▸ d.2)).2 ("value",encoded) (by simp)
  have hout := lowers schema.root hd _ _ hvalue encoded hw hsat "$"
  rw [validateProviderJson_envelope hp hs hde]
  cases hdec : decodeProviderValue schema.root encoded "$" with
  | error violation =>
    rw [hdec] at hout
    refine .inr ⟨rfl,by simp [failedWith],fun v hv => ?_⟩
    obtain rfl := List.mem_singleton.mp hv
    exact hout
  | ok decoded =>
    rw [hdec] at hout
    simp only [validateValue_ok hv]
    cases hviol : validateAt schema.root decoded "$" with
    | nil => exact .inl rfl
    | cons violation rest => exact .inr ⟨rfl,List.cons_ne_nil _ _,hviol ▸ hout "$"⟩

theorem encoded_of_valid {schema : TypeSchema} (hv : schema.version = schemaVersion)
    (hd : schema.root.Distinct) {ps : Json} (hs : schema.toProviderSchema = .ok ps)
    {m : Json.Document} (hm : (schema.validateValue m.1).ok) :
    ∃ d : Json.Document, satisfies ps d.1 ∧ ∀ parse source, parse source = .ok d →
      schema.validateProviderJson parse source = { ok := true, value := some m.1 } := by
  obtain ⟨value,hvalue,hs'⟩ := bind_eq_ok.mp hs
  cases hs'
  rw [validateValue_ok hv] at hm
  have hnil := List.isEmpty_iff.mp hm
  obtain ⟨d,hwf,hsat,hdec⟩ := encodes schema.root hd _ _ hvalue m.1 m.2 ((accepts_iff m.2).mpr hnil)
  have hwd : (Json.object [("value",d)]).wellFormed :=
    (Json.wellFormed_object _).mpr ⟨List.pairwise_singleton _ _,by simpa using hwf⟩
  refine ⟨⟨_,hwd⟩,(satisfies_envelope hwd).mpr ⟨d,rfl,hsat⟩,fun parse source hp => ?_⟩
  rw [validateProviderJson_envelope hp hs rfl,hdec]
  simp [validateValue_ok hv,hnil]

/-- The lowering fails only for a `JsonValue`; otherwise documents of the emitted schema are
accepted up to repetitions, and every accepted value is the reading of one of them. -/
theorem toProviderSchema_faithful (schema : TypeSchema) :
    ((∃ e, schema.toProviderSchema = .error e) ↔ schema.root.hasJsonValue) ∧
    (schema.version = schemaVersion → schema.root.Distinct →
      ∀ ps, schema.toProviderSchema = .ok ps →
        (∀ parse source (d : Json.Document), parse source = .ok d → satisfies ps d.1 →
          (schema.validateProviderJson parse source).AcceptedOrDuplicate) ∧
        ∀ m : Json.Document, (schema.validateValue m.1).ok →
          ∃ d : Json.Document, satisfies ps d.1 ∧ ∀ parse source, parse source = .ok d →
            schema.validateProviderJson parse source = { ok := true, value := some m.1 }) := by
  refine ⟨?_,?_⟩
  · have hok := providerSchemaAtPath_ok schema.root "$"
    rw [TypeSchema.toProviderSchema]
    cases h : providerSchemaAtPath schema.root "$" with
    | ok value =>
      have := hok.mp ⟨value,h⟩
      simp [this]
    | error e =>
      have hno : schema.root.hasJsonValue ≠ false := fun hf => by
        obtain ⟨value,hvalue⟩ := hok.mpr hf
        rw [h] at hvalue
        cases hvalue
      simpa using hno
  · intro hv hd ps hs
    exact ⟨fun parse source d hp hsat => accepted_of_satisfies hv hd hs hp hsat,
      fun m hm => encoded_of_valid hv hd hs hm⟩

/-- A reply of a flag and a set of tags. -/
def replySchema : TypeSchema :=
  ⟨schemaVersion,.named "Reply" (.fields [("done",.bool),("tags",.set .string)])⟩

def replyTags : Json := .object [("$mag",.string "set"),("items",.array [.string "a",.string "b"])]

theorem replyTags_valid (path : String) : validateAt (.set .string) replyTags path = [] := by
  have hwire : exactWireArray replyTags "set" "items" path = .ok [.string "a",.string "b"] := rfl
  have hsame : semanticJsonEqual .string (.string "a") (.string "b") = false := by
    rw [semanticJsonEqual,jsonEqual]; rfl
  have hitem : ∀ t p, validateAt .string (.string t) p = [] := fun t p => by rw [validateAt]; rfl
  rw [validateAt,validateSet,hwire]
  simp [hitem,hsame]

def replyValue : Json.Document :=
  ⟨.object [("done",.bool true),("tags",replyTags)],by decide⟩

theorem replySchema_faithful : ∃ ps, replySchema.toProviderSchema = .ok ps ∧
    ∃ d : Json.Document, satisfies ps d.1 ∧
      replySchema.validateProviderJson (fun _ => .ok d) "" =
        { ok := true, value := some replyValue.1 } := by
  have h := toProviderSchema_faithful replySchema
  obtain ⟨ps,hps⟩ : ∃ ps, replySchema.toProviderSchema = .ok ps := ⟨_,rfl⟩
  have hd : replySchema.root.Distinct := by
    simp [replySchema,SchemaType.Distinct,SchemaType.Distinct.distinctMembers]
  have hm : (replySchema.validateValue replyValue.1).ok := by
    have hdone : Json.Object.get [("done",.bool true),("tags",replyTags)] "done" =
        some (.bool true) := rfl
    have htags : Json.Object.get [("done",.bool true),("tags",replyTags)] "tags" =
        some replyTags := rfl
    rw [validateValue_ok rfl,replySchema,replyValue]
    simp only [validateAt,validateFields,hdone,htags,replyTags_valid,expect]
    rfl
  obtain ⟨d,hd,hread⟩ := (h.2 rfl hd ps hps).2 replyValue hm
  exact ⟨ps,hps,d,hd,hread _ _ rfl⟩

end Root

end Nefor.Mag
