import Nefor.Except
import Nefor.Protocol.Envelope

/-! Which envelopes are read back from their lines as they were. -/
namespace Nefor.Protocol
open Json (Object OneLine)

/-! Equality of the program, which compares stamps as instants. -/

def Offending.eq (a b : Offending) : Prop := a.sender = b.sender ∧ a.ts.eq b.ts

def SystemBody.eq : SystemBody → SystemBody → Prop
  | .error code message (some o), .error code' message' (some o') =>
    code = code' ∧ message = message' ∧ o.eq o'
  | a, b => a = b

def Body.eq : Body → Body → Prop
  | .system a, .system b => a.eq b
  | a, b => a = b

def Envelope.eq (a b : Envelope) : Prop :=
  a.kind = b.kind ∧ a.sender = b.sender ∧ a.ts.eq b.ts ∧ a.body.eq b.body

def PluginOutgoing.eq (a b : PluginOutgoing) : Prop := a.kind = b.kind ∧ a.body.eq b.body

/-! The stamps of an envelope. -/

def SystemBody.timestamps : SystemBody → List Timestamp
  | .error _ _ (some o) => [o.ts]
  | _ => []

def Body.timestamps : Body → List Timestamp
  | .system body => body.timestamps
  | .event _ => []

def Envelope.timestamps (e : Envelope) : List Timestamp := e.ts :: e.body.timestamps

namespace Timestamp

/-- The stamp whose text is the same, read at UTC. -/
def utc (t : Timestamp) : Timestamp := ⟨t.dt.assumeUtc,t.millisecond⟩

/-- The year is not before the year zero. -/
def Common (t : Timestamp) : Prop := 0 ≤ t.dt.year

def Utc (t : Timestamp) : Prop := t.dt.offset = 0

instance (t : Timestamp) : Decidable t.Common := inferInstanceAs (Decidable (_ ≤ _))

instance (t : Timestamp) : Decidable t.Utc := inferInstanceAs (Decidable (_ = _))

end Timestamp

def SystemBody.utc : SystemBody → SystemBody
  | .error code message (some o) => .error code message (some { o with ts := o.ts.utc })
  | body => body

def Body.utc : Body → Body
  | .system body => .system body.utc
  | .event map => .event map

def Envelope.utc (e : Envelope) : Envelope := { e with ts := e.ts.utc, body := e.body.utc }

def PluginOutgoing.utc (o : PluginOutgoing) : PluginOutgoing := { o with body := o.body.utc }

/-- What the constructors give: the kind is that of the body, and a ready body declares a version
that is valid. -/
def Built (w : World) (kind : MessageKind) : Body → Prop
  | .system body => kind = .system ∧
    ∀ version, body = .ready version → isValidProtocolVersion w version = true
  | .event _ => kind = .event

/-- What is relied on in the crates: a date of four digits and the mark of UTC is read as it
stands, a year with a sign has six digits, a date is moved to UTC, and a double prints on one line. -/
structure World.Documented (w : World) : Prop where
  canonical : ∀ dt : OffsetDateTime, 0 ≤ dt.year → dt.nanosecond % 1000000 = 0 →
    w.dateTime (String.ofList (isoText dt)) = .ok dt.assumeUtc
  signed : ∀ s dt, w.dateTime s = .ok dt → s.toList.head? = some '-' →
    ∀ c ∈ (s.toList.drop 1).take 6, c.isDigit
  atUtc : ∀ dt : OffsetDateTime, dt.offset = 0 → w.toUtc dt = dt
  toUtc : ∀ dt : OffsetDateTime, (w.toUtc dt).offset = 0
  oneLine : ∀ f, OneLine (w.float f)

/-- The document is read as it was printed. -/
def World.Rereads (w : World) (value : Json) : Prop := w.read (value.compact w.float) = .ok value

instance (w : World) (value : Json) : Decidable (w.Rereads value) :=
  inferInstanceAs (Decidable (_ = _))

def Envelope.RoundTrips (w : World) (e : Envelope) : Prop :=
  ∃ e', Envelope.parseLine w (e.toLine w) = .ok e' ∧ e'.eq e

def PluginOutgoing.RoundTrips (w : World) (o : PluginOutgoing) : Prop :=
  ∃ o', PluginOutgoing.parseLine w (o.toLine w) = .ok o' ∧ o'.eq o

variable {w : World}

/-! Stamps. -/

namespace Timestamp
variable {t : Timestamp}

theorem fromOffset_dt (t : Timestamp) : fromOffset t.dt = t := by
  have hns : t.dt.nanosecond / 1000000 * 1000000 = t.dt.nanosecond :=
    Nat.div_mul_cancel (Nat.dvd_of_mod_eq_zero t.millisecond)
  obtain ⟨dt,hms⟩ := t
  simp only [fromOffset,OffsetDateTime.replaceNanosecond,hns]

theorem parse_text (hw : w.Documented) (ht : t.Common) : parse w t.toIso8601 = .ok t.utc := by
  unfold parse toIso8601
  rw [hw.canonical t.dt ht t.millisecond]
  simp only [hw.atUtc t.dt.assumeUtc rfl]
  exact congrArg Except.ok (fromOffset_dt t.utc)

theorem pad_length {width n : Nat} (h : n < 10 ^ (width + 1)) :
    (pad width n).length ≤ width + 1 := by
  induction width generalizing n with
  | zero =>
    unfold pad
    split
    · simp
    · rw [Nat.toDigits_of_lt_base (by simpa using h)]
      rfl
  | succ width ih =>
    have hn : n / 10 < 10 ^ (width + 1) := by
      rw [Nat.div_lt_iff_lt_mul (by decide),← Nat.pow_succ]
      exact h
    have hlen := ih hn
    rw [pad,List.length_append,List.length_singleton]
    omega

theorem mem_take_append {α : Type} {l r : List α} {x : α} {n : Nat} (h : l.length < n) :
    x ∈ (l ++ x :: r).take n := by
  obtain ⟨k,rfl⟩ := Nat.exists_eq_add_of_lt h
  rw [List.take_append,show l.length + k + 1 - l.length = k + 1 by omega,List.take_succ_cons]
  exact List.mem_append_right _ List.mem_cons_self

/-- No text with a sign is read, for its year has four digits at most. -/
theorem parse_text_negative (hw : w.Documented) (ht : ¬ t.Common) :
    ∃ e, parse w t.toIso8601 = .error e := by
  cases hp : w.dateTime t.toIso8601 with
  | error e =>
    refine ⟨e,?_⟩
    unfold parse
    rw [hp]
  | ok dt =>
    exfalso
    have hneg : t.dt.year < 0 := not_le.mp ht
    have hrange := t.dt.year_range.1
    have htext : t.toIso8601.toList = '-' :: (pad 3 t.dt.year.natAbs ++ '-' ::
        (isoText t.dt).drop ((pad 3 t.dt.year.natAbs).length + 2)) := by
      simp only [toIso8601,String.toList_ofList,isoText,padYear,if_pos hneg]
      simp
    have hdigits := hw.signed _ _ hp (by rw [htext]; rfl)
    have hlen := @pad_length 3 t.dt.year.natAbs (by omega)
    rw [htext] at hdigits
    exact absurd (hdigits '-' (mem_take_append (by omega))) (by decide)

theorem utc_eq_iff : t.utc.eq t ↔ t.Utc := by
  have hdays : t.utc.dt.seconds = t.dt.seconds + t.dt.offset := by
    have hd : t.utc.dt.days = t.dt.days := rfl
    simp only [OffsetDateTime.seconds,hd]
    simp only [utc,OffsetDateTime.assumeUtc]
    ring
  unfold eq OffsetDateTime.eq Utc
  rw [hdays]
  constructor
  · rintro ⟨h,-⟩
    omega
  · intro h
    exact ⟨by omega,rfl⟩

end Timestamp

/-! Bodies. -/

/-- The entries of a system body, once its kind was taken out. -/
def SystemBody.rest (body : SystemBody) : Object :=
  swapRemove "kind" (("kind",.string body.kind) :: body.fields)

theorem parseReady_rest {version : String} (h : isValidProtocolVersion w version = true) :
    parseReady w (SystemBody.ready version).rest = .ok (.ready version) := by
  simp [parseReady,SystemBody.rest,SystemBody.fields,Object.get_cons,swapRemove,h]

theorem parseReadyOk_rest (version : String) :
    parseReadyOk (SystemBody.readyOk version).rest = .ok (.readyOk version) := by
  simp [parseReadyOk,SystemBody.rest,SystemBody.fields,needString,takeString,Object.get_cons,
    swapRemove,rejectExtras]

theorem parseShutdown_rest (reason : Option String) (graceMs : Option UInt64) :
    parseShutdown (SystemBody.shutdown reason graceMs).rest = .ok (.shutdown reason graceMs) := by
  cases reason with
  | none =>
    cases graceMs with
    | none => rfl
    | some n =>
      simp [parseShutdown,SystemBody.rest,SystemBody.fields,skipNone,takeString,takeGrace,asU64,
        Object.get_cons,swapRemove,rejectExtras]
  | some reason =>
    cases graceMs with
    | none =>
      simp [parseShutdown,SystemBody.rest,SystemBody.fields,skipNone,takeString,takeGrace,
        Object.get_cons,swapRemove,rejectExtras]
    | some n =>
      simp [parseShutdown,SystemBody.rest,SystemBody.fields,skipNone,takeString,takeGrace,asU64,
        Object.get_cons,swapRemove,rejectExtras]

theorem parseErrorCode_text (code : ErrorCode) : parseErrorCode code.text = .ok code := by
  cases code <;> rfl

/-- Offending facts are read back with their stamp at UTC, if the stamp is read at all. -/
theorem parseOffending_value (o : Offending) :
    parseOffending w [("from",.string o.sender.name),("ts",.string o.ts.toIso8601)] =
      ((Timestamp.parse w o.ts.toIso8601).mapError fun _ =>
        .wrongFieldType "ts" "ISO-8601 UTC timestamp").map fun ts => { o with ts := ts } := by
  obtain ⟨⟨name,hname⟩,ts⟩ := o
  simp [parseOffending,needString,takeString,Object.get_cons,swapRemove,rejectExtras,hname]
  cases Timestamp.parse w ts.toIso8601 with
  | error e => rfl
  | ok ts => rfl

theorem parseErrorBody_none (code : ErrorCode) (message : String) :
    parseErrorBody w (SystemBody.error code message none).rest = .ok (.error code message none) := by
  simp [parseErrorBody,SystemBody.rest,SystemBody.fields,skipNone,needString,takeString,
    takeOffending,Object.get_cons,swapRemove,rejectExtras,parseErrorCode_text]

theorem parseErrorBody_some (code : ErrorCode) (message : String) (o : Offending) :
    parseErrorBody w (SystemBody.error code message (some o)).rest =
      ((Timestamp.parse w o.ts.toIso8601).mapError fun _ =>
        .wrongFieldType "ts" "ISO-8601 UTC timestamp").map fun ts =>
          .error code message (some { o with ts := ts }) := by
  have hoffending := parseOffending_value (w := w) o
  have htake : takeOffending w [("offending",o.value)] =
      ((Timestamp.parse w o.ts.toIso8601).mapError fun _ =>
        .wrongFieldType "ts" "ISO-8601 UTC timestamp").map fun ts => some { o with ts := ts } := by
    simp only [takeOffending,Object.get_cons,Offending.value,if_true,hoffending]
    cases Timestamp.parse w o.ts.toIso8601 with
    | error e => rfl
    | ok ts => rfl
  simp [parseErrorBody,SystemBody.rest,SystemBody.fields,skipNone,needString,takeString,
    Object.get_cons,swapRemove,rejectExtras,parseErrorCode_text,htake]
  cases Timestamp.parse w o.ts.toIso8601 with
  | error e => rfl
  | ok ts => rfl

/-- The entries of a system body, with its kind. -/
def SystemBody.entries (body : SystemBody) : Object := ("kind",.string body.kind) :: body.fields

theorem parseSystemBody_entries (body : SystemBody) :
    parseSystemBody w body.entries = parseBodyOf w body.rest body.kind := by
  unfold parseSystemBody SystemBody.entries
  rw [Object.get_cons,if_pos rfl]
  rfl

theorem parseSystemBody_ok (hw : w.Documented) {body : SystemBody}
    (hready : ∀ version, body = .ready version → isValidProtocolVersion w version = true)
    (ht : ∀ t ∈ body.timestamps, t.Common) : parseSystemBody w body.entries = .ok body.utc := by
  rw [parseSystemBody_entries]
  cases body with
  | ready version => exact congrArg (Except.mapError _) (parseReady_rest (hready version rfl))
  | readyOk version =>
    exact congrArg (Except.mapError (ParseError.invalidSystemBody .readyOk)) (parseReadyOk_rest version)
  | shutdown reason graceMs => exact congrArg (Except.mapError _) (parseShutdown_rest reason graceMs)
  | error code message offending =>
    cases offending with
    | none => exact congrArg (Except.mapError _) (parseErrorBody_none code message)
    | some o =>
      have hts := Timestamp.parse_text hw (ht o.ts (List.mem_singleton_self _))
      have hbody := parseErrorBody_some (w := w) code message o
      rw [hts] at hbody
      exact congrArg (Except.mapError _) hbody

theorem parseSystemBody_error (hw : w.Documented) {body : SystemBody}
    (ht : ∃ t ∈ body.timestamps, ¬ t.Common) :
    ∃ e, parseSystemBody w body.entries = .error e := by
  obtain ⟨t,hmem,ht⟩ := ht
  cases body with
  | error code message offending =>
    cases offending with
    | none => cases hmem
    | some o =>
      obtain rfl : t = o.ts := List.mem_singleton.mp hmem
      obtain ⟨e,he⟩ := Timestamp.parse_text_negative hw ht
      have hbody : parseErrorBody w (SystemBody.error code message (some o)).rest =
          .error (.wrongFieldType "ts" "ISO-8601 UTC timestamp") := by
        rw [parseErrorBody_some,he]
        rfl
      refine ⟨.invalidSystemBody .error (.wrongFieldType "ts" "ISO-8601 UTC timestamp"),?_⟩
      rw [parseSystemBody_entries]
      exact congrArg (Except.mapError _) hbody
  | _ => cases hmem

variable {kind : MessageKind} {body : Body}

theorem takeBody_ok (hw : w.Documented) (hb : Built w kind body)
    (ht : ∀ t ∈ body.timestamps, t.Common) :
    takeBody w kind [("body",encodeBody body)] = .ok body.utc := by
  unfold takeBody
  rw [Object.get_cons,if_pos rfl]
  cases body with
  | system body =>
    obtain ⟨rfl,hready⟩ := hb
    have hbody := parseSystemBody_ok hw hready ht
    change (parseSystemBody w body.entries).map Body.system = _
    rw [hbody]
    rfl
  | event map =>
    cases (hb : kind = .event)
    rfl

theorem takeBody_error (hw : w.Documented) (hb : Built w kind body)
    (ht : ∃ t ∈ body.timestamps, ¬ t.Common) :
    ∃ e, takeBody w kind [("body",encodeBody body)] = .error e := by
  cases body with
  | system body =>
    obtain ⟨rfl,-⟩ := hb
    obtain ⟨e,he⟩ := parseSystemBody_error hw ht
    refine ⟨e,?_⟩
    unfold takeBody
    rw [Object.get_cons,if_pos rfl]
    change (parseSystemBody w body.entries).map Body.system = _
    rw [he]
    rfl
  | event map =>
    obtain ⟨t,hmem,-⟩ := ht
    cases hmem

theorem body_utc_eq_iff : body.utc.eq body ↔ ∀ t ∈ body.timestamps, t.Utc := by
  cases body with
  | event map => simp [Body.utc,Body.eq,Body.timestamps]
  | system body =>
    cases body with
    | error code message offending =>
      cases offending with
      | none => simp [Body.utc,Body.eq,Body.timestamps,SystemBody.utc,SystemBody.eq,
          SystemBody.timestamps]
      | some o => simp [Body.utc,Body.eq,Body.timestamps,SystemBody.utc,SystemBody.eq,
          SystemBody.timestamps,Offending.eq,Timestamp.utc_eq_iff]
    | _ => simp [Body.utc,Body.eq,Body.timestamps,SystemBody.utc,SystemBody.eq,SystemBody.timestamps]

/-! Lines. -/

theorem takeKind_entries (rest : Object) :
    takeKind (("type",.string kind.text) :: rest) =
      .ok (kind,swapRemove "type" (("type",.string kind.text) :: rest)) := by
  unfold takeKind takeText
  rw [Object.get_cons,if_pos rfl]
  cases kind <;> rfl

/-- What the parser makes of the line of an envelope. -/
theorem parseLine_toLine {e : Envelope} (hr : w.Rereads (encodeEnvelope e)) :
    Envelope.parseLine w (e.toLine w) = (do
      let ts ← (Timestamp.parse w e.ts.toIso8601).mapError fun error =>
        .invalidTimestamp ("invalid ISO-8601 UTC timestamp: " ++ error)
      let body ← takeBody w e.kind [("body",encodeBody e.body)]
      return ⟨e.kind,e.sender,ts,body⟩) := by
  have hread : w.read (e.toLine w) = .ok (encodeEnvelope e) := hr
  unfold Envelope.parseLine readObject
  rw [hread]
  obtain ⟨kind,⟨name,hname⟩,ts,body⟩ := e
  simp only [encodeEnvelope,ok_bind,takeKind_entries]
  simp [checkStampedKeys,swapRemove,takeStamps,takeText,Object.get_cons,hname]

theorem parseLine_toLine_outgoing {o : PluginOutgoing} (hr : w.Rereads (encodeOutgoing o)) :
    PluginOutgoing.parseLine w (o.toLine w) = (do
      let body ← takeBody w o.kind [("body",encodeBody o.body)]
      return ⟨o.kind,body⟩) := by
  have hread : w.read (o.toLine w) = .ok (encodeOutgoing o) := hr
  unfold PluginOutgoing.parseLine readObject
  rw [hread]
  simp only [encodeOutgoing,ok_bind,takeKind_entries]
  simp [checkOutgoingKeys,swapRemove]

/-- An envelope is read back as it was exactly when each of its stamps is a date at UTC, of a year
that is not negative. -/
theorem roundTrips_iff (hw : w.Documented) {e : Envelope} (hb : Built w e.kind e.body)
    (hr : w.Rereads (encodeEnvelope e)) :
    e.RoundTrips w ↔ ∀ t ∈ e.timestamps, t.Utc ∧ t.Common := by
  unfold Envelope.RoundTrips
  rw [parseLine_toLine hr]
  by_cases hts : e.ts.Common
  · rw [Timestamp.parse_text hw hts]
    by_cases hbody : ∀ t ∈ e.body.timestamps, t.Common
    · have hequal : e.utc.eq e ↔ e.ts.Utc ∧ ∀ t ∈ e.body.timestamps, t.Utc := by
        rw [← Timestamp.utc_eq_iff,← body_utc_eq_iff]
        simp [Envelope.eq,Envelope.utc]
      rw [takeBody_ok hw hb hbody]
      constructor
      · rintro ⟨e',he',heq⟩
        cases he'
        obtain ⟨hu,hus⟩ := hequal.mp heq
        intro t ht
        obtain rfl | ht := List.mem_cons.mp ht
        · exact ⟨hu,hts⟩
        · exact ⟨hus t ht,hbody t ht⟩
      · intro h
        refine ⟨e.utc,rfl,hequal.mpr ⟨(h e.ts List.mem_cons_self).1,?_⟩⟩
        intro t ht
        exact (h t (List.mem_cons_of_mem _ ht)).1
    · push Not at hbody
      obtain ⟨error,herror⟩ := takeBody_error hw hb hbody
      rw [herror]
      constructor
      · rintro ⟨e',he',-⟩
        cases he'
      · intro h
        obtain ⟨t,hmem,ht⟩ := hbody
        exact absurd (h t (List.mem_cons_of_mem _ hmem)).2 ht
  · obtain ⟨error,herror⟩ := Timestamp.parse_text_negative hw hts
    rw [herror]
    constructor
    · rintro ⟨e',he',-⟩
      cases he'
    · intro h
      exact absurd (h e.ts List.mem_cons_self).2 hts

theorem roundTrips_outgoing_iff (hw : w.Documented) {o : PluginOutgoing} (hb : Built w o.kind o.body)
    (hr : w.Rereads (encodeOutgoing o)) :
    o.RoundTrips w ↔ ∀ t ∈ o.body.timestamps, t.Utc ∧ t.Common := by
  unfold PluginOutgoing.RoundTrips
  rw [parseLine_toLine_outgoing hr]
  by_cases hbody : ∀ t ∈ o.body.timestamps, t.Common
  · have hequal : o.utc.eq o ↔ ∀ t ∈ o.body.timestamps, t.Utc := by
      rw [← body_utc_eq_iff]
      simp [PluginOutgoing.eq,PluginOutgoing.utc]
    rw [takeBody_ok hw hb hbody]
    constructor
    · rintro ⟨o',ho',heq⟩
      cases ho'
      exact fun t ht => ⟨hequal.mp heq t ht,hbody t ht⟩
    · exact fun h => ⟨o.utc,rfl,hequal.mpr fun t ht => (h t ht).1⟩
  · push Not at hbody
    obtain ⟨error,herror⟩ := takeBody_error hw hb hbody
    rw [herror]
    constructor
    · rintro ⟨o',ho',-⟩
      cases ho'
    · intro h
      obtain ⟨t,hmem,ht⟩ := hbody
      exact absurd (h t hmem).2 ht

/-! What the parser accepts. -/

theorem parse_utc (hw : w.Documented) {s : String} {t : Timestamp} (h : Timestamp.parse w s = .ok t) :
    t.Utc := by
  unfold Timestamp.parse at h
  split at h
  · cases h
  · cases h
    exact hw.toUtc _

theorem mapError_eq_ok {ε ε' α : Type} {x : Except ε α} {f : ε → ε'} {a : α} :
    x.mapError f = .ok a ↔ x = .ok a := by
  cases x with
  | error e => simp [Except.mapError]
  | ok b => simp [Except.mapError]

theorem map_eq_ok {ε α β : Type} {x : Except ε α} {f : α → β} {b : β} :
    x.map f = .ok b ↔ ∃ a, x = .ok a ∧ f a = b := by
  cases x with
  | error e => simp [Except.map]
  | ok a => simp [Except.map]

theorem parseOffending_utc (hw : w.Documented) {obj : Object} {o : Offending}
    (h : parseOffending w obj = .ok o) : o.ts.Utc := by
  obtain ⟨⟨fromRaw,rest⟩,-,h⟩ := bind_eq_ok.mp h
  obtain ⟨⟨tsRaw,rest⟩,-,h⟩ := bind_eq_ok.mp h
  obtain ⟨-,-,h⟩ := bind_eq_ok.mp h
  split at h
  · obtain ⟨ts,hts,h⟩ := bind_eq_ok.mp h
    cases h
    exact parse_utc hw (mapError_eq_ok.mp hts)
  · cases h

theorem parseErrorBody_utc (hw : w.Documented) {obj : Object} {body : SystemBody}
    (h : parseErrorBody w obj = .ok body) :
    (∀ version, body ≠ .ready version) ∧ ∀ t ∈ body.timestamps, t.Utc := by
  obtain ⟨⟨codeRaw,rest⟩,-,h⟩ := bind_eq_ok.mp h
  obtain ⟨code,-,h⟩ := bind_eq_ok.mp h
  obtain ⟨⟨message,rest⟩,-,h⟩ := bind_eq_ok.mp h
  obtain ⟨offending,ho,h⟩ := bind_eq_ok.mp h
  obtain ⟨-,-,h⟩ := bind_eq_ok.mp h
  cases h
  refine ⟨fun _ h => (by cases h),?_⟩
  unfold takeOffending at ho
  split at ho
  · cases ho
    simp [SystemBody.timestamps]
  · cases ho
    simp [SystemBody.timestamps]
  · obtain ⟨o,hparse,rfl⟩ := map_eq_ok.mp ho
    intro t ht
    obtain rfl := List.mem_singleton.mp ht
    exact parseOffending_utc hw hparse
  · cases ho

theorem parseBodyOf_accepts (hw : w.Documented) {obj : Object} {kind : String} {body : SystemBody}
    (h : parseBodyOf w obj kind = .ok body) :
    (∀ version, body = .ready version → isValidProtocolVersion w version = true) ∧
      ∀ t ∈ body.timestamps, t.Utc := by
  unfold parseBodyOf at h
  split at h
  · have hready := mapError_eq_ok.mp h
    unfold parseReady at hready
    split at hready
    · cases hready
    · cases hready
    · split at hready
      · cases hready
      · split at hready
        · rename_i hvalid
          cases hready
          refine ⟨?_,by simp [SystemBody.timestamps]⟩
          intro version hversion
          cases hversion
          exact hvalid
        · cases hready
    · cases hready
  · obtain ⟨⟨version,rest⟩,-,hbody⟩ := bind_eq_ok.mp (mapError_eq_ok.mp h)
    obtain ⟨-,-,hbody⟩ := bind_eq_ok.mp hbody
    cases hbody
    exact ⟨fun _ h => (by cases h),by simp [SystemBody.timestamps]⟩
  · obtain ⟨⟨reason,rest⟩,-,hbody⟩ := bind_eq_ok.mp (mapError_eq_ok.mp h)
    obtain ⟨graceMs,-,hbody⟩ := bind_eq_ok.mp hbody
    obtain ⟨-,-,hbody⟩ := bind_eq_ok.mp hbody
    cases hbody
    exact ⟨fun _ h => (by cases h),by simp [SystemBody.timestamps]⟩
  · obtain ⟨hkind,hutc⟩ := parseErrorBody_utc hw (mapError_eq_ok.mp h)
    exact ⟨fun version hversion => absurd hversion (hkind version),hutc⟩
  · cases h

theorem takeBody_accepts (hw : w.Documented) {obj : Object}
    (h : takeBody w kind obj = .ok body) : Built w kind body ∧ ∀ t ∈ body.timestamps, t.Utc := by
  unfold takeBody at h
  split at h
  · cases h
  · cases kind with
    | system =>
      obtain ⟨system,hsystem,rfl⟩ := map_eq_ok.mp h
      unfold parseSystemBody at hsystem
      split at hsystem
      · cases hsystem
      · obtain ⟨hready,hutc⟩ := parseBodyOf_accepts hw hsystem
        exact ⟨⟨rfl,hready⟩,hutc⟩
      · cases hsystem
    | event =>
      cases h
      exact ⟨rfl,fun t ht => by cases ht⟩
  · cases h

theorem takeStamps_utc (hw : w.Documented) {obj rest : Object} {sender : PluginName} {ts : Timestamp}
    (h : takeStamps w obj = .ok ((sender,ts),rest)) : ts.Utc := by
  obtain ⟨⟨s,rest'⟩,-,h⟩ := bind_eq_ok.mp h
  dsimp only at h
  split at h
  · obtain ⟨⟨raw,rest''⟩,-,h⟩ := bind_eq_ok.mp h
    obtain ⟨ts',hts,h⟩ := bind_eq_ok.mp h
    cases h
    exact parse_utc hw (mapError_eq_ok.mp hts)
  · cases h

/-- An accepted envelope could have been built, and its stamps are dates at UTC. -/
theorem parseLine_accepts (hw : w.Documented) {line : String} {e : Envelope}
    (h : Envelope.parseLine w line = .ok e) : Built w e.kind e.body ∧ ∀ t ∈ e.timestamps, t.Utc := by
  obtain ⟨obj,-,h⟩ := bind_eq_ok.mp h
  obtain ⟨-,-,h⟩ := bind_eq_ok.mp h
  obtain ⟨⟨kind,obj⟩,-,h⟩ := bind_eq_ok.mp h
  obtain ⟨⟨⟨sender,ts⟩,obj⟩,hts,h⟩ := bind_eq_ok.mp h
  obtain ⟨body,hbody,h⟩ := bind_eq_ok.mp h
  cases h
  obtain ⟨hb,hutc⟩ := takeBody_accepts hw hbody
  refine ⟨hb,?_⟩
  intro t ht
  obtain rfl | ht := List.mem_cons.mp ht
  · exact takeStamps_utc hw hts
  · exact hutc t ht

/-! A line is of one kind. -/

theorem mem_swapRemove {key : String} {obj : Object} {e : String × Json}
    (h : e ∈ swapRemove key obj) : e ∈ obj := by
  induction obj with
  | nil => exact h
  | cons a rest ih =>
    unfold swapRemove at h
    split at h
    · split at h
      · cases h
      · rename_i last hlast
        obtain rfl | h := List.mem_cons.mp h
        · exact List.mem_cons_of_mem _ (List.mem_of_getLast? hlast)
        · exact List.mem_cons_of_mem _ (List.mem_of_mem_dropLast h)
    · obtain rfl | h := List.mem_cons.mp h
      · exact List.mem_cons_self
      · exact List.mem_cons_of_mem _ (ih h)

theorem takeText_ok {obj rest : Object} {field s : String} (h : takeText obj field = .ok (s,rest)) :
    (field,Json.string s) ∈ obj ∧ rest = swapRemove field obj := by
  unfold takeText at h
  split at h
  · cases h
  · rename_i s' hs
    cases h
    exact ⟨Object.mem_of_get hs,rfl⟩
  · cases h

theorem takeKind_subset {obj rest : Object} (h : takeKind obj = .ok (kind,rest)) :
    ∀ e ∈ rest, e ∈ obj := by
  obtain ⟨⟨kindStr,rest'⟩,htext,h⟩ := bind_eq_ok.mp h
  obtain ⟨-,rfl⟩ := takeText_ok htext
  dsimp only at h
  split at h
  · cases h
    exact fun e => mem_swapRemove
  · cases h
    exact fun e => mem_swapRemove
  · cases h

/-- No line is both an envelope and what a plugin sends: the first has the key `from`. -/
theorem parseLine_disjoint (line : String) (e : Envelope) (o : PluginOutgoing) :
    ¬ (Envelope.parseLine w line = .ok e ∧ PluginOutgoing.parseLine w line = .ok o) := by
  rintro ⟨he,ho⟩
  obtain ⟨obj,hobj,he⟩ := bind_eq_ok.mp he
  obtain ⟨-,-,he⟩ := bind_eq_ok.mp he
  obtain ⟨⟨kind,rest⟩,hkind,he⟩ := bind_eq_ok.mp he
  obtain ⟨⟨stamps,rest'⟩,hstamps,-⟩ := bind_eq_ok.mp he
  obtain ⟨⟨s,rest''⟩,hfrom,-⟩ := bind_eq_ok.mp hstamps
  have hmem := takeKind_subset hkind _ (takeText_ok hfrom).1
  obtain ⟨obj',hobj',ho⟩ := bind_eq_ok.mp ho
  rw [hobj] at hobj'
  cases hobj'
  obtain ⟨_,hkeys,-⟩ := bind_eq_ok.mp ho
  unfold checkOutgoingKeys at hkeys
  split at hkeys
  · cases hkeys
  · rename_i hnone
    have hfind := List.find?_eq_none.mp hnone "from" (List.mem_map.mpr ⟨_,hmem,rfl⟩)
    simp at hfind

/-- Envelopes and what plugins send print on one line and are read back as they were exactly when
their stamps are dates at UTC of years that are not negative; an envelope that was read is one when
its years are not negative. No line is read as both. -/
theorem parseLine_roundTrip (w : World) (hw : w.Documented) :
    (∀ e : Envelope, Built w e.kind e.body → w.Rereads (encodeEnvelope e) →
      OneLine (e.toLine w) ∧ (e.RoundTrips w ↔ ∀ t ∈ e.timestamps, t.Utc ∧ t.Common)) ∧
    (∀ o : PluginOutgoing, Built w o.kind o.body → w.Rereads (encodeOutgoing o) →
      OneLine (o.toLine w) ∧ (o.RoundTrips w ↔ ∀ t ∈ o.body.timestamps, t.Utc ∧ t.Common)) ∧
    (∀ line e, Envelope.parseLine w line = .ok e → w.Rereads (encodeEnvelope e) →
      (e.RoundTrips w ↔ ∀ t ∈ e.timestamps, t.Common)) ∧
    ∀ line e o, ¬ (Envelope.parseLine w line = .ok e ∧ PluginOutgoing.parseLine w line = .ok o) := by
  refine ⟨?_,?_,?_,parseLine_disjoint⟩
  · intro e hb hr
    exact ⟨Json.oneLine_compact hw.oneLine _,roundTrips_iff hw hb hr⟩
  · intro o hb hr
    exact ⟨Json.oneLine_compact hw.oneLine _,roundTrips_outgoing_iff hw hb hr⟩
  · intro line e he hr
    obtain ⟨hb,hutc⟩ := parseLine_accepts hw he
    rw [roundTrips_iff hw hb hr]
    exact forall₂_congr fun t ht => and_iff_right (hutc t ht)

/-! A world that reads dates of the canonical form, and a few documents. -/

def number (cs : List Char) : Option Nat :=
  cs.foldlM (fun n c => if c.isDigit then some (10 * n + (c.toNat - 48)) else none) 0

theorem digit_digitChar {k : Nat} (hk : k < 10) :
    (Nat.digitChar k).isDigit ∧ (Nat.digitChar k).toNat - 48 = k := by
  revert k
  decide

theorem number_append_digit {cs : List Char} {n k : Nat} (h : number cs = some n) (hk : k < 10) :
    number (cs ++ [Nat.digitChar k]) = some (10 * n + k) := by
  obtain ⟨hd,hv⟩ := digit_digitChar hk
  unfold number at *
  rw [List.foldlM_append,h]
  simp [hd,hv]

theorem number_pad {width n : Nat} (h : n < 10 ^ width) : number (pad width n) = some n := by
  induction width generalizing n with
  | zero =>
    obtain rfl : n = 0 := by simpa using h
    rfl
  | succ width ih =>
    have hn : n / 10 < 10 ^ width := by
      rw [Nat.div_lt_iff_lt_mul (by decide),← Nat.pow_succ]
      exact h
    rw [pad,number_append_digit (ih hn) (Nat.mod_lt _ (by decide)),Nat.div_add_mod]

theorem length_pad {width n : Nat} (h : n < 10 ^ width) : (pad width n).length = width := by
  induction width generalizing n with
  | zero =>
    obtain rfl : n = 0 := by simpa using h
    rfl
  | succ width ih =>
    have hn : n / 10 < 10 ^ width := by
      rw [Nat.div_lt_iff_lt_mul (by decide),← Nat.pow_succ]
      exact h
    rw [pad,List.length_append,ih hn,List.length_singleton]

/-- A date at UTC, if its parts make one. -/
def dateOf (year month day hour minute second millisecond : Nat) : Option OffsetDateTime :=
  if h : year ≤ 9999 ∧ (1 ≤ month ∧ month ≤ 12) ∧ (1 ≤ day ∧ day ≤ daysInMonth year month) ∧
      hour < 24 ∧ minute < 60 ∧ second < 60 ∧ millisecond < 1000 then
    some ⟨year,month,day,hour,minute,second,millisecond * 1000000,0,⟨by omega,by omega⟩,h.2.1,h.2.2.1,
      ⟨h.2.2.2.1,h.2.2.2.2.1,h.2.2.2.2.2.1,by omega⟩,OffsetDateTime.utc_range⟩
  else none

/-- A number of some digits, the character after it, and what is left. -/
def readPart (width : Nat) (mark : Char) (cs : List Char) : Option (Nat × List Char) :=
  if (cs.drop width).head? = some mark then
    (number (cs.take width)).map fun n => (n,cs.drop (width + 1))
  else none

/-- A date of the canonical form. -/
def canonicalDate? (cs : List Char) : Option OffsetDateTime := do
  let (year,cs) ← readPart 4 '-' cs
  let (month,cs) ← readPart 2 '-' cs
  let (day,cs) ← readPart 2 'T' cs
  let (hour,cs) ← readPart 2 ':' cs
  let (minute,cs) ← readPart 2 ':' cs
  let (second,cs) ← readPart 2 '.' cs
  let (millisecond,cs) ← readPart 3 'Z' cs
  if cs = [] then dateOf year month day hour minute second millisecond else none

def canonicalDate (s : String) : Except String OffsetDateTime :=
  match canonicalDate? s.toList with
  | some dt => .ok dt
  | none => .error "not a date"

theorem readPart_pad {width n : Nat} {mark : Char} {rest : List Char} (h : n < 10 ^ width) :
    readPart width mark (pad width n ++ mark :: rest) = some (n,rest) := by
  have hlen := length_pad h
  have hdrop : (pad width n ++ mark :: rest).drop width = mark :: rest := List.drop_left' hlen
  have hnext : (pad width n ++ mark :: rest).drop (width + 1) = rest := by
    rw [← List.drop_drop,hdrop]
    rfl
  rw [readPart,hdrop,hnext,List.take_left' hlen,number_pad h]
  simp

theorem daysInMonth_le (year : Int) (month : Nat) : daysInMonth year month ≤ 31 := by
  unfold daysInMonth
  grind

theorem dateOf_eq {dt : OffsetDateTime} (hy : 0 ≤ dt.year) (hms : dt.nanosecond % 1000000 = 0) :
    dateOf dt.year.natAbs dt.month dt.day dt.hour dt.minute dt.second (dt.nanosecond / 1000000) =
      some dt.assumeUtc := by
  obtain ⟨year,month,day,hour,minute,second,nanosecond,offset,hyear,hmonth,hday,htime,hoffset⟩ := dt
  dsimp only at hy hms
  obtain ⟨n,rfl⟩ := Int.eq_ofNat_of_zero_le hy
  have hvalid : (n : Int).natAbs ≤ 9999 ∧ (1 ≤ month ∧ month ≤ 12) ∧
      (1 ≤ day ∧ day ≤ daysInMonth (n : Int).natAbs month) ∧
      hour < 24 ∧ minute < 60 ∧ second < 60 ∧ nanosecond / 1000000 < 1000 :=
    ⟨by omega,hmonth,hday,htime.1,htime.2.1,htime.2.2.1,by omega⟩
  have hns : nanosecond / 1000000 * 1000000 = nanosecond :=
    Nat.div_mul_cancel (Nat.dvd_of_mod_eq_zero hms)
  unfold dateOf
  rw [dif_pos hvalid]
  simp [OffsetDateTime.assumeUtc,hns]

theorem canonicalDate_isoText {dt : OffsetDateTime} (hy : 0 ≤ dt.year)
    (hms : dt.nanosecond % 1000000 = 0) :
    canonicalDate (String.ofList (isoText dt)) = .ok dt.assumeUtc := by
  have hyear : dt.year.natAbs < 10 ^ 4 := by have := dt.year_range; omega
  have hmonth : dt.month < 10 ^ 2 := by have := dt.month_range; omega
  have hday : dt.day < 10 ^ 2 := by
    have := dt.day_range
    have := daysInMonth_le dt.year dt.month
    omega
  obtain ⟨hhour,hminute,hsecond,hnano⟩ := dt.time_range
  have hmilli : dt.nanosecond / 1000000 < 10 ^ 3 := by omega
  have htext : isoText dt = pad 4 dt.year.natAbs ++ '-' :: (pad 2 dt.month ++ '-' ::
      (pad 2 dt.day ++ 'T' :: (pad 2 dt.hour ++ ':' :: (pad 2 dt.minute ++ ':' ::
      (pad 2 dt.second ++ '.' :: (pad 3 (dt.nanosecond / 1000000) ++ 'Z' :: [])))))) := by
    simp [isoText,padYear,not_lt.mpr hy]
  have hread : canonicalDate? (isoText dt) = some dt.assumeUtc := by
    rw [htext]
    unfold canonicalDate?
    rw [readPart_pad hyear]
    simp only [Option.bind_eq_bind,Option.bind_some]
    rw [readPart_pad hmonth]
    simp only [Option.bind_some]
    rw [readPart_pad hday]
    simp only [Option.bind_some]
    rw [readPart_pad (by omega)]
    simp only [Option.bind_some]
    rw [readPart_pad (by omega)]
    simp only [Option.bind_some]
    rw [readPart_pad (by omega)]
    simp only [Option.bind_some]
    rw [readPart_pad hmilli]
    simp only [Option.bind_some,if_true]
    exact dateOf_eq hy hms
  rw [canonicalDate,String.toList_ofList,hread]

/-- No year begins with a sign. -/
theorem canonicalDate_signed {s : String} {dt : OffsetDateTime} (h : canonicalDate s = .ok dt) :
    s.toList.head? ≠ some '-' := by
  intro hs
  have hnone : canonicalDate? s.toList = none := by
    obtain ⟨rest,hrest⟩ := List.head?_eq_some_iff.mp hs
    have hnumber : number ((s.toList).take 4) = none := by
      rw [hrest]
      rfl
    have hpart : readPart 4 '-' s.toList = none := by
      unfold readPart
      rw [hnumber]
      split
      · rfl
      · rfl
    unfold canonicalDate?
    rw [hpart]
    rfl
  rw [canonicalDate,hnone] at h
  cases h

/-- A world that has a few documents to read. -/
def sampleWorld (documents : List Json) : World where
  float _ := "0.0"
  read line := match documents.find? fun document => document.compact (fun _ => "0.0") = line with
    | some document => .ok document
    | none => .error "expected value"
  dateTime := canonicalDate
  toUtc := OffsetDateTime.assumeUtc
  semver _ := false

theorem sampleWorld_dateTime (documents : List Json) :
    (sampleWorld documents).dateTime = canonicalDate := rfl

theorem sampleWorld_documented (documents : List Json) : (sampleWorld documents).Documented := by
  refine ⟨?_,?_,?_,?_,?_⟩
  · intro dt hy hms
    rw [sampleWorld_dateTime]
    exact canonicalDate_isoText hy hms
  · intro s dt h hs
    rw [sampleWorld_dateTime] at h
    exact absurd hs (canonicalDate_signed h)
  · intro dt h
    obtain ⟨year,month,day,hour,minute,second,nanosecond,offset,hyear,hmonth,hday,htime,hoffset⟩ := dt
    obtain rfl : offset = 0 := h
    rfl
  · intro dt
    rfl
  · intro f
    exact (by decide : OneLine "0.0")

/-- The first hour of a year, at an offset. -/
def firstHour (offset : Int) (h : -93600 < offset ∧ offset < 93600) : OffsetDateTime :=
  ⟨2026,1,1,1,0,0,0,offset,by decide,by decide,by decide,by decide,h⟩

def atUtc : Envelope := .event ⟨"clock",by decide⟩ (.fromOffset (firstHour 0 OffsetDateTime.utc_range)) []

def twoHoursEast : Envelope := .event ⟨"clock",by decide⟩ (.fromOffset (firstHour 7200 (by decide))) []

def clockWorld : World := sampleWorld [encodeEnvelope atUtc,encodeEnvelope twoHoursEast]

/-- The text of a stamp shows its clock without its offset. -/
theorem parseLine_roundTrip_fails : clockWorld.Documented ∧
    Built clockWorld twoHoursEast.kind twoHoursEast.body ∧
    clockWorld.Rereads (encodeEnvelope twoHoursEast) ∧
    (0 ≤ twoHoursEast.ts.dt.year ∧ twoHoursEast.ts.dt.year ≤ 9999) ∧
    ¬ twoHoursEast.RoundTrips clockWorld := by
  have hb : Built clockWorld twoHoursEast.kind twoHoursEast.body := rfl
  have hr : clockWorld.Rereads (encodeEnvelope twoHoursEast) := by decide
  have hw : clockWorld.Documented := sampleWorld_documented _
  refine ⟨hw,hb,hr,by decide,?_⟩
  rw [roundTrips_iff hw hb hr]
  decide

theorem parseLine_roundTrip_utc : OneLine (atUtc.toLine clockWorld) ∧ atUtc.RoundTrips clockWorld := by
  obtain ⟨hline,hiff⟩ := (parseLine_roundTrip clockWorld (sampleWorld_documented _)).1 atUtc rfl
    (by decide)
  exact ⟨hline,hiff.mpr (by decide)⟩

end Nefor.Protocol
