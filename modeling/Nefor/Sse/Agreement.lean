import Nefor.Sse.Format

/-! The decoder against the format: it never minds how a stream is cut into pieces, and it says
what the format says of streams whose frames are plain. -/
namespace Nefor.Sse

/-! Boundaries. -/

theorem boundary_cases {bytes : Bytes} (h : boundary bytes ≠ 0) : ∃ mark rest, bytes = mark ++ rest ∧
    boundary bytes = mark.length ∧ (mark = [lf,lf] ∨ mark = [cr,cr] ∨ mark = [cr,lf,cr,lf]) := by
  unfold boundary at h ⊢
  split at h
  · rename_i hmark
    exact ⟨[lf,lf],bytes.drop 2,by rw [← hmark,List.take_append_drop],by rw [if_pos hmark]; rfl,.inl rfl⟩
  · rename_i h1
    split at h
    · rename_i hmark
      exact ⟨[cr,cr],bytes.drop 2,by rw [← hmark,List.take_append_drop],
        by rw [if_neg h1,if_pos hmark]; rfl,.inr (.inl rfl)⟩
    · rename_i h2
      split at h
      · rename_i hmark
        exact ⟨[cr,lf,cr,lf],bytes.drop 4,by rw [← hmark,List.take_append_drop],
          by rw [if_neg h1,if_neg h2,if_pos hmark]; rfl,.inr (.inr rfl)⟩
      · exact absurd rfl h

theorem boundary_append {bytes a : Bytes} (h : boundary bytes ≠ 0) :
    boundary (bytes ++ a) = boundary bytes := by
  obtain ⟨mark,rest,rfl,-,hmark⟩ := boundary_cases h
  obtain rfl | rfl | rfl := hmark
  · simp [boundary]
  · simp [boundary,lf,cr]
  · simp [boundary,lf,cr]

theorem findFrameEnd_cons_of_zero {b : UInt8} {rest : Bytes} (h : boundary (b :: rest) = 0) :
    findFrameEnd (b :: rest) = (findFrameEnd rest).map fun p => (p.1 + 1,p.2) := by
  rw [findFrameEnd,if_neg (not_not.mpr h)]

/-- A boundary further on is not hidden by what follows. -/
theorem boundary_append_of_zero {b : UInt8} {rest a : Bytes} (h : boundary (b :: rest) = 0)
    (hrest : findFrameEnd rest ≠ none) : boundary (b :: rest ++ a) = 0 := by
  cases rest with
  | nil => exact absurd rfl hrest
  | cons x rest =>
    cases rest with
    | nil => simp [findFrameEnd,boundary] at hrest
    | cons y rest =>
      cases rest with
      | nil =>
        have hxy : boundary [x,y] ≠ 0 := by
          intro h0
          rw [findFrameEnd_cons_of_zero h0] at hrest
          simp [findFrameEnd,boundary] at hrest
        unfold boundary at *
        simp only [List.take_succ_cons,List.take_zero,List.take_nil,List.cons_append,
          List.nil_append] at *
        grind [lf,cr]
      | cons z rest =>
        unfold boundary at *
        simpa using h

theorem findFrameEnd_append {bytes more : Bytes} {p : Nat × Nat} (h : findFrameEnd bytes = some p) :
    findFrameEnd (bytes ++ more) = some p := by
  induction bytes generalizing p with
  | nil => cases h
  | cons b rest ih =>
    by_cases hzero : boundary (b :: rest) = 0
    · rw [findFrameEnd_cons_of_zero hzero] at h
      obtain ⟨q,hq,rfl⟩ := Option.map_eq_some_iff.mp h
      have happend := boundary_append_of_zero (a := more) hzero (by simp [hq])
      rw [List.cons_append] at happend ⊢
      rw [findFrameEnd_cons_of_zero happend,ih hq]
      rfl
    · rw [findFrameEnd,if_pos hzero] at h
      have happend := boundary_append (a := more) hzero
      rw [List.cons_append] at happend ⊢
      rw [findFrameEnd,happend,if_pos hzero]
      exact h

/-- A frame, the mark that ends it, and the rest; no mark stands before. -/
theorem findFrameEnd_spec {buf : Bytes} {frameEnd len : Nat}
    (h : findFrameEnd buf = some (frameEnd,len)) :
    ∃ frame mark rest, buf = frame ++ (mark ++ rest) ∧ frame.length = frameEnd ∧ mark.length = len ∧
      (mark = [lf,lf] ∨ mark = [cr,cr] ∨ mark = [cr,lf,cr,lf]) ∧
      ∀ a b, frame = a ++ b → b ≠ [] → boundary (b ++ (mark ++ rest)) = 0 := by
  induction buf generalizing frameEnd with
  | nil => cases h
  | cons b rest ih =>
    by_cases hzero : boundary (b :: rest) = 0
    · rw [findFrameEnd_cons_of_zero hzero] at h
      obtain ⟨⟨e,l⟩,hq,hp⟩ := Option.map_eq_some_iff.mp h
      cases hp
      obtain ⟨frame,mark,rest',rfl,hlen,hmark,hcases,hno⟩ := ih hq
      refine ⟨b :: frame,mark,rest',rfl,by simp [hlen],hmark,hcases,?_⟩
      intro x y hxy hy
      obtain ⟨rfl,rfl⟩ | ⟨more,rfl,hmore⟩ := List.cons_eq_append_iff.mp hxy
      · exact hzero
      · exact hno more y hmore hy
    · rw [findFrameEnd,if_pos hzero] at h
      cases h
      obtain ⟨mark,rest',heq,hlen,hcases⟩ := boundary_cases hzero
      refine ⟨[],mark,rest',heq,rfl,hlen.symm,hcases,?_⟩
      intro x y hxy hy
      exact absurd (List.append_eq_nil_iff.mp hxy.symm).2 hy

theorem findFrameEnd_len_pos {buf : Bytes} {frameEnd len : Nat}
    (h : findFrameEnd buf = some (frameEnd,len)) : 0 < len ∧ frameEnd + len ≤ buf.length := by
  obtain ⟨frame,mark,rest,rfl,rfl,rfl,hcases,-⟩ := findFrameEnd_spec h
  obtain rfl | rfl | rfl := hcases <;> simp

/-! The loop. -/

theorem drainLoop_eq {fuel : Nat} {buf : Bytes} (h : buf.length ≤ fuel) :
    drainLoop fuel buf = drainLoop buf.length buf := by
  induction fuel using Nat.strongRecOn generalizing buf with
  | ind fuel ih =>
    cases fuel with
    | zero =>
      obtain rfl := List.length_eq_zero_iff.mp (Nat.le_zero.mp h)
      rfl
    | succ fuel =>
      cases hf : findFrameEnd buf with
      | none =>
        cases hlen : buf.length with
        | zero =>
          obtain rfl := List.length_eq_zero_iff.mp hlen
          rfl
        | succ n => simp [drainLoop,hf]
      | some p =>
        obtain ⟨frameEnd,len⟩ := p
        obtain ⟨hpos,hle⟩ := findFrameEnd_len_pos hf
        obtain ⟨n,hn⟩ : ∃ n, buf.length = n + 1 := Nat.exists_eq_succ_of_ne_zero (by omega)
        have hdrop : (buf.drop (frameEnd + len)).length ≤ n := by
          rw [List.length_drop]
          omega
        have hfuel := @ih fuel (by omega) (buf.drop (frameEnd + len)) (by omega)
        have hn' := @ih n (by omega) (buf.drop (frameEnd + len)) hdrop
        rw [hn,drainLoop,drainLoop,hf]
        simp only [hfuel,hn']

theorem drain_of_none {buf : Bytes} (h : findFrameEnd buf = none) : drain buf = ([],buf) := by
  unfold drain
  cases hlen : buf.length with
  | zero => rfl
  | succ n => simp [drainLoop,h]

theorem drain_of_some {buf : Bytes} {frameEnd len : Nat} (h : findFrameEnd buf = some (frameEnd,len)) :
    drain buf = ((frameResult (buf.take frameEnd)).toList ++ (drain (buf.drop (frameEnd + len))).1,
      (drain (buf.drop (frameEnd + len))).2) := by
  obtain ⟨hpos,hle⟩ := findFrameEnd_len_pos h
  obtain ⟨n,hn⟩ : ∃ n, buf.length = n + 1 := Nat.exists_eq_succ_of_ne_zero (by omega)
  have hdrop : (buf.drop (frameEnd + len)).length ≤ n := by
    rw [List.length_drop]
    omega
  unfold drain
  rw [hn,drainLoop,h]
  simp only [drainLoop_eq hdrop]

/-- Draining early makes no difference. -/
theorem drain_append (buf more : Bytes) : drain (buf ++ more) =
    ((drain buf).1 ++ (drain ((drain buf).2 ++ more)).1,(drain ((drain buf).2 ++ more)).2) := by
  induction hlen : buf.length using Nat.strongRecOn generalizing buf with
  | ind n ih =>
    cases hf : findFrameEnd buf with
    | none =>
      rw [drain_of_none hf]
      rfl
    | some p =>
      obtain ⟨frameEnd,len⟩ := p
      obtain ⟨hpos,hle⟩ := findFrameEnd_len_pos hf
      have hrest := ih _ (by rw [← hlen,List.length_drop]; omega) (buf.drop (frameEnd + len)) rfl
      rw [drain_of_some (findFrameEnd_append hf),drain_of_some hf,
        List.take_append_of_le_length (by omega),List.drop_append_of_le_length hle,hrest]
      simp

/-! Calls. -/

/-- The bytes a run has pushed. -/
def pushed : List Call → Bytes
  | [] => []
  | .pushSlice bytes :: rest => bytes ++ pushed rest
  | .drain :: rest => pushed rest

/-- However a stream is pushed and drained, what is drained by the end is what one drain gives. -/
theorem run_eq_drain (calls : List Call) (buf : Bytes) :
    (run calls buf).1 ++ (drain (run calls buf).2).1 = (drain (buf ++ pushed calls)).1 := by
  induction calls generalizing buf with
  | nil => simp [run,pushed]
  | cons call rest ih =>
    cases call with
    | pushSlice bytes => rw [run,ih,pushed,List.append_assoc]
    | drain =>
      rw [pushed,drain_append]
      simp only [run]
      rw [List.append_assoc,ih]

/-! Lines and events of a stream in two parts. -/

namespace Format

/-- Where the reading of lines stands after some bytes. -/
def lineState (afterReturn : Bool) (current : Bytes) : Bytes → Bool × Bytes
  | [] => (afterReturn,current)
  | b :: rest =>
    if afterReturn ∧ b = lf then lineState false current rest
    else if b = lf ∨ b = cr then lineState (b = cr) [] rest
    else lineState false (current ++ [b]) rest

theorem lines_append (afterReturn : Bool) (current xs ys : Bytes) :
    lines afterReturn current (xs ++ ys) = lines afterReturn current xs ++
      lines (lineState afterReturn current xs).1 (lineState afterReturn current xs).2 ys := by
  induction xs generalizing afterReturn current with
  | nil => rfl
  | cons b xs ih =>
    rw [List.cons_append,lines,lines,lineState]
    split
    · exact ih false current
    · split
      · rw [ih,List.cons_append]
      · exact ih false _

theorem lineState_append (afterReturn : Bool) (current xs ys : Bytes) :
    lineState afterReturn current (xs ++ ys) =
      lineState (lineState afterReturn current xs).1 (lineState afterReturn current xs).2 ys := by
  induction xs generalizing afterReturn current with
  | nil => rfl
  | cons b xs ih =>
    rw [List.cons_append,lineState,lineState]
    split
    · exact ih _ _
    · split
      · exact ih _ _
      · exact ih _ _

/-- After a return the current line is empty, and the return is the last byte. -/
theorem lineState_true {afterReturn : Bool} {current xs : Bytes} (h : afterReturn = true → current = [])
    (ht : (lineState afterReturn current xs).1 = true) :
    (lineState afterReturn current xs).2 = [] ∧
      (xs = [] ∧ afterReturn = true ∨ ∃ front, xs = front ++ [cr]) := by
  induction xs generalizing afterReturn current with
  | nil => exact ⟨h ht,.inl ⟨rfl,ht⟩⟩
  | cons b xs ih =>
    rw [lineState] at ht ⊢
    have hfront : ∀ {flag : Bool}, (xs = [] ∧ flag = true ∨ ∃ front, xs = front ++ [cr]) →
        (flag = true → b = cr) → ∃ front, b :: xs = front ++ [cr] := by
      rintro flag (⟨rfl,hflag⟩ | ⟨front,rfl⟩) hb
      · exact ⟨[],by rw [hb hflag]; rfl⟩
      · exact ⟨b :: front,rfl⟩
    split at ht
    · rename_i hskip
      rw [if_pos hskip]
      obtain ⟨hcur,hxs⟩ := ih (fun h => by cases h) ht
      exact ⟨hcur,.inr (hfront hxs fun h => by cases h)⟩
    · rename_i hskip
      rw [if_neg hskip]
      split at ht
      · rename_i hend
        rw [if_pos hend]
        obtain ⟨hcur,hxs⟩ := ih (fun _ => rfl) ht
        exact ⟨hcur,.inr (hfront hxs of_decide_eq_true)⟩
      · rename_i hend
        rw [if_neg hend]
        obtain ⟨hcur,hxs⟩ := ih (fun h => by cases h) ht
        exact ⟨hcur,.inr (hfront hxs fun h => by cases h)⟩

/-- The lines of the event that has no end yet. -/
def eventState (current : List Bytes) : List Bytes → List Bytes
  | [] => current
  | line :: rest => if line ≠ [] then eventState (current ++ [line]) rest else eventState [] rest

theorem events_append (current : List Bytes) (xs ys : List Bytes) :
    events current (xs ++ ys) = events current xs ++ events (eventState current xs) ys := by
  induction xs generalizing current with
  | nil => rfl
  | cons line xs ih =>
    rw [List.cons_append,events,events,eventState]
    split
    · exact ih _
    · split
      · exact ih []
      · rw [ih,List.cons_append]

theorem eventState_snoc_nil (current : List Bytes) (xs : List Bytes) :
    eventState current (xs ++ [[]]) = [] := by
  induction xs generalizing current with
  | nil => simp [eventState]
  | cons line xs ih =>
    rw [List.cons_append,eventState]
    split
    · exact ih _
    · exact ih _

/-- A line feed that belongs to a return is like a blank line between events. -/
theorem events_lines_true (rest : Bytes) :
    events [] (lines true [] rest) = events [] (lines false [] rest) := by
  cases rest with
  | nil => rfl
  | cons b rest =>
    by_cases hb : b = lf
    · subst hb
      simp [lines,events,lf,cr]
    · simp [lines,hb]

/-- Blank lines, then other lines, then blank lines. -/
def Together (lines : List Bytes) : Prop :=
  ∀ line ∈ (lines.dropWhile (· = [])).dropWhile (· ≠ []), line = []

instance (lines : List Bytes) : Decidable (Together lines) := inferInstanceAs (Decidable (∀ _ ∈ _,_))

theorem events_blank (lines : List Bytes) : events [] lines = events [] (lines.dropWhile (· = [])) := by
  induction lines with
  | nil => rfl
  | cons line rest ih =>
    cases line with
    | nil => simpa [events] using ih
    | cons b line => simp

theorem events_other {current lines : List Bytes} (h : ∀ line ∈ lines, line ≠ []) :
    events current lines = [] := by
  induction lines generalizing current with
  | nil => rfl
  | cons line rest ih =>
    rw [events,if_pos (h line List.mem_cons_self)]
    exact ih fun l hl => h l (List.mem_cons_of_mem _ hl)

theorem events_all_blank {current lines : List Bytes} (h : ∀ line ∈ lines, line = []) :
    events current (lines ++ [[]]) = if current = [] then [] else [current] := by
  induction lines generalizing current with
  | nil => by_cases hc : current = [] <;> simp [events,hc]
  | cons line rest ih =>
    obtain rfl := h line List.mem_cons_self
    have hrest := fun current => @ih current fun l hl => h l (List.mem_cons_of_mem _ hl)
    rw [List.cons_append,events]
    by_cases hc : current = [] <;> simp [hc,hrest]

theorem events_run {current lines : List Bytes}
    (h : ∀ line ∈ lines.dropWhile (· ≠ []), line = []) :
    events current (lines ++ [[]]) =
      if current ++ lines.filter (· ≠ []) = [] then [] else [current ++ lines.filter (· ≠ [])] := by
  induction lines generalizing current with
  | nil => simpa using @events_all_blank current [] (by simp)
  | cons line rest ih =>
    by_cases hline : line = []
    · subst hline
      have hall : ∀ l ∈ [] :: rest, l = [] := by simpa using h
      have hnone : ([] :: rest).filter (· ≠ []) = [] := by
        rw [List.filter_eq_nil_iff]
        intro l hl
        simp [hall l hl]
      rw [events_all_blank hall,hnone,List.append_nil]
    · have hrest : ∀ l ∈ rest.dropWhile (· ≠ []), l = [] := by
        simpa [List.dropWhile_cons,hline] using h
      rw [List.cons_append,events,if_pos hline,ih hrest]
      simp [hline]

/-- Lines that stand together make one event, if there are any. -/
theorem events_together {lines : List Bytes} (h : Together lines) :
    events [] (lines ++ [[]]) =
      if lines.filter (· ≠ []) = [] then [] else [lines.filter (· ≠ [])] := by
  induction lines with
  | nil => simp [events]
  | cons line rest ih =>
    by_cases hline : line = []
    · subst hline
      have hrest : Together rest := by simpa [Together] using h
      simpa [events] using ih hrest
    · have hrun : ∀ l ∈ (line :: rest).dropWhile (· ≠ []), l = [] := by
        simpa [Together,List.dropWhile_cons,hline] using h
      exact events_run hrun

/-! The lines of one frame. -/

/-- The lines of a frame, the last of which has its end outside. -/
def frameLines (frame : Bytes) : List Bytes := lines false [] (frame ++ [lf])

theorem lines_mark {afterReturn : Bool} {current mark : Bytes} (hc : afterReturn = true → current = [])
    (hm : mark = [lf,lf] ∨ afterReturn = false ∧ (mark = [cr,cr] ∨ mark = [cr,lf,cr,lf])) :
    lines afterReturn current mark = lines afterReturn current [lf] ++ [[]] ∧
      (lineState afterReturn current mark).2 = [] := by
  have hcl : cr ≠ lf := by decide
  obtain rfl | ⟨rfl,rfl | rfl⟩ := hm
  · cases afterReturn with
    | true =>
      obtain rfl := hc rfl
      simp [lines,lineState,hcl.symm]
    | false => simp [lines,lineState,hcl.symm]
  · simp [lines,lineState,hcl]
  · simp [lines,lineState,hcl]

/-- What the format says of a frame, its mark and the rest. -/
theorem decode_frame {frame mark rest : Bytes}
    (hm : mark = [lf,lf] ∨ mark = [cr,cr] ∨ mark = [cr,lf,cr,lf])
    (hno : ∀ a b, frame = a ++ b → b ≠ [] → boundary (b ++ (mark ++ rest)) = 0) :
    decode (frame ++ (mark ++ rest)) =
      (events [] (frameLines frame ++ [[]])).filterMap decodeEvent ++ decode rest := by
  have hstate : (lineState false [] frame).1 = true → (lineState false [] frame).2 = [] := fun h =>
    (lineState_true (fun h => by cases h) h).1
  have hmark : mark = [lf,lf] ∨
      (lineState false [] frame).1 = false ∧ (mark = [cr,cr] ∨ mark = [cr,lf,cr,lf]) := by
    obtain h | h := hm
    · exact .inl h
    · refine .inr ⟨?_,h⟩
      by_contra htrue
      obtain ⟨-,hfront⟩ := lineState_true (fun h => by cases h) (Bool.not_eq_false _ ▸ htrue)
      obtain ⟨-,hfalse⟩ | ⟨front,hfront⟩ := hfront
      · cases hfalse
      · -- a return before the mark would make an earlier mark
        have hzero := hno front [cr] hfront (by simp)
        obtain rfl | rfl := h
        · simp [boundary,lf,cr] at hzero
        · simp [boundary,lf,cr] at hzero
  obtain ⟨hlines,hcur⟩ := lines_mark hstate hmark
  have hframe : lines false [] (frame ++ mark) = frameLines frame ++ [[]] := by
    rw [frameLines,lines_append,lines_append,hlines,List.append_assoc]
  have hafter : (lineState false [] (frame ++ mark)).2 = [] := by
    rw [lineState_append]
    exact hcur
  unfold decode
  rw [← List.append_assoc,lines_append,hframe,hafter,events_append,eventState_snoc_nil,
    List.filterMap_append]
  congr 2
  cases (lineState false [] (frame ++ mark)).1 with
  | true => exact events_lines_true rest
  | false => rfl

/-- The ends of lines cut an encoding. -/
theorem utf8Valid_lines {afterReturn : Bool} {current frame : Bytes}
    (h : afterReturn = true → current = []) : utf8Valid (current ++ frame) = true ↔
      ∀ line ∈ lines afterReturn current (frame ++ [lf]), utf8Valid line = true := by
  have hcl : cr ≠ lf := by decide
  induction frame generalizing afterReturn current with
  | nil =>
    cases afterReturn with
    | true =>
      obtain rfl := h rfl
      simp [lines,utf8Valid_nil]
    | false => simp [lines]
  | cons b frame ih =>
    rw [List.cons_append,lines]
    split
    · rename_i hskip
      obtain rfl := h hskip.1
      obtain rfl := hskip.2
      have hih := @ih false [] (fun h => by cases h)
      refine (utf8Valid_append_ascii (by decide)).trans (Iff.trans ?_ hih)
      simp [utf8Valid_nil]
    · split
      · rename_i hend
        have hascii : b.toNat < 128 := by
          obtain rfl | rfl := hend <;> decide
        have hih := @ih (b = cr) [] (fun _ => rfl)
        rw [List.forall_mem_cons]
        exact (utf8Valid_append_ascii hascii).trans (and_congr_right fun _ => hih)
      · rw [List.append_cons]
        exact ih fun h => by cases h

end Format

/-! Frames that are read as the format has them. -/

/-- A return that is followed by anything but a line feed. -/
def loneReturn : Bytes → Bool
  | a :: b :: rest => (a = cr ∧ b ≠ lf) || loneReturn (b :: rest)
  | _ => false

/-- The line has a colon where one is needed, and its retry value no sign. -/
def plainLine (line : Bytes) : Bool :=
  line ∉ [text "data",text "event",text "id"] ∧
    ¬ ((Format.field line).1 = text "retry" ∧ (Format.field line).2.head? = some 43)

/-- The lines of the frame that are not blank stand together; if it is a text, a return is always
before a line feed or at the end, and every line is plain. -/
def PlainFrame (frame : Bytes) : Prop :=
  Format.Together (Format.frameLines frame) ∧ (utf8Valid frame = true →
    loneReturn frame = false ∧ ∀ line ∈ Format.frameLines frame, plainLine line = true)

instance (frame : Bytes) : Decidable (PlainFrame frame) := inferInstanceAs (Decidable (_ ∧ _))

/-- No blank line follows another line: no event has its end. -/
def Unfinished (bytes : Bytes) : Prop :=
  ∀ line ∈ (Format.lines false [] bytes).dropWhile (· = []), line ≠ []

instance (bytes : Bytes) : Decidable (Unfinished bytes) := inferInstanceAs (Decidable (∀ _ ∈ _,_))

/-- Streams of plain frames, each up to the first mark, and an unfinished rest. -/
inductive Plain : Bytes → Prop
  | rest {buf : Bytes} : findFrameEnd buf = none → Unfinished buf → Plain buf
  | frame {buf : Bytes} {frameEnd len : Nat} : findFrameEnd buf = some (frameEnd,len) →
      PlainFrame (buf.take frameEnd) → Plain (buf.drop (frameEnd + len)) → Plain buf

theorem trimReturns_append (line : Bytes) : trimReturns (line ++ [cr]) = trimReturns line := by
  simp [trimReturns]

theorem trimReturns_of_notMem {line : Bytes} (h : cr ∉ line) : trimReturns line = line := by
  unfold trimReturns
  cases hr : line.reverse with
  | nil =>
    rw [List.reverse_eq_nil_iff.mp hr]
    rfl
  | cons b rest =>
    have hb : b ≠ cr := by
      rintro rfl
      exact h (List.mem_reverse.mp (hr ▸ List.mem_cons_self))
    rw [List.dropWhile_cons,if_neg (by simpa using hb),← hr,List.reverse_reverse]

/-- Where every return is before a line feed, both sides see the same lines. -/
theorem splitLines_eq {current frame : Bytes} (hc : cr ∉ current) (h : loneReturn frame = false) :
    ((splitLines current frame).map trimReturns).filter (· ≠ []) =
      (Format.lines false current (frame ++ [lf])).filter (· ≠ []) := by
  have hcl : cr ≠ lf := by decide
  induction hlen : frame.length using Nat.strongRecOn generalizing current frame with
  | ind n ih =>
    cases frame with
    | nil =>
      by_cases hnil : current = []
      · simp [splitLines,Format.lines,hnil]
      · simp [splitLines,Format.lines,hnil,trimReturns_of_notMem hc]
    | cons b rest =>
      have hshort : rest.length < n := by rw [← hlen]; simp
      by_cases hlf : b = lf
      · subst hlf
        have hrest : loneReturn rest = false := by
          cases rest with
          | nil => rfl
          | cons c rest => exact (Bool.or_eq_false_iff.mp h).2
        have hih := ih rest.length hshort (List.not_mem_nil) hrest rfl
        have hsplit : splitLines current (lf :: rest) = current :: splitLines [] rest := by
          simp [splitLines]
        have hlines : Format.lines false current (lf :: rest ++ [lf]) =
            current :: Format.lines false [] (rest ++ [lf]) := by simp [Format.lines,hcl.symm]
        rw [hsplit,hlines,List.map_cons,trimReturns_of_notMem hc,List.filter_cons,List.filter_cons,hih]
      · by_cases hcr : b = cr
        · subst hcr
          have hsplit : splitLines current (cr :: rest) = splitLines (current ++ [cr]) rest := by
            simp [splitLines,hcl]
          have hlines : Format.lines false current (cr :: rest ++ [lf]) =
              current :: Format.lines true [] (rest ++ [lf]) := by simp [Format.lines]
          rw [hsplit,hlines]
          cases rest with
          | nil => simp [splitLines,Format.lines,trimReturns_append,trimReturns_of_notMem hc]
          | cons c rest =>
            obtain ⟨hc',hrest'⟩ := Bool.or_eq_false_iff.mp h
            obtain rfl : c = lf := by simpa using hc'
            have hrest : loneReturn rest = false := by
              cases rest with
              | nil => rfl
              | cons d rest => exact (Bool.or_eq_false_iff.mp hrest').2
            have hih := ih rest.length (by simp at hshort; omega) (List.not_mem_nil) hrest rfl
            have hsplit' : splitLines (current ++ [cr]) (lf :: rest) =
                (current ++ [cr]) :: splitLines [] rest := by simp [splitLines]
            have hlines' : Format.lines true [] (lf :: rest ++ [lf]) =
                Format.lines false [] (rest ++ [lf]) := by simp [Format.lines]
            rw [hsplit',hlines',List.map_cons,trimReturns_append,trimReturns_of_notMem hc,
              List.filter_cons,List.filter_cons,hih]
        · have hrest : loneReturn rest = false := by
            cases rest with
            | nil => rfl
            | cons c rest => exact (Bool.or_eq_false_iff.mp h).2
          have hmem : cr ∉ current ++ [b] := by
            simpa [hc] using Ne.symm hcr
          have hih := ih rest.length hshort hmem hrest rfl
          simpa [splitLines,Format.lines,hlf,hcr] using hih

/-- A plain line means to the decoder what it means in the format. -/
theorem readLine_eq {line : Bytes} (h : plainLine line = true) (fields : Fields) :
    readLine fields line = Format.interpret fields line := by
  obtain ⟨hcolon,hretry⟩ : line ∉ [text "data",text "event",text "id"] ∧
      ¬ ((Format.field line).1 = text "retry" ∧ (Format.field line).2.head? = some 43) := by
    simpa only [plainLine,decide_eq_true_eq] using h
  unfold readLine Format.interpret
  split
  · rfl
  · cases hs : splitColon line with
    | none =>
      simp only [List.mem_cons,List.not_mem_nil,or_false,not_or] at hcolon
      have hnone : digits [] = none := rfl
      simp [Format.field,hs,hcolon,hnone]
    | some p =>
      obtain ⟨name,value⟩ := p
      have hparse : name = text "retry" → parseU64 (stripSpace value) = digits (stripSpace value) := by
        intro hname
        have hsign : (stripSpace value).head? ≠ some 43 := by
          simpa [Format.field,hs,hname] using hretry
        cases hv : stripSpace value with
        | nil => rfl
        | cons b rest =>
          rw [hv] at hsign
          rw [parseU64,if_neg (by simpa using hsign)]
      simp only [Format.field,hs,setField]
      split
      · rfl
      · split
        · rfl
        · split
          · rfl
          · by_cases hname : name = text "retry"
            · rw [if_pos hname,hparse hname]
              cases digits (stripSpace value) with
              | none => simp
              | some n => simp [hname]
            · simp [hname]

theorem readLine_blank (fields : Fields) : readLine fields [] = fields := rfl

theorem foldl_readLine_filter (fields : Fields) (lines : List Bytes) :
    lines.foldl readLine fields = (lines.filter (· ≠ [])).foldl readLine fields := by
  induction lines generalizing fields with
  | nil => rfl
  | cons line rest ih =>
    by_cases hline : line = []
    · subst hline
      simpa [readLine_blank] using ih fields
    · simpa [hline] using ih (readLine fields line)

theorem foldl_readLine_eq (fields : Fields) {lines : List Bytes}
    (h : ∀ line ∈ lines, plainLine line = true) :
    lines.foldl readLine fields = lines.foldl Format.interpret fields := by
  induction lines generalizing fields with
  | nil => rfl
  | cons line rest ih =>
    rw [List.foldl_cons,List.foldl_cons,readLine_eq (h line List.mem_cons_self)]
    exact ih _ fun l hl => h l (List.mem_cons_of_mem _ hl)

theorem decodeEvent_all {event : List Bytes} (h : event.all utf8Valid = true) :
    Format.decodeEvent event = ((event.foldl Format.interpret .empty).frame).map .ok := by
  rw [Format.decodeEvent,if_pos h]

theorem decodeEvent_invalid {event : List Bytes} (h : ¬ event.all utf8Valid = true) :
    Format.decodeEvent event = some (.error .invalidUtf8) := by
  rw [Format.decodeEvent,if_neg h]

theorem filterMap_singleton {α β : Type} (f : α → Option β) (a : α) :
    [a].filterMap f = (f a).toList := by
  cases h : f a <;> simp [h]

/-- A plain frame gives what the format says of it. -/
theorem frameResult_eq {frame : Bytes} (h : PlainFrame frame) :
    (frameResult frame).toList =
      (Format.events [] (Format.frameLines frame ++ [[]])).filterMap Format.decodeEvent := by
  obtain ⟨htogether,htext⟩ := h
  have hvalid : utf8Valid frame = true ↔ ∀ line ∈ Format.frameLines frame, utf8Valid line = true :=
    @Format.utf8Valid_lines false [] frame fun h => by cases h
  rw [Format.events_together htogether]
  by_cases hu : utf8Valid frame = true
  · obtain ⟨hreturn,hplain⟩ := htext hu
    have hlines : (frameLines frame).filter (· ≠ []) = (Format.frameLines frame).filter (· ≠ []) :=
      splitLines_eq List.not_mem_nil hreturn
    have hfields : (frameLines frame).foldl readLine .empty =
        ((Format.frameLines frame).filter (· ≠ [])).foldl Format.interpret .empty := by
      rw [foldl_readLine_filter,hlines]
      apply foldl_readLine_eq
      intro line hline
      exact hplain line (List.mem_filter.mp hline).1
    have hall : ((Format.frameLines frame).filter (· ≠ [])).all utf8Valid = true :=
      List.all_eq_true.mpr fun line hline => hvalid.mp hu line (List.mem_filter.mp hline).1
    rw [frameResult,if_pos hu,parseFrame,hfields]
    split
    · rename_i hnone
      rw [hnone]
      rfl
    · rw [filterMap_singleton,decodeEvent_all hall]
  · have hbad : ∃ line ∈ Format.frameLines frame, ¬ utf8Valid line = true := by
      by_contra hno
      push Not at hno
      exact hu (hvalid.mpr hno)
    obtain ⟨line,hline,hinvalid⟩ := hbad
    have hmem : line ∈ (Format.frameLines frame).filter (· ≠ []) := by
      refine List.mem_filter.mpr ⟨hline,?_⟩
      by_contra hnil
      have hempty : line = [] := by simpa using hnil
      subst hempty
      exact hinvalid utf8Valid_nil
    have hall : ¬ ((Format.frameLines frame).filter (· ≠ [])).all utf8Valid = true :=
      fun h => hinvalid (List.all_eq_true.mp h line hmem)
    rw [frameResult,if_neg hu,if_neg (List.ne_nil_of_mem hmem),filterMap_singleton,
      decodeEvent_invalid hall]

/-- Streams of plain frames are read as the format has them. -/
theorem drain_eq_decode {buf : Bytes} (h : Plain buf) : (drain buf).1 = Format.decode buf := by
  induction h with
  | @rest buf hnone hun =>
    rw [drain_of_none hnone,Format.decode,Format.events_blank,Format.events_other hun]
    rfl
  | @frame buf frameEnd len hf hplain _ ih =>
    obtain ⟨frame,mark,rest,rfl,rfl,rfl,hcases,hno⟩ := findFrameEnd_spec hf
    rw [List.take_left] at hplain
    rw [drain_of_some hf,List.take_left]
    have hdrop : (frame ++ (mark ++ rest)).drop (frame.length + mark.length) = rest := by
      rw [← List.append_assoc,← List.length_append,List.drop_left]
    rw [hdrop] at ih ⊢
    rw [Format.decode_frame hcases hno,frameResult_eq hplain,ih]

/-- What is drained does not depend on the pieces, and is what the format says of the stream when
the frames of the stream are plain. -/
theorem run_decode (calls : List Call) :
    (run calls []).1 ++ (drain (run calls []).2).1 = (drain (pushed calls)).1 ∧
    (Plain (pushed calls) →
      (run calls []).1 ++ (drain (run calls []).2).1 = Format.decode (pushed calls)) := by
  have hrun := run_eq_drain calls []
  rw [List.nil_append] at hrun
  refine ⟨hrun,fun h => ?_⟩
  rw [hrun,drain_eq_decode h]

/-- A lone return is not taken for the end of a line, nor is a field without colon for a field, and
a blank line whose end is of another kind than the line before it does not end the event. -/
theorem run_decode_fails :
    ((run [.pushSlice (text "data: one\rdata: two\n\n")] []).1 ++ (drain (run [.pushSlice (text "data: one\rdata: two\n\n")] []).2).1 ≠
      Format.decode (pushed [.pushSlice (text "data: one\rdata: two\n\n")])) ∧
    ((run [.pushSlice (text "data\n\n")] []).1 ++ (drain (run [.pushSlice (text "data\n\n")] []).2).1 ≠
      Format.decode (pushed [.pushSlice (text "data\n\n")])) ∧
    ((run [.pushSlice (text "data: one\n\r\ndata: two\n\n")] []).1 ++ (drain (run [.pushSlice (text "data: one\n\r\ndata: two\n\n")] []).2).1 ≠
      Format.decode (pushed [.pushSlice (text "data: one\n\r\ndata: two\n\n")])) := by
  decide

/-- Two events, cut inside the mark between them. -/
theorem run_decode_two :
    (run [.pushSlice (text "event: a\ndata: one\r\n\r"),.drain,.pushSlice (text "\n:\ndata: two\n\nid: 3")] []).1 ++
        (drain (run [.pushSlice (text "event: a\ndata: one\r\n\r"),.drain,
          .pushSlice (text "\n:\ndata: two\n\nid: 3")] []).2).1 =
      Format.decode (text "event: a\ndata: one\r\n\r\n:\ndata: two\n\nid: 3") := by
  have hplain : Plain (text "event: a\ndata: one\r\n\r\n:\ndata: two\n\nid: 3") := by
    refine @Plain.frame _ 18 4 (by decide) (by decide) ?_
    refine @Plain.frame _ 11 2 (by decide) (by decide) ?_
    exact .rest (by decide) (by decide)
  exact (run_decode [.pushSlice (text "event: a\ndata: one\r\n\r"),.drain,
    .pushSlice (text "\n:\ndata: two\n\nid: 3")]).2 hplain

end Nefor.Sse
