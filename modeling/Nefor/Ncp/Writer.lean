import Mathlib.Data.List.DropRight
import Nefor.Except
import Nefor.Ncp.Connection
import Nefor.Throughout

/-! The outbound side of a connection: its channel, the bounded queue of the writer task, and what
becomes of each line. -/
namespace Nefor.Ncp

/-- What the broker sends to a writer. -/
inductive ConnectionOutbound
  | send (payload : String)
  | sendLosslessBatch (payloads : List String)
  | close
  deriving DecidableEq, Repr

inductive QueuedOutbound
  | lossy (line : String)
  | lossless (lines : List String)
  deriving DecidableEq, Repr

def QueuedOutbound.isLossy : QueuedOutbound → Bool
  | lossy _ => true
  | lossless _ => false

/-- Where the writer task stands; each of its awaits is a phase. -/
inductive Phase
  | draining (left : Nat)
  | popping
  | writing (line : String)
  | flushing
  | receiving
  | flushingLast
  | reporting (ending : WriterEnd) (last : Bool)
  | shuttingDown
  | done
  deriving DecidableEq, Repr

/-- The connection in the routing table (`connected`), the channel and the writer task. -/
structure Outbox where
  name : PluginName
  connected : Bool := true
  /-- Whether the receiving half of the channel still takes messages. -/
  isOpen : Bool := true
  rx : List ConnectionOutbound := []
  q : List QueuedOutbound := []
  queuedLossy : Nat := 0
  closeAfterDrain : Bool := false
  phase : Phase := .draining 4096
  lost : Nat := 0
  /-- What the broker took off the counter of lost lines. -/
  reported : Nat := 0
  notices : List WriterEnd := []
  /-- All that the channel took, and all that was written. -/
  sent : List ConnectionOutbound := []
  written : List String := []
  deriving DecidableEq, Repr

namespace Outbox

/-! The broker. -/

def send (s : Outbox) (message : ConnectionOutbound) : Except AdmissionError Outbox :=
  if s.isOpen then .ok { s with rx := s.rx ++ [message], sent := s.sent ++ [message] }
  else .error (.writerClosed s.name)

def deliver (s : Outbox) (payload : String) : Except AdmissionError Outbox := do
  let payload ← admitFrame payload
  if s.connected then s.send (.send (withTrailingNewline payload)) else .error (.unavailable s.name)

def deliverBatch (s : Outbox) (payloads : List String) : Except AdmissionError Outbox := do
  let payloads ← payloads.mapM admitFrame
  if s.connected then s.send (.sendLosslessBatch (payloads.map withTrailingNewline))
  else .error (.unavailable s.name)

/-- The sender goes out of the table with the close. -/
def forceClose (s : Outbox) : Outbox :=
  if s.connected then
    { (s.send .close).toOption.getD s with connected := false }
  else s

/-! The writer task. -/

/-- An ordinary line takes the place of the oldest one when the queue is full. -/
def pushSend (cap : Nat) (payload : String) (s : Outbox) : Outbox :=
  let s := if s.queuedLossy ≥ cap then
      let s := { s with lost := s.lost + 1 }
      match s.q.findIdx? (·.isLossy) with
      | some index => { s with q := s.q.eraseIdx index, queuedLossy := s.queuedLossy - 1 }
      | none => s
    else s
  if cap > 0 then { s with q := s.q ++ [.lossy payload], queuedLossy := s.queuedLossy + 1 } else s

def pushBatch (payloads : List String) (s : Outbox) : Outbox :=
  if payloads = [] then s else { s with q := s.q ++ [.lossless payloads] }

/-- One `try_recv` of the burst. -/
def drain (cap : Nat) (s : Outbox) : Nat → Outbox
  | 0 => { s with phase := .popping }
  | left + 1 => match s.rx with
    | .send payload :: rest => pushSend cap payload { s with rx := rest, phase := .draining left }
    | .sendLosslessBatch payloads :: rest =>
      pushBatch payloads { s with rx := rest, phase := .draining left }
    | .close :: rest => { s with rx := rest, closeAfterDrain := true, phase := .popping }
    | [] =>
      if s.connected then { s with phase := .popping }
      else { s with closeAfterDrain := true, phase := .popping }

def popNextLine (q : List QueuedOutbound) (queuedLossy : Nat) :
    Option String × List QueuedOutbound × Nat :=
  match q with
  | [] => (none,[],queuedLossy)
  | .lossy line :: q => (some line,q,queuedLossy - 1)
  | .lossless lines :: q => match lines with
    | [] => (none,q,queuedLossy)
    | [line] => (some line,q,queuedLossy)
    | line :: more => (some line,.lossless more :: q,queuedLossy)

def pop (s : Outbox) : Outbox :=
  let (line,q,queuedLossy) := popNextLine s.q s.queuedLossy
  let s := { s with q, queuedLossy }
  match line with
  | some line => { s with phase := .writing line }
  | none => { s with phase := if s.closeAfterDrain then .flushingLast else .receiving }

/-- A blocking receive; the queue is empty here. -/
def receive (cap : Nat) (s : Outbox) : Outbox :=
  match s.rx with
  | .send payload :: rest =>
    let s := { s with rx := rest, phase := .draining 4096 }
    let s := if cap = 0 then { s with lost := s.lost + 1 } else s
    if cap > 0 then { s with q := s.q ++ [.lossy payload], queuedLossy := s.queuedLossy + 1 } else s
  | .sendLosslessBatch payloads :: rest =>
    pushBatch payloads { s with rx := rest, phase := .draining 4096 }
  | .close :: rest => { s with rx := rest, closeAfterDrain := true, phase := .draining 4096 }
  | [] =>
    if s.connected then s else { s with closeAfterDrain := true, phase := .draining 4096 }

/-- The writer up to the end of what it waits for; `good` says how an I/O operation ends. -/
def work (cap : Nat) (good : Bool) (s : Outbox) : Outbox :=
  match s.phase with
  | .draining left => drain cap s left
  | .popping => pop s
  | .writing line =>
    if good then { s with written := s.written ++ [line], phase := .flushing }
    else { s with isOpen := false, phase := .reporting .writeIo false }
  | .flushing =>
    if good then { s with phase := .draining 4096 }
    else { s with isOpen := false, phase := .reporting .flushIo false }
  | .receiving => receive cap s
  | .flushingLast =>
    if good then { s with phase := .shuttingDown }
    else { s with isOpen := false, phase := .reporting .flushIo true }
  | .reporting ending last =>
    { s with notices := s.notices ++ [ending], phase := if last then .shuttingDown else .done }
  | .shuttingDown => { s with isOpen := false, phase := .done }
  | .done => s

/-- What may happen next: a call of the broker, the broker looking at the counter, the sender
dropped without a close, or the writer. -/
inductive Act
  | deliver (payload : String)
  | deliverBatch (payloads : List String)
  | forceClose
  | hangUp
  | observe
  | work (good : Bool)
  deriving DecidableEq, Repr

def step (cap : Nat) (s : Outbox) : Act → Outbox
  | .deliver payload => (s.deliver payload).toOption.getD s
  | .deliverBatch payloads => (s.deliverBatch payloads).toOption.getD s
  | .forceClose => s.forceClose
  | .hangUp => { s with connected := false }
  | .observe => { s with reported := s.reported + s.lost, lost := 0 }
  | .work good => s.work cap good

/-- A connection that was just attached, and what happened to it. -/
def run (cap : Nat) (name : PluginName) (acts : List Act) : Outbox :=
  acts.foldl (step cap) { name }

/-- The failure of a write or of a flush, if that is what happens next. -/
def failure (s : Outbox) : Act → Option WriterEnd
  | .work false => match s.phase with
    | .writing _ => some .writeIo
    | .flushing => some .flushIo
    | .flushingLast => some .flushIo
    | _ => none
  | _ => none

end Outbox

/-! What becomes of the lines. -/

structure Line where
  text : String
  isOrdinary : Bool
  deriving DecidableEq, Repr

def ConnectionOutbound.lines : ConnectionOutbound → List Line
  | .send payload => [⟨payload,true⟩]
  | .sendLosslessBatch payloads => payloads.map (⟨·,false⟩)
  | .close => []

def QueuedOutbound.lines : QueuedOutbound → List Line
  | .lossy line => [⟨line,true⟩]
  | .lossless lines => lines.map (⟨·,false⟩)

/-- A line and whether it is kept. -/
structure Fate where
  line : Line
  isKept : Bool
  deriving DecidableEq, Repr

/-- The lines that were put into the channel. -/
def Outbox.enqueued (s : Outbox) : List Line := s.sent.flatMap (·.lines)

/-- What the queue does with the lines put into it: those kept are written, in their order, and the
others are counted. -/
structure Settled (cap : Nat) (s : Outbox) (fates : List Fate) : Prop where
  lines : fates.map (·.line) = s.enqueued
  written : s.written = (fates.filter (·.isKept)).map (·.line.text)
  lossless : ∀ fate ∈ fates, fate.line.isOrdinary = false → fate.isKept
  recent : ∀ fate ∈ (fates.filter (·.line.isOrdinary)).rtake cap, fate.isKept
  counted : fates.countP (fun fate => !fate.isKept) = s.lost + s.reported

/-! The fates of lines: whatever is dropped has enough ordinary lines after it. -/

def ordinary (fates : List Fate) : Nat := fates.countP (·.line.isOrdinary)

def kept (fates : List Fate) : List Line := (fates.filter (·.isKept)).map (·.line)

def dropped (fates : List Fate) : Nat := fates.countP fun fate => !fate.isKept

def Spared (cap : Nat) : List Fate → Prop
  | [] => True
  | fate :: rest =>
    (fate.isKept = false → fate.line.isOrdinary ∧ cap ≤ ordinary rest) ∧ Spared cap rest

@[simp] theorem ordinary_append (a b : List Fate) : ordinary (a ++ b) = ordinary a + ordinary b :=
  List.countP_append

theorem ordinary_cons (fate : Fate) (rest : List Fate) :
    ordinary (fate :: rest) = ordinary rest + if fate.line.isOrdinary then 1 else 0 :=
  List.countP_cons

@[simp] theorem kept_append (a b : List Fate) : kept (a ++ b) = kept a ++ kept b := by
  unfold kept
  rw [List.filter_append,List.map_append]

@[simp] theorem dropped_append (a b : List Fate) : dropped (a ++ b) = dropped a + dropped b :=
  List.countP_append

/-- What follows may be replaced by something with no fewer ordinary lines. -/
theorem Spared.replace {cap : Nat} {a b c : List Fate} (h : Spared cap (a ++ b)) (hc : Spared cap c)
    (hbc : ordinary b ≤ ordinary c) : Spared cap (a ++ c) := by
  induction a with
  | nil => exact hc
  | cons fate a ih =>
    refine ⟨fun hdropped => ?_,ih h.2⟩
    obtain ⟨hline,hcap⟩ := h.1 hdropped
    refine ⟨hline,?_⟩
    change cap ≤ ordinary (a ++ b) at hcap
    change cap ≤ ordinary (a ++ c)
    rw [ordinary_append] at hcap ⊢
    omega

theorem Spared.right {cap : Nat} {a b : List Fate} (h : Spared cap (a ++ b)) : Spared cap b := by
  induction a with
  | nil => exact h
  | cons fate a ih => exact ih h.2

theorem Spared.append {cap : Nat} {a b : List Fate} (h : Spared cap a) (hb : Spared cap b) :
    Spared cap (a ++ b) := by
  apply Spared.replace (b := []) _ hb (Nat.zero_le _)
  rwa [List.append_nil]

theorem spared_of_kept {cap : Nat} {fates : List Fate} (h : ∀ fate ∈ fates, fate.isKept) :
    Spared cap fates := by
  induction fates with
  | nil => trivial
  | cons fate rest ih =>
    rw [List.forall_mem_cons] at h
    refine ⟨fun hdropped => ?_,ih h.2⟩
    rw [h.1] at hdropped
    cases hdropped

theorem Spared.lossless {cap : Nat} {fates : List Fate} (h : Spared cap fates) :
    ∀ fate ∈ fates, fate.line.isOrdinary = false → fate.isKept := by
  induction fates with
  | nil => exact fun fate hmem => absurd hmem List.not_mem_nil
  | cons fate rest ih =>
    rw [List.forall_mem_cons]
    refine ⟨fun hline => ?_,ih h.2⟩
    by_contra hdropped
    rw [Bool.not_eq_true] at hdropped
    rw [(h.1 hdropped).1] at hline
    cases hline

/-- The last ordinary lines are kept. -/
theorem Spared.recent {cap : Nat} {fates : List Fate} (h : Spared cap fates) :
    ∀ fate ∈ (fates.filter (·.line.isOrdinary)).rtake cap, fate.isKept := by
  induction fates with
  | nil =>
    intro fate hmem
    simp at hmem
  | cons fate rest ih =>
    have ih := ih h.2
    by_cases hline : fate.line.isOrdinary
    · rw [List.filter_cons_of_pos (by exact hline)]
      by_cases hcap : cap ≤ ordinary rest
      · have hlen : cap ≤ (rest.filter (·.line.isOrdinary)).length := by
          rwa [← List.countP_eq_length_filter]
        rw [List.rtake] at ih ⊢
        rw [List.length_cons,Nat.succ_sub hlen,List.drop_succ_cons]
        exact ih
      · intro other hmem
        have hother := List.mem_of_mem_drop hmem
        obtain rfl | hrest := List.mem_cons.mp hother
        · by_contra hdropped
          rw [Bool.not_eq_true] at hdropped
          exact hcap (h.1 hdropped).2
        · apply ih
          have hlen : (rest.filter (·.line.isOrdinary)).length - cap = 0 := by
            rw [← List.countP_eq_length_filter]
            change ordinary rest - cap = 0
            omega
          rw [List.rtake,hlen,List.drop_zero]
          exact hrest
    · rw [List.filter_cons_of_neg (by exact hline)]
      exact ih

/-! The queue. -/

/-- How many ordinary lines are in the queue. -/
def lossyIn (q : List QueuedOutbound) : Nat := q.countP (·.isLossy)

/-- The fates of the lines taken out of the queue (`past`) and of those put into it since (`pending`),
where so many lines were counted as lost. -/
structure Ledger (cap : Nat) (past pending : List Fate) (q : List QueuedOutbound)
    (queuedLossy lost : Nat) : Prop where
  count : queuedLossy = lossyIn q
  bound : queuedLossy ≤ cap
  nonempty : .lossless [] ∉ q
  queued : kept pending = q.flatMap (·.lines)
  counted : dropped (past ++ pending) = lost
  spared : Spared cap (past ++ pending)

namespace Ledger
variable {cap queuedLossy lost : Nat} {past pending : List Fate} {q : List QueuedOutbound}

theorem lossyIn_eq (q : List QueuedOutbound) :
    lossyIn q = (q.flatMap (·.lines)).countP (·.isOrdinary) := by
  induction q with
  | nil => rfl
  | cons item q ih =>
    rw [List.flatMap_cons,List.countP_append,← ih,lossyIn,List.countP_cons]
    cases item with
    | lossy line =>
      change lossyIn q + 1 = 1 + lossyIn q
      omega
    | lossless lines =>
      have hnone : (QueuedOutbound.lossless lines).lines.countP (·.isOrdinary) = 0 := by
        rw [List.countP_eq_zero]
        intro line hline
        obtain ⟨text,-,rfl⟩ := List.mem_map.mp hline
        exact Bool.false_ne_true
      rw [hnone,Nat.zero_add]
      rfl

/-- The ordinary lines in the queue are among those that were put into it. -/
theorem lossyIn_le {fates : List Fate} (h : kept fates = q.flatMap (·.lines)) :
    lossyIn q ≤ ordinary fates := by
  rw [lossyIn_eq,← h,kept,List.countP_map]
  calc
    _ ≤ fates.countP ((·.isOrdinary) ∘ (·.line)) := List.filter_sublist.countP_le
    _ = ordinary fates := rfl

/-- Where a line that is kept comes from. -/
theorem split_kept {fates : List Fate} {a b : List Line} {line : Line}
    (h : kept fates = a ++ line :: b) :
    ∃ p r, fates = p ++ ⟨line,true⟩ :: r ∧ kept p = a ∧ kept r = b := by
  induction fates generalizing a with
  | nil => simp [kept] at h
  | cons fate rest ih =>
    obtain ⟨text,isKept⟩ := fate
    cases isKept with
    | false =>
      obtain ⟨p,r,rfl,hp,hr⟩ := ih h
      exact ⟨⟨text,false⟩ :: p,r,rfl,hp,hr⟩
    | true =>
      change text :: kept rest = a ++ line :: b at h
      cases a with
      | nil =>
        obtain ⟨rfl,hrest⟩ := List.cons_eq_cons.mp h
        exact ⟨[],rest,rfl,rfl,hrest⟩
      | cons first a =>
        obtain ⟨rfl,hrest⟩ := List.cons_eq_cons.mp h
        obtain ⟨p,r,rfl,hp,hr⟩ := ih hrest
        exact ⟨⟨text,true⟩ :: p,r,rfl,congrArg (text :: ·) hp,hr⟩

theorem push (h : Ledger cap past pending q queuedLossy lost) (hroom : queuedLossy < cap)
    (payload : String) :
    Ledger cap past (pending ++ [⟨⟨payload,true⟩,true⟩]) (q ++ [.lossy payload]) (queuedLossy + 1)
      lost where
  count := by
    rw [lossyIn,List.countP_append,h.count]
    rfl
  bound := hroom
  nonempty := by
    rw [List.mem_append,not_or]
    exact ⟨h.nonempty,by simp⟩
  queued := by
    rw [kept_append,h.queued,List.flatMap_append]
    rfl
  counted := by
    rw [← List.append_assoc,dropped_append,h.counted]
    rfl
  spared := by
    rw [← List.append_assoc]
    exact h.spared.append (spared_of_kept (by simp))

theorem batch (h : Ledger cap past pending q queuedLossy lost) {payloads : List String}
    (hne : payloads ≠ []) :
    Ledger cap past (pending ++ payloads.map fun payload => ⟨⟨payload,false⟩,true⟩)
      (q ++ [.lossless payloads]) queuedLossy lost where
  count := by
    rw [lossyIn,List.countP_append,h.count]
    rfl
  bound := h.bound
  nonempty := by
    rw [List.mem_append,not_or,List.mem_singleton]
    exact ⟨h.nonempty,fun heq => hne (QueuedOutbound.lossless.inj heq).symm⟩
  queued := by
    have hkept : kept (payloads.map fun payload => ⟨⟨payload,false⟩,true⟩) =
        payloads.map (⟨·,false⟩) := by
      rw [kept,List.filter_eq_self.mpr (by simp),List.map_map]
      rfl
    rw [kept_append,h.queued,List.flatMap_append,hkept,List.flatMap_singleton]
    rfl
  counted := by
    have hnone : dropped (payloads.map fun payload => ⟨⟨payload,false⟩,true⟩) = 0 := by
      rw [dropped,List.countP_eq_zero]
      simp
    rw [← List.append_assoc,dropped_append,h.counted,hnone]
    rfl
  spared := by
    rw [← List.append_assoc]
    exact h.spared.append (spared_of_kept (by simp))

/-- Without a queue an ordinary line is lost at once. -/
theorem lose (h : Ledger 0 past pending q queuedLossy lost) (payload : String) :
    Ledger 0 past (pending ++ [⟨⟨payload,true⟩,false⟩]) q queuedLossy (lost + 1) where
  count := h.count
  bound := h.bound
  nonempty := h.nonempty
  queued := by
    rw [kept_append,h.queued]
    exact List.append_nil _
  counted := by
    rw [← List.append_assoc,dropped_append,h.counted]
    rfl
  spared := by
    rw [← List.append_assoc]
    exact h.spared.append ⟨fun _ => ⟨rfl,Nat.zero_le _⟩,trivial⟩

/-- The oldest ordinary line makes place for a new one. -/
theorem exchange (h : Ledger cap past pending q queuedLossy lost) (hfull : queuedLossy = cap)
    {index : Nat} (hindex : q.findIdx? (·.isLossy) = some index) (payload : String) :
    ∃ pending', pending'.map (·.line) = pending.map (·.line) ++ [⟨payload,true⟩] ∧
      Ledger cap past pending' (q.eraseIdx index ++ [.lossy payload]) (queuedLossy - 1 + 1)
        (lost + 1) := by
  obtain ⟨hlt,hlossy,hfirst⟩ := List.findIdx?_eq_some_iff_getElem.mp hindex
  have hq : q = q.take index ++ q[index] :: q.drop (index + 1) := by
    rw [List.getElem_cons_drop,List.take_append_drop]
  have herase : q.eraseIdx index = q.take index ++ q.drop (index + 1) :=
    List.eraseIdx_eq_take_drop_succ ..
  have hnone : lossyIn (q.take index) = 0 := by
    rw [lossyIn,List.countP_eq_zero]
    intro item hitem
    obtain ⟨j,hj,rfl⟩ := List.mem_take_iff_getElem.mp hitem
    exact hfirst j (by omega)
  obtain ⟨oldest,holdest⟩ : ∃ oldest, q[index] = .lossy oldest := by
    cases hitem : q[index] with
    | lossy oldest => exact ⟨oldest,rfl⟩
    | lossless lines =>
      rw [hitem] at hlossy
      cases hlossy
  rw [holdest] at hq
  have hcount : lossyIn q = lossyIn (q.drop (index + 1)) + 1 := by
    conv_lhs => rw [hq]
    rw [lossyIn,List.countP_append,List.countP_cons]
    change lossyIn (q.take index) + (lossyIn (q.drop (index + 1)) + 1) = _
    rw [hnone,Nat.zero_add]
  have hqueued := h.queued
  rw [hq,List.flatMap_append,List.flatMap_cons] at hqueued
  obtain ⟨p,r,rfl,hp,hr⟩ := split_kept hqueued
  have hroom := lossyIn_le hr
  have hfull := h.count.symm.trans hfull
  have hreplaced := h.spared
  refine ⟨p ++ ⟨⟨oldest,true⟩,false⟩ :: (r ++ [⟨⟨payload,true⟩,true⟩]),by simp,?_,?_,?_,?_,?_,?_⟩
  · rw [herase,lossyIn,List.countP_append,List.countP_append,h.count,hcount,Nat.add_sub_cancel]
    change _ = lossyIn (q.take index) + lossyIn (q.drop (index + 1)) + 1
    rw [hnone,Nat.zero_add]
  · rw [h.count,hcount,Nat.add_sub_cancel,← hfull,hcount]
  · intro hmem
    obtain hmem | hmem := List.mem_append.mp hmem
    · exact h.nonempty (List.mem_of_mem_eraseIdx hmem)
    · simp at hmem
  · rw [herase,kept_append,hp,List.flatMap_append,List.flatMap_append]
    change _ ++ kept (r ++ _) = _
    rw [kept_append,hr,List.append_assoc]
    rfl
  · have hcounted := h.counted
    simp only [dropped,List.countP_cons,List.countP_append] at hcounted ⊢
    simp at hcounted ⊢
    omega
  · rw [← List.append_assoc] at hreplaced ⊢
    apply hreplaced.replace
    · refine ⟨fun _ => ⟨rfl,?_⟩,hreplaced.right.2.append (spared_of_kept (by simp))⟩
      rw [ordinary_append]
      change cap ≤ ordinary r + 1
      omega
    · rw [ordinary_cons,ordinary_cons,ordinary_append]
      exact Nat.add_le_add_right (Nat.le_add_right _ _) 1

/-- The first line of the queue is the oldest that was kept. -/
theorem take (h : Ledger cap past pending q queuedLossy lost) (first : Line)
    (q' : List QueuedOutbound) (hq : q.flatMap (·.lines) = first :: q'.flatMap (·.lines))
    (hle : lossyIn q' ≤ lossyIn q) (hne : .lossless [] ∉ q') :
    ∃ taken pending', pending = taken ++ pending' ∧ (kept taken).map (·.text) = [first.text] ∧
      Ledger cap (past ++ taken) pending' q' (lossyIn q') lost := by
  obtain ⟨p,r,rfl,hp,hr⟩ := split_kept (a := []) (h.queued.trans hq)
  have hpast : past ++ (p ++ ⟨first,true⟩ :: r) = past ++ (p ++ [⟨first,true⟩]) ++ r := by simp
  refine ⟨p ++ [⟨first,true⟩],r,by simp,?_,rfl,?_,hne,hr,?_,?_⟩
  · rw [kept_append,hp]
    rfl
  · exact hle.trans (h.count ▸ h.bound)
  · rw [← hpast]
    exact h.counted
  · rw [← hpast]
    exact h.spared

/-- What is popped is the oldest line that was kept. -/
theorem pop (h : Ledger cap past pending q queuedLossy lost) {line : String}
    {q' : List QueuedOutbound} {left : Nat}
    (hpop : Outbox.popNextLine q queuedLossy = (some line,q',left)) :
    ∃ taken pending', pending = taken ++ pending' ∧ (kept taken).map (·.text) = [line] ∧
      Ledger cap (past ++ taken) pending' q' left lost := by
  have hcount := h.count
  have hnonempty := h.nonempty
  cases q with
  | nil => cases hpop
  | cons item q =>
    rw [List.mem_cons,not_or] at hnonempty
    cases item with
    | lossy first =>
      rw [Outbox.popNextLine,Prod.mk.injEq,Prod.mk.injEq,Option.some.injEq] at hpop
      obtain ⟨rfl,rfl,rfl⟩ := hpop
      have hleft : lossyIn (.lossy first :: q) = lossyIn q + 1 := List.countP_cons
      have htake := h.take ⟨first,true⟩ q rfl (by omega) hnonempty.2
      rwa [show lossyIn q = queuedLossy - 1 by omega] at htake
    | lossless lines =>
      have hleft : lossyIn (.lossless lines :: q) = lossyIn q := rfl
      cases lines with
      | nil => cases hpop
      | cons first more =>
        cases more with
        | nil =>
          rw [Outbox.popNextLine,Prod.mk.injEq,Prod.mk.injEq,Option.some.injEq] at hpop
          obtain ⟨rfl,rfl,rfl⟩ := hpop
          have htake := h.take ⟨first,false⟩ q rfl hleft.ge hnonempty.2
          rwa [← hleft,← hcount] at htake
        | cons second more =>
          rw [Outbox.popNextLine.eq_def] at hpop
          simp only [Prod.mk.injEq,Option.some.injEq] at hpop
          obtain ⟨rfl,rfl,rfl⟩ := hpop
          have htake := h.take ⟨first,false⟩ (.lossless (second :: more) :: q) rfl
            hleft.ge (by simp [hnonempty.2])
          rwa [show lossyIn (.lossless (second :: more) :: q) = queuedLossy from hcount.symm] at htake

/-- Nothing is popped only off an empty queue. -/
theorem pop_none (h : Ledger cap past pending q queuedLossy lost) {q' : List QueuedOutbound} {left : Nat}
    (hpop : Outbox.popNextLine q queuedLossy = (none,q',left)) : q = [] ∧ q' = [] ∧ left = queuedLossy := by
  have hnonempty := h.nonempty
  cases q with
  | nil =>
    cases hpop
    exact ⟨rfl,rfl,rfl⟩
  | cons item q =>
    rw [List.mem_cons,not_or] at hnonempty
    cases item with
    | lossy first => cases hpop
    | lossless lines =>
      cases lines with
      | nil => exact absurd rfl hnonempty.1
      | cons first more =>
        cases more with
        | nil => cases hpop
        | cons second more => cases hpop

end Ledger

/-! The outbound side as a whole. -/

/-- The line that is being written. -/
def Phase.inHand : Phase → List String
  | writing line => [line]
  | _ => []

/-- The phases after the last line. -/
def Phase.IsLast : Phase → Prop
  | flushingLast | shuttingDown | done => True
  | _ => False

/-- The phases between two lines. -/
def Phase.IsIntake : Phase → Prop
  | draining _ | popping => True
  | _ => False

theorem Phase.IsIntake.inHand {phase : Phase} (h : phase.IsIntake) : phase.inHand = [] := by
  cases phase <;> first | rfl | exact h.elim

namespace Outbox

/-- A write or a flush has failed. -/
def Failed (s : Outbox) : Prop := s.notices ≠ [] ∨ ∃ ending last, s.phase = .reporting ending last

/-- What became of the lines that were taken off the channel. -/
structure Booked (cap : Nat) (s : Outbox) (past pending : List Fate) : Prop where
  ledger : Ledger cap past pending s.q s.queuedLossy (s.lost + s.reported)
  lines : (past ++ pending).map (·.line) ++ s.rx.flatMap (·.lines) = s.enqueued
  written : ¬ s.Failed → (kept past).map (·.text) = s.written ++ s.phase.inHand

structure Sound (cap : Nat) (s : Outbox) : Prop where
  booked : ∃ past pending, Booked cap s past pending
  closing : s.closeAfterDrain → s.connected = false ∧ s.rx = []
  close : .close ∈ s.rx → s.connected = false
  closeLast : .close ∉ s.rx.dropLast
  last : s.phase.IsLast → ¬ s.Failed → s.closeAfterDrain ∧ s.q = []
  receiving : s.phase = .receiving → s.q = []

variable {cap : Nat} {s : Outbox}

theorem sound_start (cap : Nat) (name : PluginName) : Sound cap { name } where
  booked := by
    refine ⟨[],[],⟨⟨rfl,Nat.zero_le _,List.not_mem_nil,rfl,rfl,trivial⟩,rfl,fun _ => rfl⟩⟩
  closing h := by cases h
  close h := absurd h List.not_mem_nil
  closeLast := List.not_mem_nil
  last h := h.elim
  receiving h := by cases h

/-- While the sender is in the table nothing but the end of the connection is new to the channel. -/
theorem Sound.send (h : Sound cap s) (hconn : s.connected) (message : ConnectionOutbound)
    (connected : Bool) (hclose : message = .close → connected = false) :
    Sound cap { s with rx := s.rx ++ [message], sent := s.sent ++ [message], connected } where
  booked := by
    obtain ⟨past,pending,hb⟩ := h.booked
    refine ⟨past,pending,hb.ledger,?_,hb.written⟩
    have hlines := hb.lines
    unfold enqueued at hlines ⊢
    rw [List.flatMap_append,List.flatMap_append,← List.append_assoc,hlines]
  closing hc := by
    rw [(h.closing hc).1] at hconn
    cases hconn
  close hmem := by
    obtain hmem | hmem := List.mem_append.mp hmem
    · rw [h.close hmem] at hconn
      cases hconn
    · exact hclose (List.mem_singleton.mp hmem).symm
  closeLast := by
    rw [List.dropLast_concat]
    intro hmem
    rw [h.close hmem] at hconn
    cases hconn
  last := h.last
  receiving := h.receiving

theorem Sound.unplug (h : Sound cap s) : Sound cap { s with connected := false } where
  booked := by
    obtain ⟨past,pending,hb⟩ := h.booked
    exact ⟨past,pending,hb.ledger,hb.lines,hb.written⟩
  closing hc := ⟨rfl,(h.closing hc).2⟩
  close _ := rfl
  closeLast := h.closeLast
  last := h.last
  receiving := h.receiving

theorem Sound.admitted (h : Sound cap s) (hconn : s.connected) {message : ConnectionOutbound}
    (hne : message ≠ .close) : Sound cap ((s.send message).toOption.getD s) := by
  unfold Outbox.send
  split
  · have hsend := h.send hconn message s.connected fun heq => absurd heq hne
    exact hsend
  · exact h

theorem Sound.deliver (h : Sound cap s) (payload : String) :
    Sound cap ((s.deliver payload).toOption.getD s) := by
  unfold Outbox.deliver
  cases admitFrame payload with
  | error e => exact h
  | ok line =>
    rw [ok_bind]
    split
    · next hconn => exact h.admitted hconn (by simp)
    · exact h

theorem Sound.deliverBatch (h : Sound cap s) (payloads : List String) :
    Sound cap ((s.deliverBatch payloads).toOption.getD s) := by
  unfold Outbox.deliverBatch
  cases payloads.mapM admitFrame with
  | error e => exact h
  | ok lines =>
    rw [ok_bind]
    split
    · next hconn => exact h.admitted hconn (by simp)
    · exact h

theorem Sound.forceClose (h : Sound cap s) : Sound cap s.forceClose := by
  unfold Outbox.forceClose
  split
  · next hconn =>
    unfold Outbox.send
    split
    · exact h.send hconn .close false fun _ => rfl
    · exact h.unplug
  · exact h

theorem Sound.observe (h : Sound cap s) :
    Sound cap { s with reported := s.reported + s.lost, lost := 0 } where
  booked := by
    obtain ⟨past,pending,hb⟩ := h.booked
    refine ⟨past,pending,?_,hb.lines,hb.written⟩
    rw [Nat.zero_add,Nat.add_comm]
    exact hb.ledger
  closing := h.closing
  close := h.close
  closeLast := h.closeLast
  last := h.last
  receiving := h.receiving

/-! The writer takes a message. -/

/-- A queue without room loses the oldest line in it, or the new one when it holds none at all. -/
theorem pushSend_spec {past pending : List Fate}
    (h : Ledger cap past pending s.q s.queuedLossy (s.lost + s.reported)) (payload : String) :
    ∃ pending' q queuedLossy lost,
      pushSend cap payload s = { s with q, queuedLossy, lost } ∧
      pending'.map (·.line) = pending.map (·.line) ++ [⟨payload,true⟩] ∧
      Ledger cap past pending' q queuedLossy (lost + s.reported) := by
  unfold pushSend
  by_cases hfull : s.queuedLossy ≥ cap
  · by_cases hcap : cap > 0
    · have heq : s.queuedLossy = cap := Nat.le_antisymm h.bound hfull
      rw [if_pos hfull,if_pos hcap]
      cases hindex : s.q.findIdx? (·.isLossy) with
      | none =>
        rw [List.findIdx?_eq_none_iff] at hindex
        have hnone : lossyIn s.q = 0 := by
          rw [lossyIn,List.countP_eq_zero]
          intro item hitem
          rw [hindex item hitem]
          exact Bool.false_ne_true
        have := h.count
        omega
      | some index =>
        obtain ⟨pending',hlines,hledger⟩ := h.exchange heq hindex payload
        rw [Nat.add_right_comm] at hledger
        simp only [hindex]
        exact ⟨pending',_,_,_,rfl,hlines,hledger⟩
    · obtain rfl : cap = 0 := by omega
      rw [if_pos hfull,if_neg hcap]
      have hempty : s.q.findIdx? (·.isLossy) = none := by
        rw [List.findIdx?_eq_none_iff]
        intro item hitem
        have hnone : lossyIn s.q = 0 := h.count.symm.trans (Nat.le_zero.mp h.bound)
        rw [lossyIn,List.countP_eq_zero] at hnone
        simpa using hnone item hitem
      have hlose := h.lose payload
      rw [Nat.add_right_comm] at hlose
      simp only [hempty]
      exact ⟨_,_,_,_,rfl,by simp,hlose⟩
  · have hroom : s.queuedLossy < cap := by omega
    rw [if_neg hfull,if_pos (by omega)]
    exact ⟨_,_,_,_,rfl,by simp,h.push hroom payload⟩

theorem pushBatch_spec {past pending : List Fate}
    (h : Ledger cap past pending s.q s.queuedLossy (s.lost + s.reported)) (payloads : List String) :
    ∃ pending' q,
      pushBatch payloads s = { s with q } ∧
      pending'.map (·.line) = pending.map (·.line) ++ payloads.map (⟨·,false⟩) ∧
      Ledger cap past pending' q s.queuedLossy (s.lost + s.reported) := by
  unfold pushBatch
  by_cases hne : payloads = []
  · subst hne
    exact ⟨pending,s.q,rfl,by simp,h⟩
  · rw [if_neg hne]
    refine ⟨_,_,rfl,?_,h.batch hne⟩
    rw [List.map_append,List.map_map]
    rfl

/-- Outside a report a failure is known by its notice, so it stays known. -/
theorem failed_of (hreport : ∀ ending last, s.phase ≠ .reporting ending last) (h : s.Failed)
    {t : Outbox} (hnotices : t.notices = s.notices) : t.Failed := by
  left
  rw [hnotices]
  apply h.resolve_right
  rintro ⟨ending,last,hphase⟩
  exact hreport ending last hphase

/-- A message with lines is taken, and they are booked. -/
theorem Sound.take (h : Sound cap s) {message : ConnectionOutbound} {rest : List ConnectionOutbound}
    (hrx : s.rx = message :: rest) (hhand : s.phase.inHand = [])
    (hreport : ∀ ending last, s.phase ≠ .reporting ending last) {past pending pending' : List Fate}
    (hb : Booked cap s past pending) {q : List QueuedOutbound} {queuedLossy lost left : Nat}
    (hlines : pending'.map (·.line) = pending.map (·.line) ++ message.lines)
    (hledger : Ledger cap past pending' q queuedLossy (lost + s.reported)) :
    Sound cap { s with rx := rest, phase := .draining left, q, queuedLossy, lost } where
  booked := by
    refine ⟨past,pending',hledger,?_,fun hfail => ?_⟩
    · have hold := hb.lines
      rw [hrx,List.flatMap_cons,List.map_append] at hold
      rw [List.map_append,hlines,← List.append_assoc,List.append_assoc _ message.lines]
      exact hold
    · have hwritten := hb.written fun hfailed => hfail (failed_of hreport hfailed rfl)
      rwa [hhand] at hwritten
  closing hc := by
    have := (h.closing hc).2
    rw [hrx] at this
    cases this
  close hmem := h.close (hrx ▸ List.mem_cons_of_mem _ hmem)
  closeLast := by
    intro hmem
    apply h.closeLast
    rw [hrx,List.dropLast_cons_of_ne_nil (List.ne_nil_of_mem (List.mem_of_mem_dropLast hmem))]
    exact List.mem_cons_of_mem _ hmem
  last hlast := hlast.elim
  receiving hphase := by cases hphase

/-- The close is the last message. -/
theorem Sound.takeClose (h : Sound cap s) {rest : List ConnectionOutbound} (hrx : s.rx = .close :: rest)
    {phase : Phase} (hphase : phase.IsIntake) (hhand : s.phase.inHand = [])
    (hreport : ∀ ending last, s.phase ≠ .reporting ending last) :
    Sound cap { s with rx := rest, closeAfterDrain := true, phase } where
  booked := by
    obtain ⟨past,pending,hb⟩ := h.booked
    refine ⟨past,pending,hb.ledger,?_,fun hfail => ?_⟩
    · have hold := hb.lines
      rw [hrx] at hold
      exact hold
    · have hwritten := hb.written fun hfailed => hfail (failed_of hreport hfailed rfl)
      rw [hhand] at hwritten
      rw [Phase.IsIntake.inHand hphase]
      exact hwritten
  closing _ := by
    refine ⟨h.close (hrx ▸ List.mem_cons_self),?_⟩
    by_contra hrest
    apply h.closeLast
    rw [hrx,List.dropLast_cons_of_ne_nil hrest]
    exact List.mem_cons_self
  close hmem := h.close (hrx ▸ List.mem_cons_of_mem _ hmem)
  closeLast := by
    intro hmem
    apply h.closeLast
    rw [hrx,List.dropLast_cons_of_ne_nil (List.ne_nil_of_mem (List.mem_of_mem_dropLast hmem))]
    exact List.mem_cons_of_mem _ hmem
  last hlast := by
    cases phase <;> first | exact hlast.elim | exact hphase.elim
  receiving heq := by
    subst heq
    exact hphase.elim

/-- The writer goes from one phase to another with the queue as it is. -/
theorem Sound.move (h : Sound cap s) (phase : Phase) (closeAfterDrain : Bool)
    (hhand : phase.inHand = s.phase.inHand)
    (hreport : ∀ ending last, s.phase ≠ .reporting ending last)
    (hclosing : closeAfterDrain → s.closeAfterDrain ∨ s.connected = false ∧ s.rx = [])
    (hlast : phase.IsLast → ¬ s.Failed → closeAfterDrain ∧ s.q = [])
    (hreceiving : phase = .receiving → s.q = []) : Sound cap { s with closeAfterDrain, phase } where
  booked := by
    obtain ⟨past,pending,hb⟩ := h.booked
    refine ⟨past,pending,hb.ledger,hb.lines,fun hfail => ?_⟩
    have hwritten := hb.written fun hfailed => hfail (failed_of hreport hfailed rfl)
    rw [← hhand] at hwritten
    exact hwritten
  closing hc := (hclosing hc).elim h.closing id
  close := h.close
  closeLast := h.closeLast
  last hphase hfail := hlast hphase fun hfailed => hfail (failed_of hreport hfailed rfl)
  receiving := hreceiving

theorem Sound.drain (h : Sound cap s) {left : Nat} (hphase : s.phase = .draining left) :
    Sound cap (drain cap s left) := by
  have hhand : s.phase.inHand = [] := by rw [hphase]; rfl
  have hreport : ∀ ending last, s.phase ≠ .reporting ending last := by simp [hphase]
  cases left with
  | zero =>
    exact h.move .popping s.closeAfterDrain hhand.symm hreport .inl
      (fun hlast _ => hlast.elim) (by simp)
  | succ left =>
    rw [Outbox.drain]
    split
    · next payload rest hrx =>
      obtain ⟨past,pending,hb⟩ := h.booked
      obtain ⟨pending',q,queuedLossy,lost,heq,hlines,hledger⟩ := pushSend_spec
        (s := { s with rx := rest, phase := .draining left }) hb.ledger payload
      rw [heq]
      exact h.take hrx hhand hreport hb hlines hledger
    · next payloads rest hrx =>
      obtain ⟨past,pending,hb⟩ := h.booked
      obtain ⟨pending',q,heq,hlines,hledger⟩ := pushBatch_spec
        (s := { s with rx := rest, phase := .draining left }) hb.ledger payloads
      rw [heq]
      exact h.take hrx hhand hreport hb hlines hledger
    · next rest hrx => exact h.takeClose hrx trivial hhand hreport
    · next hrx =>
      split
      · exact h.move .popping s.closeAfterDrain hhand.symm hreport .inl
          (fun hlast _ => hlast.elim) (by simp)
      · next hconn =>
        exact h.move .popping true hhand.symm hreport (fun _ => .inr ⟨by simpa using hconn,hrx⟩)
          (fun hlast _ => hlast.elim) (by simp)

theorem Sound.pop (h : Sound cap s) (hphase : s.phase = .popping) : Sound cap s.pop := by
  have hhand : s.phase.inHand = [] := by rw [hphase]; rfl
  have hreport : ∀ ending last, s.phase ≠ .reporting ending last := by simp [hphase]
  obtain ⟨past,pending,hb⟩ := h.booked
  rcases hpop : popNextLine s.q s.queuedLossy with ⟨line,q,queuedLossy⟩
  simp only [Outbox.pop,hpop]
  cases line with
  | some line =>
    obtain ⟨taken,pending',rfl,htext,hledger⟩ := hb.ledger.pop hpop
    refine ⟨⟨past ++ taken,pending',hledger,?_,fun hfail => ?_⟩,h.closing,h.close,h.closeLast,
      fun hlast => hlast.elim,by simp⟩
    · rw [List.append_assoc]
      exact hb.lines
    · have hwritten := hb.written fun hfailed => hfail (failed_of hreport hfailed rfl)
      rw [kept_append,List.map_append,hwritten,htext,hhand,List.append_nil]
      rfl
  | none =>
    obtain ⟨hq,rfl,rfl⟩ := hb.ledger.pop_none hpop
    have hmove := h.move (if s.closeAfterDrain then .flushingLast else .receiving) s.closeAfterDrain
      ?_ hreport .inl ?_ fun _ => hq
    · rw [← hq]
      exact hmove
    · rw [hhand]
      split <;> rfl
    · intro hlast _
      refine ⟨?_,hq⟩
      by_contra hopen
      rw [if_neg hopen] at hlast
      exact hlast

theorem Sound.receive (h : Sound cap s) (hphase : s.phase = .receiving) :
    Sound cap (receive cap s) := by
  have hhand : s.phase.inHand = [] := by rw [hphase]; rfl
  have hreport : ∀ ending last, s.phase ≠ .reporting ending last := by simp [hphase]
  have hempty := h.receiving hphase
  unfold Outbox.receive
  split
  · next payload rest hrx =>
    obtain ⟨past,pending,hb⟩ := h.booked
    have hnone : s.queuedLossy = 0 := by
      rw [hb.ledger.count,hempty]
      rfl
    by_cases hcap : cap = 0
    · subst hcap
      have hlose := hb.ledger.lose payload
      rw [Nat.add_right_comm] at hlose
      exact h.take hrx hhand hreport hb (by simp; rfl) hlose
    · have hpos : cap > 0 := Nat.pos_of_ne_zero hcap
      simp only [hcap,hpos,if_false,if_true]
      exact h.take hrx hhand hreport hb (by simp; rfl) (hb.ledger.push (by omega) payload)
  · next payloads rest hrx =>
    obtain ⟨past,pending,hb⟩ := h.booked
    obtain ⟨pending',q,heq,hlines,hledger⟩ := pushBatch_spec
      (s := { s with rx := rest, phase := .draining 4096 }) hb.ledger payloads
    rw [heq]
    exact h.take hrx hhand hreport hb hlines hledger
  · next rest hrx => exact h.takeClose hrx trivial hhand hreport
  · next hrx =>
    split
    · exact h
    · next hconn =>
      exact h.move (.draining 4096) true hhand.symm hreport (fun _ => .inr ⟨by simpa using hconn,hrx⟩)
        (fun hlast _ => hlast.elim) (by simp)

/-- After a failure the channel is closed and what was written no longer matters. -/
theorem Sound.fail (h : Sound cap s) (ending : WriterEnd) (last : Bool) :
    Sound cap { s with isOpen := false, phase := .reporting ending last } where
  booked := by
    obtain ⟨past,pending,hb⟩ := h.booked
    exact ⟨past,pending,hb.ledger,hb.lines,fun hfail => absurd (.inr ⟨ending,last,rfl⟩) hfail⟩
  closing := h.closing
  close := h.close
  closeLast := h.closeLast
  last hlast := hlast.elim
  receiving hphase := by cases hphase

theorem Sound.wrote (h : Sound cap s) {line : String} (hphase : s.phase = .writing line) :
    Sound cap { s with written := s.written ++ [line], phase := .flushing } where
  booked := by
    obtain ⟨past,pending,hb⟩ := h.booked
    refine ⟨past,pending,hb.ledger,hb.lines,fun hfail => ?_⟩
    have hwritten := hb.written fun hfailed => hfail (failed_of (by simp [hphase]) hfailed rfl)
    rw [hwritten,hphase]
    exact (List.append_nil _).symm
  closing := h.closing
  close := h.close
  closeLast := h.closeLast
  last hlast := hlast.elim
  receiving heq := by cases heq

theorem Sound.report (h : Sound cap s) (ending : WriterEnd) (last : Bool) :
    Sound cap { s with
      notices := s.notices ++ [ending], phase := if last then .shuttingDown else .done } where
  booked := by
    obtain ⟨past,pending,hb⟩ := h.booked
    exact ⟨past,pending,hb.ledger,hb.lines,fun hfail => absurd (.inl (by simp)) hfail⟩
  closing := h.closing
  close := h.close
  closeLast := h.closeLast
  last _ hfail := absurd (.inl (by simp)) hfail
  receiving heq := by cases last <;> cases heq

theorem Sound.exit (h : Sound cap s) (hphase : s.phase = .shuttingDown) :
    Sound cap { s with isOpen := false, phase := .done } where
  booked := by
    obtain ⟨past,pending,hb⟩ := h.booked
    refine ⟨past,pending,hb.ledger,hb.lines,fun hfail => ?_⟩
    have hwritten := hb.written fun hfailed => hfail (failed_of (by simp [hphase]) hfailed rfl)
    rw [hphase] at hwritten
    exact hwritten
  closing := h.closing
  close := h.close
  closeLast := h.closeLast
  last _ hfail := h.last (by rw [hphase]; trivial) fun hfailed =>
    hfail (failed_of (by simp [hphase]) hfailed rfl)
  receiving heq := by cases heq

theorem Sound.work (h : Sound cap s) (good : Bool) : Sound cap (s.work cap good) := by
  unfold Outbox.work
  split
  · next left hphase => exact h.drain hphase
  · next hphase => exact h.pop hphase
  · next line hphase =>
    split
    · exact h.wrote hphase
    · exact h.fail .writeIo false
  · next hphase =>
    split
    · exact h.move (.draining 4096) s.closeAfterDrain (by rw [hphase]; rfl) (by simp [hphase]) .inl
        (fun hlast _ => hlast.elim) (by simp)
    · exact h.fail .flushIo false
  · next hphase => exact h.receive hphase
  · next hphase =>
    split
    · exact h.move .shuttingDown s.closeAfterDrain (by rw [hphase]; rfl) (by simp [hphase]) .inl
        (fun _ => h.last (by rw [hphase]; trivial)) (by simp)
    · exact h.fail .flushIo true
  · next ending last _ => exact h.report ending last
  · next hphase => exact h.exit hphase
  · exact h

theorem Sound.step (h : Sound cap s) (act : Act) : Sound cap (step cap s act) := by
  cases act with
  | deliver payload => exact h.deliver payload
  | deliverBatch payloads => exact h.deliverBatch payloads
  | forceClose => exact h.forceClose
  | hangUp => exact h.unplug
  | observe => exact h.observe
  | work good => exact h.work good

theorem run_snoc (cap : Nat) (name : PluginName) (acts : List Act) (act : Act) :
    run cap name (acts ++ [act]) = Outbox.step cap (run cap name acts) act := by
  rw [run,List.foldl_append]
  rfl

theorem run_sound (cap : Nat) (name : PluginName) (acts : List Act) : Sound cap (run cap name acts) := by
  induction acts using List.reverseRecOn with
  | nil => exact sound_start cap name
  | append_singleton acts act ih =>
    rw [run_snoc]
    exact ih.step act

/-! Failures. -/

/-- A line that is queued changes the queue and its counts only. -/
theorem pushSend_eq (cap : Nat) (payload : String) (s : Outbox) : ∃ q queuedLossy lost,
    pushSend cap payload s = { s with q, queuedLossy, lost } := by
  unfold pushSend
  by_cases hfull : s.queuedLossy ≥ cap
  · rw [if_pos hfull]
    dsimp only
    cases s.q.findIdx? (·.isLossy) with
    | none => split <;> exact ⟨_,_,_,rfl⟩
    | some index => split <;> exact ⟨_,_,_,rfl⟩
  · rw [if_neg hfull]
    split <;> exact ⟨_,_,_,rfl⟩

theorem pushBatch_eq (payloads : List String) (s : Outbox) : ∃ q,
    pushBatch payloads s = { s with q } := by
  unfold pushBatch
  split <;> exact ⟨_,rfl⟩

/-- Taking messages writes and reports nothing. -/
theorem drain_frame (cap : Nat) (s : Outbox) (left : Nat) : (drain cap s left).phase.IsIntake ∧
    (drain cap s left).notices = s.notices ∧ (drain cap s left).written = s.written := by
  cases left with
  | zero => exact ⟨trivial,rfl,rfl⟩
  | succ left =>
    rw [drain]
    split
    · next payload rest _ =>
      obtain ⟨q,queuedLossy,lost,heq⟩ :=
        pushSend_eq cap payload { s with rx := rest, phase := .draining left }
      rw [heq]
      exact ⟨trivial,rfl,rfl⟩
    · next payloads rest _ =>
      obtain ⟨q,heq⟩ := pushBatch_eq payloads { s with rx := rest, phase := .draining left }
      rw [heq]
      exact ⟨trivial,rfl,rfl⟩
    · exact ⟨trivial,rfl,rfl⟩
    · split
      · exact ⟨trivial,rfl,rfl⟩
      · exact ⟨trivial,rfl,rfl⟩

theorem pop_frame (s : Outbox) :
    ((∃ line, s.pop.phase = .writing line) ∨ s.pop.phase = .flushingLast ∨ s.pop.phase = .receiving) ∧
    s.pop.notices = s.notices ∧ s.pop.written = s.written := by
  unfold pop
  rcases popNextLine s.q s.queuedLossy with ⟨line,q,queuedLossy⟩
  cases line with
  | some line => exact ⟨.inl ⟨line,rfl⟩,rfl,rfl⟩
  | none =>
    refine ⟨.inr ?_,rfl,rfl⟩
    cases s.closeAfterDrain with
    | true => exact .inl rfl
    | false => exact .inr rfl

theorem receive_frame (cap : Nat) (s : Outbox) :
    ((receive cap s).phase.IsIntake ∨ (receive cap s).phase = s.phase) ∧
    (receive cap s).notices = s.notices ∧ (receive cap s).written = s.written := by
  unfold receive
  split
  · dsimp only
    split <;> split <;> exact ⟨.inl trivial,rfl,rfl⟩
  · next payloads rest _ =>
    obtain ⟨q,heq⟩ := pushBatch_eq payloads { s with rx := rest, phase := .draining 4096 }
    rw [heq]
    exact ⟨.inl trivial,rfl,rfl⟩
  · exact ⟨.inl trivial,rfl,rfl⟩
  · split
    · exact ⟨.inr rfl,rfl,rfl⟩
    · exact ⟨.inl trivial,rfl,rfl⟩

/-- What happens outside the writer task is not seen in what it does. -/
theorem step_frame (cap : Nat) (s : Outbox) (act : Act) (h : ∀ good, act ≠ .work good) :
    (step cap s act).phase = s.phase ∧ (step cap s act).notices = s.notices ∧
    (step cap s act).written = s.written := by
  have hsend : ∀ message, ((s.send message).toOption.getD s).phase = s.phase ∧
      ((s.send message).toOption.getD s).notices = s.notices ∧
      ((s.send message).toOption.getD s).written = s.written := by
    intro message
    unfold send
    split <;> exact ⟨rfl,rfl,rfl⟩
  cases act with
  | deliver payload =>
    unfold step deliver
    simp only
    cases admitFrame payload with
    | error e => exact ⟨rfl,rfl,rfl⟩
    | ok line =>
      simp only [ok_bind]
      split
      · exact hsend _
      · exact ⟨rfl,rfl,rfl⟩
  | deliverBatch payloads =>
    unfold step deliverBatch
    simp only
    cases payloads.mapM admitFrame with
    | error e => exact ⟨rfl,rfl,rfl⟩
    | ok lines =>
      simp only [ok_bind]
      split
      · exact hsend _
      · exact ⟨rfl,rfl,rfl⟩
  | forceClose =>
    unfold step forceClose
    simp only
    split
    · exact hsend .close
    · exact ⟨rfl,rfl,rfl⟩
  | hangUp => exact ⟨rfl,rfl,rfl⟩
  | observe => exact ⟨rfl,rfl,rfl⟩
  | work good => exact absurd rfl (h good)

/-- The writer writes the line it has in hand, and reports what has failed. -/
theorem work_frame (cap : Nat) (good : Bool) (s : Outbox) :
    (work cap good s).notices =
      (match s.phase with | .reporting ending _ => s.notices ++ [ending] | _ => s.notices) ∧
    (work cap good s).written = (if good then s.written ++ s.phase.inHand else s.written) ∧
    ∀ ending last, (work cap good s).phase = .reporting ending last →
      s.failure (.work good) = some ending := by
  cases hphase : s.phase
  case draining left =>
    obtain ⟨hintake,hnotices,hwritten⟩ := drain_frame cap s left
    unfold work
    rw [hphase]
    refine ⟨hnotices,?_,fun ending last heq => ?_⟩
    · simpa [Phase.inHand] using hwritten
    · rw [heq] at hintake
      exact hintake.elim
  case popping =>
    obtain ⟨hphases,hnotices,hwritten⟩ := pop_frame s
    unfold work
    rw [hphase]
    refine ⟨hnotices,?_,fun ending last heq => ?_⟩
    · simpa [Phase.inHand] using hwritten
    · simp [heq] at hphases
  case receiving =>
    obtain ⟨hphases,hnotices,hwritten⟩ := receive_frame cap s
    unfold work
    rw [hphase]
    refine ⟨hnotices,?_,fun ending last heq => ?_⟩
    · simpa [Phase.inHand] using hwritten
    · rw [heq,hphase] at hphases
      obtain hintake | hsame := hphases
      · exact hintake.elim
      · cases hsame
  case reporting ending last => cases last <;> simp [work,hphase,Phase.inHand]
  all_goals cases good <;> simp [work,hphase,failure,Phase.inHand]

/-- Before the writer is about to leave there is no notice. -/
def Unnoticed (s : Outbox) : Prop := s.notices = [] ∨ s.phase = .shuttingDown ∨ s.phase = .done

theorem Unnoticed.step (h : Unnoticed s) (cap : Nat) (act : Act) : Unnoticed (step cap s act) := by
  unfold Unnoticed at h ⊢
  by_cases hact : ∃ good, act = .work good
  · obtain ⟨good,rfl⟩ := hact
    have hnotices := (work_frame cap good s).1
    change (work cap good s).notices = [] ∨ (work cap good s).phase = _ ∨ (work cap good s).phase = _
    cases hphase : s.phase <;> simp only [hphase,reduceCtorEq,or_false] at h hnotices
    case reporting ending last =>
      right
      cases last <;> simp [work,hphase]
    case shuttingDown => exact .inr (.inr (by simp [work,hphase]))
    case done => exact .inr (.inr (by simp [work,hphase]))
    all_goals exact .inl (hnotices.trans h)
  · obtain ⟨hphase,hnotices,-⟩ := step_frame cap s act fun good heq => hact ⟨good,heq⟩
    rwa [hphase,hnotices]

theorem run_unnoticed (cap : Nat) (name : PluginName) (acts : List Act) :
    Unnoticed (run cap name acts) := by
  induction acts using List.reverseRecOn with
  | nil => exact .inl rfl
  | append_singleton acts act ih =>
    rw [run_snoc]
    exact ih.step cap act

/-- A run without failures. -/
def Unfailing (cap : Nat) (name : PluginName) (acts : List Act) : Prop :=
  Throughout (fun before act => (run cap name before).failure act = none) acts

instance (cap : Nat) (name : PluginName) (acts : List Act) : Decidable (Unfailing cap name acts) :=
  inferInstanceAs (Decidable (Throughout _ _))

/-- Only a failed write or flush is reported. -/
theorem not_failed_step (h : ¬ s.Failed) (cap : Nat) {act : Act} (hact : s.failure act = none) :
    ¬ (step cap s act).Failed := by
  by_cases hwork : ∃ good, act = .work good
  · obtain ⟨good,rfl⟩ := hwork
    obtain ⟨hnotices,-,hreport⟩ := work_frame cap good s
    rintro (hnew | ⟨ending,last,hphase⟩)
    · apply hnew
      refine hnotices.trans ?_
      unfold Failed at h
      rw [not_or,not_not] at h
      split
      · next ending last hphase => exact absurd ⟨ending,last,hphase⟩ h.2
      · exact h.1
    · rw [hreport ending last hphase] at hact
      cases hact
  · obtain ⟨hphase,hnotices,-⟩ := step_frame cap s act fun good heq => hwork ⟨good,heq⟩
    unfold Failed at h ⊢
    rwa [hphase,hnotices]

theorem not_failed_run {name : PluginName} {acts : List Act} (h : Unfailing cap name acts) :
    ¬ (run cap name acts).Failed := by
  induction acts using List.reverseRecOn with
  | nil =>
    rintro (hnotices | ⟨ending,last,hphase⟩)
    · exact hnotices rfl
    · cases hphase
  | append_singleton acts act ih =>
    obtain ⟨hbefore,hlast⟩ := Throughout.snoc.mp h
    rw [run_snoc]
    exact not_failed_step (ih hbefore) cap hlast

/-- Without failures the lines are settled when the writer is done. -/
theorem settled_of_done {name : PluginName} {acts : List Act} (h : Unfailing cap name acts)
    (hdone : (run cap name acts).phase = .done) : ∃ fates, Settled cap (run cap name acts) fates := by
  have hsound := run_sound cap name acts
  have hok := not_failed_run h
  obtain ⟨past,pending,hb⟩ := hsound.booked
  obtain ⟨hclosing,hq⟩ := hsound.last (by rw [hdone]; trivial) hok
  have hrx := (hsound.closing hclosing).2
  have hlines := hb.lines
  have hqueued := hb.ledger.queued
  rw [hrx] at hlines
  rw [hq] at hqueued
  refine ⟨past ++ pending,⟨?_,?_,hb.ledger.spared.lossless,hb.ledger.spared.recent,hb.ledger.counted⟩⟩
  · rw [← hlines]
    exact (List.append_nil _).symm
  · have hwritten := hb.written hok
    have hnone : kept pending = [] := hqueued
    rw [hdone] at hwritten
    have hkept : ∀ fates : List Fate, (fates.filter (·.isKept)).map (·.line.text) =
        (kept fates).map (·.text) := fun fates => by rw [kept,List.map_map]; rfl
    rw [hkept,kept_append,hnone,List.append_nil,hwritten]
    exact (List.append_nil _).symm

def Act.isWork : Act → Bool
  | .work _ => true
  | _ => false

/-- A failure that is reported after so many steps of the writer. -/
def Reported (ending : WriterEnd) (written : List String) (worked : Nat) (s : Outbox) : Prop :=
  s.written = written ∧
  ((∃ last, s.phase = .reporting ending last ∧ s.notices = [] ∧ worked = 0) ∨
    (s.phase = .shuttingDown ∧ s.notices = [ending] ∧ worked = 1) ∨
    (s.phase = .done ∧ s.notices = [ending]))

theorem reported_of_failure (cap : Nat) (h : Unnoticed s) {act : Act} {ending : WriterEnd}
    (hact : s.failure act = some ending) : Reported ending s.written 0 (step cap s act) := by
  unfold failure at hact
  unfold Unnoticed at h
  split at hact
  · split at hact
    · next line hphase =>
      cases hact
      simp only [hphase,reduceCtorEq,or_false] at h
      exact ⟨by simp [step,work,hphase],.inl ⟨false,by simp [step,work,hphase,h]⟩⟩
    · next hphase =>
      cases hact
      simp only [hphase,reduceCtorEq,or_false] at h
      exact ⟨by simp [step,work,hphase],.inl ⟨false,by simp [step,work,hphase,h]⟩⟩
    · next hphase =>
      cases hact
      simp only [hphase,reduceCtorEq,or_false] at h
      exact ⟨by simp [step,work,hphase],.inl ⟨true,by simp [step,work,hphase,h]⟩⟩
    · cases hact
  · cases hact

theorem Reported.step {ending : WriterEnd} {written : List String} {worked : Nat}
    (h : Reported ending written worked s) (cap : Nat) (act : Act) :
    Reported ending written (worked + if act.isWork then 1 else 0) (step cap s act) := by
  by_cases hact : ∃ good, act = .work good
  · obtain ⟨good,rfl⟩ := hact
    obtain ⟨hwritten,⟨last,hphase,hnotices,hworked⟩ | ⟨hphase,hnotices,hworked⟩ | ⟨hphase,hnotices⟩⟩ := h
    · refine ⟨by simp [Outbox.step,work,hphase,hwritten],.inr ?_⟩
      cases last with
      | true => exact .inl (by simp [Outbox.step,work,hphase,hnotices,hworked,Act.isWork])
      | false => exact .inr (by simp [Outbox.step,work,hphase,hnotices])
    · exact ⟨by simp [Outbox.step,work,hphase,hwritten],
        .inr (.inr (by simp [Outbox.step,work,hphase,hnotices]))⟩
    · exact ⟨by simp [Outbox.step,work,hphase,hwritten],
        .inr (.inr (by simp [Outbox.step,work,hphase,hnotices]))⟩
  · obtain ⟨hphase,hnotices,hwritten⟩ := step_frame cap s act fun good heq => hact ⟨good,heq⟩
    have hidle : act.isWork = false := by
      cases act with
      | work good => exact absurd ⟨good,rfl⟩ hact
      | _ => rfl
    unfold Reported at h ⊢
    rw [hphase,hnotices,hwritten,hidle]
    exact h

theorem Reported.steps {ending : WriterEnd} {written : List String} {worked : Nat}
    (h : Reported ending written worked s) (cap : Nat) (acts : List Act) :
    Reported ending written (worked + acts.countP (·.isWork)) (acts.foldl (Outbox.step cap) s) := by
  induction acts generalizing s worked with
  | nil => exact h
  | cons act acts ih =>
    have := ih (h.step cap act)
    rwa [List.countP_cons,Nat.add_comm (acts.countP _),← Nat.add_assoc]

/-- The counter of the queue is right at every step; without failures what is written is all that was
sent but for the ordinary lines that were counted, and none of the last ones is missing; after a
failure nothing is written, and one notice is sent. -/
theorem run_outbound (cap : Nat) (name : PluginName) (acts : List Act) :
    ((run cap name acts).queuedLossy = (run cap name acts).q.countP (·.isLossy) ∧
      (run cap name acts).queuedLossy ≤ cap) ∧
    (Unfailing cap name acts → (run cap name acts).phase = .done →
      ∃ fates, Settled cap (run cap name acts) fates) ∧
    ∀ before act after ending, acts = before ++ act :: after →
      (run cap name before).failure act = some ending →
      (run cap name acts).written = (run cap name before).written ∧
      (run cap name acts).notices <+: [ending] ∧
      (2 ≤ after.countP (·.isWork) →
        (run cap name acts).phase = .done ∧ (run cap name acts).notices = [ending]) := by
  refine ⟨?_,settled_of_done,fun before act after ending hacts hfailure => ?_⟩
  · obtain ⟨past,pending,hb⟩ := (run_sound cap name acts).booked
    exact ⟨hb.ledger.count,hb.ledger.bound⟩
  · have hreported := (reported_of_failure cap (run_unnoticed cap name before) hfailure).steps cap after
    have hrun : run cap name acts = after.foldl (step cap) (step cap (run cap name before) act) := by
      rw [hacts,run,List.foldl_append]
      rfl
    rw [← hrun,Nat.zero_add] at hreported
    obtain ⟨hwritten,⟨last,hphase,hnotices,hworked⟩ | ⟨hphase,hnotices,hworked⟩ | ⟨hphase,hnotices⟩⟩ :=
      hreported
    · exact ⟨hwritten,by simp [hnotices],fun hle => by omega⟩
    · exact ⟨hwritten,by simp [hnotices],fun hle => by omega⟩
    · exact ⟨hwritten,by simp [hnotices],fun _ => ⟨hphase,hnotices⟩⟩

/-- Three ordinary lines into a queue for one, around a batch. -/
def crowded : List Act :=
  [.deliver "a",.deliver "b\n",.deliverBatch ["x","y"],.deliver "c",.forceClose,.deliver "d"] ++
    List.replicate 20 (.work true)

theorem run_outbound_crowded :
    (∃ fates, Settled 1 (run 1 "tool" crowded) fates) ∧
    (run 1 "tool" ([.deliver "a",.deliver "b"] ++ List.replicate 4 (.work true) ++
      .work false :: [.work true,.deliver "c",.work true])).notices = [.writeIo] :=
  ⟨(run_outbound 1 "tool" crowded).2.1 (by decide) (by decide),
    ((run_outbound 1 "tool" _).2.2 ([Act.deliver "a",.deliver "b"] ++ List.replicate 4 (.work true))
      (.work false) [.work true,.deliver "c",.work true] .writeIo (by decide) (by decide)).2.2
      (by decide) |>.2⟩

example : (run 1 "tool" crowded).written = ["x\n","y\n","c\n"] ∧ (run 1 "tool" crowded).lost = 2 := by
  decide

end Outbox

end Nefor.Ncp
