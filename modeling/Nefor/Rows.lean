import Mathlib.Logic.Function.Basic
import Mathlib.Data.List.Basic
import Mathlib.Tactic.Common

/-! Several queues read in step: a row takes one value from each of them, and there are as many
rows as the shortest queue has values. -/
namespace Nefor.Rows
variable {α : Type} {q f b t : Nat → List α} {a : Nat → α} {n m j : Nat}

/-- The rows of the first `n` queues: the k-th has the k-th value of each. -/
def rows (q : Nat → List α) : Nat → List (List α)
  | 0 => []
  | 1 => (q 0).map fun a => [a]
  | n+2 => List.zipWith (fun row a => row ++ [a]) (rows q (n+1)) (q (n+1))

theorem rows_congr (h : ∀ j < n, q j = b j) : rows q n = rows b n := by
  induction n with
  | zero => rfl
  | succ n ih =>
    cases n with
    | zero => simp only [rows,h 0 (by omega)]
    | succ n => simp only [rows,h (n+1) (by omega),ih fun j hj => h j (by omega)]

theorem length_rows (h : ∀ j < n, (f j).length = m) (hn : n ≠ 0) : (rows f n).length = m := by
  induction n with
  | zero => exact absurd rfl hn
  | succ n ih =>
    cases n with
    | zero => rw [rows,List.length_map,h 0 (by omega)]
    | succ n =>
      rw [rows,List.length_zipWith,ih (fun j hj => h j (by omega)) (by omega),h (n+1) (by omega),Nat.min_self]

/-- Rows of queues that begin with as many values each. -/
theorem rows_append (h : ∀ j < n, (f j).length = m) : rows (fun j => f j ++ b j) n = rows f n ++ rows b n := by
  induction n with
  | zero => rfl
  | succ n ih =>
    cases n with
    | zero => simp only [rows,List.map_append]
    | succ n =>
      have hlen := length_rows (fun j hj => h j (by omega)) (Nat.succ_ne_zero n)
      simp only [rows]
      rw [ih fun j hj => h j (by omega),List.zipWith_append (by rw [hlen,h (n+1) (by omega)])]

theorem rows_nil (hj : j < n) (h : q j = []) : rows q n = [] := by
  induction n with
  | zero => omega
  | succ n ih =>
    cases n with
    | zero =>
      obtain rfl : j = 0 := by omega
      rw [rows,h,List.map_nil]
    | succ n =>
      rw [rows]
      by_cases heq : j = n+1
      · rw [← heq,h,List.zipWith_nil_right]
      · rw [ih (by omega),List.zipWith_nil_left]

theorem rows_cons (h : ∀ j < n, q j = a j :: t j) (hn : n ≠ 0) : rows q n = (List.range n).map a :: rows t n := by
  induction n with
  | zero => exact absurd rfl hn
  | succ n ih =>
    cases n with
    | zero =>
      rw [rows,h 0 (by omega),List.map_cons]
      rfl
    | succ n =>
      simp only [rows]
      rw [ih (fun j hj => h j (by omega)) (by omega),h (n+1) (by omega),List.zipWith_cons_cons,
        List.range_succ (n := n+1),List.map_append]
      rfl

/-- A value is put at the end of a queue. -/
def push (q : Nat → List α) (slot : Nat) (a : α) : Nat → List α := Function.update q slot (q slot ++ [a])

theorem push_append (q : Nat → List α) (f : Nat → List α) (slot : Nat) (a : α) :
    push (fun j => f j ++ q j) slot a = fun j => f j ++ push q slot a j := by
  funext j
  unfold push
  by_cases hj : j = slot
  · subst hj
    simp only [Function.update_self,List.append_assoc]
  · simp only [Function.update_of_ne hj]

/-- What is left in the first `n` queues once every row of what arrived in them is taken. -/
def Drained (n : Nat) (arrived queues : Nat → List α) : Prop :=
  ∃ (front : Nat → List α) (m : Nat), (∀ j < n, arrived j = front j ++ queues j ∧ (front j).length = m) ∧ ∃ j < n, queues j = []

namespace Drained
variable {arrived queues : Nat → List α} {slot : Nat} {v : α}

theorem empty (hn : n ≠ 0) : Drained n (fun _ => ([] : List α)) fun _ => [] :=
  ⟨fun _ => [],0,fun _ _ => ⟨rfl,rfl⟩,0,by omega,rfl⟩

theorem congr (h : Drained n arrived queues) (heq : ∀ j < n, b j = queues j) : Drained n arrived b := by
  obtain ⟨front,m,hsplit,i,hi,hnil⟩ := h
  refine ⟨front,m,fun j hj => ?_,i,hi,by rw [heq i hi,hnil]⟩
  rw [heq j hj]
  exact hsplit j hj

/-- The queues hold what arrived after the rows. -/
theorem queue (h : Drained n arrived queues) (hj : j < n) : queues j = (arrived j).drop (rows arrived n).length := by
  obtain ⟨front,m,hsplit,i,hi,hnil⟩ := h
  have hrows : rows arrived n = rows front n := by
    rw [rows_congr fun j hj => (hsplit j hj).1,rows_append fun j hj => (hsplit j hj).2,rows_nil hi hnil,List.append_nil]
  rw [hrows,length_rows (fun j hj => (hsplit j hj).2) (by omega),(hsplit j hj).1,← (hsplit j hj).2,List.drop_left]

/-- A value that leaves another queue empty makes no row. -/
theorem push_wait (h : Drained n arrived queues) (hwait : ∃ j < n, push queues slot v j = []) :
    Drained n (push arrived slot v) (push queues slot v) ∧ rows (push arrived slot v) n = rows arrived n := by
  obtain ⟨front,m,hsplit,i,hi,hnil⟩ := h
  obtain ⟨k,hk,hempty⟩ := hwait
  have hpush : ∀ j < n, push arrived slot v j = front j ++ push queues slot v j := by
    intro j hj
    rw [← congrFun (push_append queues front slot v) j]
    unfold push
    by_cases hs : j = slot
    · subst hs
      simp only [Function.update_self,(hsplit j hj).1]
    · simp only [Function.update_of_ne hs,(hsplit j hj).1]
  refine ⟨⟨front,m,fun j hj => ⟨hpush j hj,(hsplit j hj).2⟩,k,hk,hempty⟩,?_⟩
  rw [rows_congr hpush,rows_append fun j hj => (hsplit j hj).2,rows_nil hk hempty,
    rows_congr fun j hj => (hsplit j hj).1,rows_append fun j hj => (hsplit j hj).2,rows_nil hi hnil]

/-- A value that leaves no queue empty makes one row, of the first values. -/
theorem push_row {head : Nat → α} {tail : Nat → List α} (h : Drained n arrived queues)
    (hfull : ∀ j < n, push queues slot v j = head j :: tail j) :
    Drained n (push arrived slot v) tail ∧
      rows (push arrived slot v) n = rows arrived n ++ [(List.range n).map head] := by
  obtain ⟨front,m,hsplit,i,hi,hnil⟩ := h
  have hlast : i = slot := by
    by_contra hne
    have hi' := hfull i hi
    rw [push,Function.update_of_ne hne,hnil] at hi'
    cases hi'
  subst hlast
  have htail : tail i = [] := by
    have hi' := hfull i hi
    rw [push,Function.update_self,hnil] at hi'
    exact (List.cons.inj hi').2.symm
  have hpush : ∀ j < n, push arrived i v j = front j ++ head j :: tail j := by
    intro j hj
    rw [← hfull j hj,← congrFun (push_append queues front i v) j]
    unfold push
    by_cases hs : j = i
    · subst hs
      simp only [Function.update_self,(hsplit j hj).1]
    · simp only [Function.update_of_ne hs,(hsplit j hj).1]
  refine ⟨⟨fun j => front j ++ [head j],m+1,fun j hj => ⟨?_,?_⟩,i,hi,htail⟩,?_⟩
  · rw [hpush j hj,List.append_assoc,List.singleton_append]
  · rw [List.length_append,(hsplit j hj).2,List.length_singleton]
  · rw [rows_congr hpush,rows_append fun j hj => (hsplit j hj).2,rows_congr fun j hj => (hsplit j hj).1,
      rows_append fun j hj => (hsplit j hj).2,rows_nil hi hnil,List.append_nil,
      rows_cons (fun j _ => rfl) (by omega),rows_nil hi htail]

end Drained

end Nefor.Rows
