import Mathlib.Algebra.Order.Ring.Nat
import Mathlib.Algebra.BigOperators.Group.List.Basic
import Mathlib.Data.List.Induction
import Mathlib.Data.List.Count
import Mathlib.Data.List.Nodup

/-! Elements in buckets by a key, taken out again in the order in which they were put in, and the
matching of two lists of keys that comes of it. -/
namespace Nefor
variable {κ α : Type} [DecidableEq κ]

abbrev Buckets (κ α : Type) := List (κ × List α)

namespace Buckets

def bucket : Buckets κ α → κ → List α
  | [], _ => []
  | (j,as) :: rest, k => if j = k then as else bucket rest k

def push : Buckets κ α → κ → α → Buckets κ α
  | [], k, a => [(k,[a])]
  | (j,as) :: rest, k, a => if j = k then (j,as ++ [a]) :: rest else (j,as) :: push rest k a

/-- The first element of a bucket, if it has one, and the buckets without it. -/
def takeFirst : Buckets κ α → κ → Option α × Buckets κ α
  | [], _ => (none,[])
  | (j,as) :: rest, k =>
    if j = k then (as.head?,(j,as.tail) :: rest)
    else
      let (a,rest) := takeFirst rest k
      (a,(j,as) :: rest)

def fill (key : α → κ) (as : List α) : Buckets κ α := as.foldl (fun m a => m.push (key a) a) []

/-- An element for each of the keys. -/
def takeAll (m : Buckets κ α) : List κ → List (Option α) × Buckets κ α
  | [] => ([],m)
  | k :: ks =>
    let (a,m) := m.takeFirst k
    let (as,m) := takeAll m ks
    (a :: as,m)

/-- The elements of all buckets, weighed together. -/
def total (w : α → Nat) (m : Buckets κ α) : Nat := (m.map fun entry => (entry.2.map w).sum).sum

section
variable {m : Buckets κ α} {k : κ} {a : α} {w : α → Nat}

theorem bucket_push (m : Buckets κ α) (k j : κ) (a : α) :
    (m.push k a).bucket j = if k = j then m.bucket j ++ [a] else m.bucket j := by
  induction m with
  | nil =>
    rw [push,bucket,bucket]
    split <;> rfl
  | cons entry rest ih =>
    obtain ⟨i,as⟩ := entry
    rw [push]
    by_cases hik : i = k
    · rw [if_pos hik,bucket,bucket,hik]
      split <;> rfl
    · rw [if_neg hik,bucket,bucket,ih]
      by_cases hij : i = j
      · rw [if_pos hij,if_pos hij,if_neg (by rintro rfl; exact hik hij)]
      · rw [if_neg hij,if_neg hij]

theorem takeFirst_fst (m : Buckets κ α) (k : κ) : (m.takeFirst k).1 = (m.bucket k).head? := by
  induction m with
  | nil => rfl
  | cons entry rest ih =>
    obtain ⟨i,as⟩ := entry
    rw [takeFirst,bucket]
    split
    · rfl
    · exact ih

theorem bucket_takeFirst (m : Buckets κ α) (k j : κ) :
    (m.takeFirst k).2.bucket j = if k = j then (m.bucket j).tail else m.bucket j := by
  induction m with
  | nil =>
    rw [takeFirst,bucket]
    split <;> rfl
  | cons entry rest ih =>
    obtain ⟨i,as⟩ := entry
    rw [takeFirst]
    by_cases hik : i = k
    · rw [if_pos hik,bucket,bucket,hik]
      split <;> rfl
    · rw [if_neg hik]
      change (if i = j then as else bucket (takeFirst rest k).2 j) = _
      rw [bucket,ih]
      by_cases hij : i = j
      · rw [if_pos hij,if_pos hij,if_neg (by rintro rfl; exact hik hij)]
      · rw [if_neg hij,if_neg hij]

theorem bucket_fill (key : α → κ) (as : List α) (k : κ) : (fill key as).bucket k = as.filter (key · = k) := by
  rw [fill]
  induction as using List.reverseRecOn with
  | nil => rfl
  | append_singleton as a ih =>
    rw [List.foldl_append,List.foldl_cons,List.foldl_nil,bucket_push,ih,List.filter_append,List.filter_singleton]
    by_cases h : key a = k
    · rw [if_pos h,decide_eq_true h]
      rfl
    · rw [if_neg h,decide_eq_false h]
      exact (List.append_nil _).symm

/-- A key that comes again takes the next element of its bucket. -/
theorem takeAll_getElem? (m : Buckets κ α) (ks : List κ) (i : Nat) :
    (m.takeAll ks).1[i]? = ks[i]?.map fun k => (m.bucket k)[(ks.take i).count k]? := by
  induction ks generalizing m i with
  | nil => rfl
  | cons k ks ih =>
    cases i with
    | zero =>
      change some (m.takeFirst k).1 = some ((m.bucket k)[0]?)
      rw [takeFirst_fst,List.head?_eq_getElem?]
    | succ i =>
      change ((m.takeFirst k).2.takeAll ks).1[i]? = ks[i]?.map _
      rw [ih]
      cases ks[i]? with
      | none => rfl
      | some j =>
        rw [Option.map_some,Option.map_some,bucket_takeFirst,List.take_succ_cons,List.count_cons]
        by_cases h : k = j
        · rw [if_pos h,if_pos (beq_iff_eq.mpr h),List.getElem?_tail]
        · rw [if_neg h,if_neg fun he => h (beq_iff_eq.mp he),Nat.add_zero]

theorem length_takeAll (m : Buckets κ α) (ks : List κ) : (m.takeAll ks).1.length = ks.length := by
  induction ks generalizing m with
  | nil => rfl
  | cons k ks ih => exact congrArg (· + 1) (ih (m.takeFirst k).2)

theorem total_push (w : α → Nat) (m : Buckets κ α) (k : κ) (a : α) : (m.push k a).total w = m.total w + w a := by
  induction m with
  | nil => simp [push,total]
  | cons entry rest ih =>
    obtain ⟨i,as⟩ := entry
    rw [push]
    split
    · simp [total]
      omega
    · simp only [total,List.map_cons,List.sum_cons] at ih ⊢
      omega

theorem total_fill (w : α → Nat) (key : α → κ) (as : List α) : (fill key as).total w = (as.map w).sum := by
  rw [fill]
  induction as using List.reverseRecOn with
  | nil => rfl
  | append_singleton as a ih =>
    rw [List.foldl_append,List.foldl_cons,List.foldl_nil,total_push,ih]
    simp

/-- What is taken out is missing afterwards. -/
theorem total_takeFirst (w : α → Nat) (m : Buckets κ α) (k : κ) :
    (m.takeFirst k).1.elim 0 w + (m.takeFirst k).2.total w = m.total w := by
  induction m with
  | nil => rfl
  | cons entry rest ih =>
    obtain ⟨i,as⟩ := entry
    rw [takeFirst]
    split
    · cases as with
      | nil => simp [total]
      | cons a as =>
        simp [total]
        omega
    · simp only [total,List.map_cons,List.sum_cons] at ih ⊢
      omega

omit [DecidableEq κ] in
theorem total_perm (w : α → Nat) {m m' : Buckets κ α} (h : m.Perm m') : m.total w = m'.total w :=
  (h.map _).sum_eq

end

/-! The matching. -/

/-- The places of a key. -/
def places (k : κ) (ks : List κ) : List Nat := (List.range ks.length).filter fun a => ks[a]? = some k

/-- The place among the old keys that a new one is matched with: when it is the n-th new key of its
kind, that of the n-th old one. -/
def matched (olds news : List κ) (i : Nat) : Option Nat :=
  news[i]?.bind fun k => (places k olds)[(news.take i).count k]?

theorem mem_places {ks : List κ} {k : κ} {a : Nat} : a ∈ places k ks ↔ ks[a]? = some k := by
  rw [places,List.mem_filter,List.mem_range,decide_eq_true_eq,and_iff_right_iff_imp]
  intro h
  exact (List.getElem?_eq_some_iff.mp h).1

theorem matched_eq_some {olds news : List κ} {i a : Nat} (h : matched olds news i = some a) :
    ∃ k, news[i]? = some k ∧ olds[a]? = some k := by
  obtain ⟨k,hk,ha⟩ := Option.bind_eq_some_iff.mp h
  exact ⟨k,hk,mem_places.mp (List.mem_of_getElem? ha)⟩

/-- Among the keys before two places of one key there are different numbers of it. -/
theorem count_take_lt {ks : List κ} {k : κ} {i j : Nat} (hi : ks[i]? = some k) (hij : i < j) :
    (ks.take i).count k < (ks.take j).count k := by
  obtain ⟨hlen,hget⟩ := List.getElem?_eq_some_iff.mp hi
  have hstep : (ks.take (i + 1)).count k = (ks.take i).count k + 1 := by
    rw [List.take_add_one,hi,Option.toList_some,List.count_append,List.count_singleton_self]
  have hle := (List.take_sublist_take_left (l := ks) (show i + 1 ≤ j from hij)).count_le k
  omega

/-- No old place is matched twice. -/
theorem matched_inj {olds news : List κ} {i j a : Nat} (hi : matched olds news i = some a)
    (hj : matched olds news j = some a) : i = j := by
  obtain ⟨k,hk,ha⟩ := Option.bind_eq_some_iff.mp hi
  obtain ⟨k',hk',ha'⟩ := Option.bind_eq_some_iff.mp hj
  have hsame : some k = some k' :=
    (mem_places.mp (List.mem_of_getElem? ha)).symm.trans (mem_places.mp (List.mem_of_getElem? ha'))
  obtain rfl := Option.some.inj hsame
  have hnodup : (places k olds).Nodup := List.nodup_range.filter _
  obtain ⟨hlen,hget⟩ := List.getElem?_eq_some_iff.mp ha
  obtain ⟨hlen',hget'⟩ := List.getElem?_eq_some_iff.mp ha'
  have hcount := (hnodup.getElem_inj_iff).mp (hget.trans hget'.symm)
  obtain hlt | heq | hgt := lt_trichotomy i j
  · exact absurd hcount (count_take_lt hk hlt).ne
  · exact heq
  · exact absurd hcount (count_take_lt hk' hgt).ne'

/-- The elements of a key, by their places. -/
theorem filter_eq_places (key : α → κ) (as : List α) (k : κ) :
    as.filter (key · = k) = (places k (as.map key)).filterMap (as[·]?) := by
  induction as using List.reverseRecOn with
  | nil => rfl
  | append_singleton as a ih =>
    have hplaces : places k ((as ++ [a]).map key) = places k (as.map key) ++ if key a = k then [as.length] else [] := by
      rw [places,List.length_map,List.length_append,List.length_singleton,List.range_succ,List.filter_append,
        List.filter_singleton]
      congr 1
      · rw [places,List.length_map]
        apply List.filter_congr
        intro i hi
        rw [List.map_append,List.getElem?_append_left]
        rw [List.length_map]
        exact List.mem_range.mp hi
      · by_cases h : key a = k
        · simp [h]
        · simp [h]
    have hget : (places k (as.map key)).filterMap ((as ++ [a])[·]?) = (places k (as.map key)).filterMap (as[·]?) := by
      apply List.filterMap_congr
      intro i hi
      have hlen : i < (as.map key).length := (List.getElem?_eq_some_iff.mp (mem_places.mp hi)).1
      rw [List.length_map] at hlen
      exact List.getElem?_append_left hlen
    rw [hplaces,List.filterMap_append,hget,← ih,List.filter_append,List.filter_singleton]
    by_cases h : key a = k
    · simp [h]
    · simp [h]

omit [DecidableEq κ] in
/-- Where a function has a value for each element of a list, the values stand where the elements do. -/
theorem getElem?_filterMap {β : Type} {f : β → Option α} {bs : List β} (h : ∀ b ∈ bs, (f b).isSome) (n : Nat) :
    (bs.filterMap f)[n]? = bs[n]?.bind f := by
  induction bs generalizing n with
  | nil => rfl
  | cons b bs ih =>
    obtain ⟨hb,hbs⟩ := List.forall_mem_cons.mp h
    obtain ⟨a,ha⟩ := Option.isSome_iff_exists.mp hb
    rw [List.filterMap_cons,ha]
    cases n with
    | zero => exact ha.symm
    | succ n => exact ih hbs n

/-- The keys take the elements that they are matched with. -/
theorem takeAll_fill (key : α → κ) (as : List α) (ks : List κ) (i : Nat) :
    ((fill key as).takeAll ks).1[i]?.join = (matched (as.map key) ks i).bind (as[·]?) := by
  rw [takeAll_getElem?,matched]
  cases ks[i]? with
  | none => rfl
  | some k =>
    rw [Option.map_some,Option.join_some,Option.bind_some,bucket_fill,filter_eq_places]
    apply getElem?_filterMap
    intro a ha
    have hlen := (List.getElem?_eq_some_iff.mp (mem_places.mp ha)).1
    rw [List.length_map] at hlen
    exact Option.isSome_iff_exists.mpr ⟨as[a],List.getElem?_eq_getElem hlen⟩

end Buckets
end Nefor
