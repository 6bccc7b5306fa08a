import Mathlib.Data.List.Forall2
import Mathlib.Data.List.Induction
import Nefor.Except
import Nefor.Provider.Stream

/-! Tool calls put together from their fragments: each index by itself, whatever comes between. -/
namespace Nefor.Provider

def concat (texts : List String) : String := texts.foldr (· ++ ·) ""

theorem concat_append (xs ys : List String) : concat (xs ++ ys) = concat xs ++ concat ys := by
  induction xs with
  | nil => exact String.empty_append.symm
  | cons x xs ih =>
    change x ++ concat (xs ++ ys) = x ++ concat xs ++ concat ys
    rw [ih,String.append_assoc]

@[simp] theorem concat_nil : concat [] = "" := rfl

@[simp] theorem concat_singleton (x : String) : concat [x] = x := String.append_empty

/-- A piece of the tool call at an index. -/
structure Fragment where
  index : Nat
  id : Option String
  kind : Option String
  name : Option String
  arguments : Option String
  deriving DecidableEq, Repr

def ToolCallBuilder.add (builder : ToolCallBuilder) (f : Fragment) : ToolCallBuilder :=
  builder.apply f.id f.kind f.name f.arguments

def ToolCallAccumulator.add (calls : ToolCallAccumulator) (f : Fragment) : ToolCallAccumulator :=
  calls.apply f.index f.id f.kind f.name f.arguments

/-- The pieces of one index, in order. -/
def ofIndex (index : Nat) (fs : List Fragment) : List Fragment := fs.filter (·.index = index)

/-- The call that the pieces make: of each field the last that was given, and all the arguments. -/
structure Made (fs : List Fragment) (call : ToolCall) : Prop where
  id : (fs.filterMap (·.id)).getLast? = some call.id
  kind : (fs.filterMap (·.kind)).getLast? = some call.kind
  name : (fs.filterMap (·.name)).getLast? = some call.function.name
  arguments : call.function.arguments = concat (fs.filterMap (·.arguments))

/-- One call for each index of the pieces, in the order of the indices. -/
def Assembled (fs : List Fragment) (calls : List ToolCall) : Prop :=
  ∃ indices : List Nat, indices.Pairwise (· < ·) ∧ (∀ index, index ∈ indices ↔ ∃ f ∈ fs, f.index = index) ∧
    List.Forall₂ (fun index call => Made (ofIndex index fs) call) indices calls

/-! The builder of an index. -/

def builderOf (fs : List Fragment) : ToolCallBuilder := fs.foldl ToolCallBuilder.add .empty

theorem builderOf_snoc (fs : List Fragment) (f : Fragment) : builderOf (fs ++ [f]) = (builderOf fs).add f := by
  simp [builderOf]

theorem getLast?_filterMap_snoc {α β : Type} (g : α → Option β) (xs : List α) (x : α) :
    ((xs ++ [x]).filterMap g).getLast? = (g x).or (xs.filterMap g).getLast? := by
  rw [List.filterMap_append,List.getLast?_append]
  cases h : g x <;> simp [h]

theorem builderOf_eq (fs : List Fragment) : builderOf fs =
    { id := (fs.filterMap (·.id)).getLast?
      kind := (fs.filterMap (·.kind)).getLast?
      name := (fs.filterMap (·.name)).getLast?
      arguments := if fs.filterMap (·.arguments) = [] then none else some (concat (fs.filterMap (·.arguments))) } := by
  induction fs using List.reverseRecOn with
  | nil => rfl
  | append_singleton fs f ih =>
    rw [builderOf_snoc,ih,getLast?_filterMap_snoc,getLast?_filterMap_snoc,getLast?_filterMap_snoc]
    simp only [ToolCallBuilder.add,ToolCallBuilder.apply]
    congr 1
    cases harguments : f.arguments with
    | none => simp [harguments]
    | some text =>
      by_cases hnil : fs.filterMap (·.arguments) = []
      · simp [harguments,hnil]
      · simp [harguments,hnil,concat_append]

theorem ToolCallBuilder.missing_eq_nil {builder : ToolCallBuilder} (h : builder.missing = []) :
    ∃ id name arguments, builder = ⟨some id,some "function",some name,some arguments⟩ := by
  obtain ⟨id,kind,name,arguments⟩ := builder
  simp only [ToolCallBuilder.missing,List.append_eq_nil_iff,ite_eq_right_iff,List.cons_ne_nil,imp_false,not_not,
    Option.isNone_iff_eq_none,Option.ne_none_iff_exists'] at h
  obtain ⟨⟨⟨⟨id,rfl⟩,rfl⟩,⟨name,rfl⟩⟩,⟨arguments,rfl⟩⟩ := h
  exact ⟨id,name,arguments,rfl⟩

/-- A builder that can be finished is the call that its pieces make. -/
theorem made_of_finalize {fs : List Fragment} {index : Nat} {call : ToolCall}
    (h : (builderOf fs).finalize index = .ok call) : Made fs call := by
  rw [ToolCallBuilder.finalize] at h
  split at h
  · cases h
  · next hmissing =>
    obtain ⟨id,name,arguments,hbuilder⟩ := ToolCallBuilder.missing_eq_nil (not_not.mp hmissing)
    rw [hbuilder] at h
    obtain rfl := Except.ok.inj h
    rw [builderOf_eq,ToolCallBuilder.mk.injEq] at hbuilder
    obtain ⟨hid,hkind,hname,harguments⟩ := hbuilder
    refine ⟨hid,hkind,hname,?_⟩
    split at harguments
    · cases harguments
    · exact (Option.some.inj harguments).symm

/-! The accumulator. -/

/-- The indices with one more. -/
def withIndex (index : Nat) : List Nat → List Nat
  | [] => [index]
  | i :: rest => if index < i then index :: i :: rest else if index = i then i :: rest else i :: withIndex index rest

section WithIndex
variable {index i : Nat} {indices : List Nat}

theorem mem_withIndex : i ∈ withIndex index indices ↔ i = index ∨ i ∈ indices := by
  induction indices with
  | nil => exact List.mem_singleton.trans (or_iff_left List.not_mem_nil).symm
  | cons j rest ih =>
    rw [withIndex]
    split
    · exact List.mem_cons
    · split
      · next heq => rw [heq,List.mem_cons,or_self_left]
      · rw [List.mem_cons,ih,List.mem_cons,or_left_comm]

theorem pairwise_withIndex (h : indices.Pairwise (· < ·)) : (withIndex index indices).Pairwise (· < ·) := by
  induction indices with
  | nil => exact List.pairwise_singleton _ _
  | cons j rest ih =>
    obtain ⟨hj,hrest⟩ := List.pairwise_cons.mp h
    rw [withIndex]
    split
    · next hlt =>
      refine List.pairwise_cons.mpr ⟨?_,h⟩
      intro k hk
      obtain rfl | hk := List.mem_cons.mp hk
      · exact hlt
      · exact hlt.trans (hj k hk)
    · next hlt =>
      split
      · exact h
      · next hne =>
        refine List.pairwise_cons.mpr ⟨?_,ih hrest⟩
        intro k hk
        obtain rfl | hk := mem_withIndex.mp hk
        · omega
        · exact hj k hk

/-- Calls by index, to which a piece is added: the builder of its index takes it, a fresh one where
there was none. -/
theorem add_map {builder : Nat → ToolCallBuilder} {f : Fragment} (h : indices.Pairwise (· < ·))
    (hempty : f.index ∉ indices → builder f.index = .empty) :
    ToolCallAccumulator.add (indices.map fun i => (i,builder i)) f =
      (withIndex f.index indices).map fun i => (i,if i = f.index then (builder i).add f else builder i) := by
  induction indices with
  | nil =>
    rw [withIndex,List.map_singleton,if_pos rfl,hempty List.not_mem_nil]
    rfl
  | cons j rest ih =>
    obtain ⟨hj,hrest⟩ := List.pairwise_cons.mp h
    have hother : ∀ k ∈ rest, j = f.index ∨ f.index < j → k ≠ f.index := by
      intro k hk hc
      have := hj k hk
      omega
    have htail (hc : j = f.index ∨ f.index < j) : (rest.map fun i => (i,builder i)) =
        rest.map fun i => (i,if i = f.index then (builder i).add f else builder i) := by
      apply List.map_congr_left
      intro k hk
      rw [if_neg (hother k hk hc)]
    rw [withIndex,List.map_cons,ToolCallAccumulator.add,ToolCallAccumulator.apply]
    split
    · next hlt =>
      have hnot : f.index ∉ j :: rest := by
        rw [List.mem_cons,not_or]
        exact ⟨hlt.ne,fun hmem => hother f.index hmem (.inr hlt) rfl⟩
      rw [List.map_cons,List.map_cons,if_pos rfl,if_neg hlt.ne',htail (.inr hlt),hempty hnot]
      rfl
    · split
      · next heq =>
        rw [List.map_cons,if_pos heq.symm,htail (.inl heq.symm)]
        rfl
      · next hne =>
        rw [List.map_cons,if_neg (Ne.symm hne),← ih hrest]
        · rfl
        · intro hmem
          exact hempty (List.not_mem_cons_of_ne_of_not_mem hne hmem)

end WithIndex

/-- The accumulator holds the builder of each index, the indices in order. -/
def Grouped (fs : List Fragment) (calls : ToolCallAccumulator) : Prop :=
  ∃ indices : List Nat, indices.Pairwise (· < ·) ∧ (∀ index, index ∈ indices ↔ ∃ f ∈ fs, f.index = index) ∧
    calls = indices.map fun index => (index,builderOf (ofIndex index fs))

section Grouped
variable {fs : List Fragment} {calls : ToolCallAccumulator} {f : Fragment}

theorem Grouped.nil : Grouped [] [] := by
  refine ⟨[],List.Pairwise.nil,?_,rfl⟩
  intro index
  simp

theorem ofIndex_snoc (index : Nat) (fs : List Fragment) (f : Fragment) :
    ofIndex index (fs ++ [f]) = if f.index = index then ofIndex index fs ++ [f] else ofIndex index fs := by
  rw [ofIndex,List.filter_append,List.filter_singleton]
  split
  · next h => rw [decide_eq_true h]; rfl
  · next h =>
    rw [decide_eq_false h]
    exact List.append_nil _

theorem Grouped.add (h : Grouped fs calls) (f : Fragment) : Grouped (fs ++ [f]) (calls.add f) := by
  obtain ⟨indices,horder,hmem,rfl⟩ := h
  refine ⟨withIndex f.index indices,pairwise_withIndex horder,?_,?_⟩
  · intro index
    rw [mem_withIndex,hmem,or_comm,eq_comm]
    simp only [List.mem_append,List.mem_singleton,or_and_right,exists_or,exists_eq_left]
  · rw [add_map horder]
    · apply List.map_congr_left
      intro index _
      rw [ofIndex_snoc]
      by_cases heq : index = f.index
      · rw [if_pos heq,if_pos heq.symm,builderOf_snoc]
      · rw [if_neg heq,if_neg (Ne.symm heq)]
    · intro hnot
      have hnone : ofIndex f.index fs = [] := by
        refine List.filter_eq_nil_iff.mpr ?_
        intro g hg
        rw [decide_eq_true_eq]
        exact fun heq => hnot ((hmem f.index).mpr ⟨g,hg,heq⟩)
      rw [hnone]
      rfl

/-- Calls finish when each of them does. -/
theorem finalize_eq_ok {toolCalls : List ToolCall} : calls.finalize = .ok toolCalls ↔
    List.Forall₂ (fun entry call => entry.2.finalize entry.1 = .ok call) calls toolCalls := by
  rw [ToolCallAccumulator.finalize]
  induction calls generalizing toolCalls with
  | nil =>
    constructor
    · intro h
      cases h
      exact .nil
    · intro h
      cases h
      rfl
  | cons entry rest ih =>
    rw [List.mapM_cons,bind_eq_ok]
    constructor
    · rintro ⟨call,hcall,hrest⟩
      obtain ⟨others,hothers,hpure⟩ := bind_eq_ok.mp hrest
      cases hpure
      exact .cons hcall (ih.mp hothers)
    · intro h
      cases h with
      | cons hcall hothers => exact ⟨_,hcall,bind_eq_ok.mpr ⟨_,ih.mpr hothers,rfl⟩⟩

/-- Calls that can be finished are assembled from their pieces. -/
theorem Grouped.assembled (h : Grouped fs calls) {toolCalls : List ToolCall}
    (hok : calls.finalize = .ok toolCalls) : Assembled fs toolCalls := by
  obtain ⟨indices,horder,hmem,rfl⟩ := h
  refine ⟨indices,horder,hmem,?_⟩
  have hmap := finalize_eq_ok.mp hok
  rw [List.forall₂_map_left_iff] at hmap
  exact hmap.imp fun _ _ => made_of_finalize

end Grouped
end Nefor.Provider
