import Mathlib.Data.List.AList

/-! What a finite map holds after an entry was put in or taken out. -/
namespace Nefor
variable {α β : Type} [DecidableEq α] (m : AList fun _ : α => β) (a b : α)

theorem lookup_insert_ite (v : β) : (m.insert b v).lookup a = if a = b then some v else m.lookup a := by
  split
  · next h =>
    subst h
    exact AList.lookup_insert m
  · next h => exact AList.lookup_insert_ne h

theorem lookup_erase_ite : (m.erase b).lookup a = if a = b then none else m.lookup a := by
  split
  · next h =>
    subst h
    exact AList.lookup_erase a m
  · next h => exact AList.lookup_erase_ne h

theorem lookup_foldl_erase (keys : List α) :
    (keys.foldl (fun m key => m.erase key) m).lookup a = if a ∈ keys then none else m.lookup a := by
  induction keys generalizing m with
  | nil => rfl
  | cons key rest ih =>
    rw [List.foldl_cons,ih,lookup_erase_ite]
    by_cases h : a = key <;> simp [h]

end Nefor
