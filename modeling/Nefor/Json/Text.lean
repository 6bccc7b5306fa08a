import Nefor.Mag.Schema

/-! The compact text of a document. How a double is printed is left open. -/
namespace Nefor.Json

def numberText (float : F64 → String) : JsonNumber → String
  | .posInt n => toString n.val
  | .negInt n => "-" ++ toString (n.val+1)
  | .float f => float f

mutual
/-- `serde_json::to_string`: the entries of an object in the order they stand. -/
def compact (float : F64 → String) : Json → String
  | .null => "null"
  | .bool true => "true"
  | .bool false => "false"
  | .number n => numberText float n
  | .string s => Mag.quote s
  | .array items => "[" ++ ",".intercalate (compactItems float items) ++ "]"
  | .object fields => "\x7b" ++ ",".intercalate (compactFields float fields) ++ "\x7d"
def compactItems (float : F64 → String) : List Json → List String
  | [] => []
  | item :: rest => compact float item :: compactItems float rest
def compactFields (float : F64 → String) : List (String × Json) → List String
  | [] => []
  | (key,value) :: rest =>
    (Mag.quote key ++ ":" ++ compact float value) :: compactFields float rest
end

/-! The text is one line. -/

/-- The text has no line feed. -/
def OneLine (s : String) : Prop := '\n' ∉ s.toList

instance (s : String) : Decidable (OneLine s) := inferInstanceAs (Decidable (¬ _))

theorem OneLine.append {a b : String} (ha : OneLine a) (hb : OneLine b) : OneLine (a ++ b) := by
  unfold OneLine at *
  rw [String.toList_append,List.mem_append]
  exact not_or.mpr ⟨ha,hb⟩

theorem OneLine.join {texts : List String} (h : ∀ t ∈ texts, OneLine t) :
    OneLine (String.join texts) := by
  unfold OneLine at *
  rw [String.toList_join]
  intro hmem
  obtain ⟨t,ht,hc⟩ := List.mem_flatMap.mp hmem
  exact h t ht hc

theorem OneLine.intercalate {texts : List String} (h : ∀ t ∈ texts, OneLine t) :
    OneLine (",".intercalate texts) := by
  induction texts with
  | nil => simp [OneLine]
  | cons t rest ih =>
    have ht := h t List.mem_cons_self
    have hrest := ih fun u hu => h u (List.mem_cons_of_mem _ hu)
    cases rest with
    | nil => simpa using ht
    | cons u rest =>
      rw [String.intercalate_cons_cons]
      exact OneLine.append (ht.append (by decide)) hrest

theorem oneLine_toString (n : Nat) : OneLine (toString n) := by
  intro hn
  have hd := Nat.isDigit_of_mem_toDigits (c := '\n') (n := n) (b := 10) (by decide) (by decide)
    (by simpa using hn)
  exact absurd hd (by decide)

theorem oneLine_singleton {c : Char} (hc : c ≠ '\n') : OneLine (String.singleton c) := by
  simpa [OneLine] using hc.symm

theorem oneLine_escapeChar (c : Char) : OneLine (Mag.escapeChar c) := by
  unfold Mag.escapeChar
  by_cases hlf : c = '\n'
  · subst hlf
    decide
  · have hdigit : ∀ n < 16, Nat.digitChar n ≠ '\n' := by decide
    repeat' split
    · decide
    · decide
    · decide
    · decide
    · decide
    · decide
    · exact OneLine.append (OneLine.append (by decide) (oneLine_toString _))
        (oneLine_singleton (hdigit _ (Nat.mod_lt _ (by decide))))
    · exact oneLine_singleton hlf

theorem oneLine_quote (s : String) : OneLine (Mag.quote s) := by
  unfold Mag.quote
  refine OneLine.append (OneLine.append (by decide) (OneLine.join ?_)) (by decide)
  intro t ht
  obtain ⟨c,-,rfl⟩ := List.mem_map.mp ht
  exact oneLine_escapeChar c

theorem compactItems_eq (float : F64 → String) (items : List Json) :
    compactItems float items = items.map (compact float) := by
  induction items with
  | nil => rfl
  | cons item rest ih => rw [compactItems,ih,List.map_cons]

theorem compactFields_eq (float : F64 → String) (fields : Object) :
    compactFields float fields = fields.map fun e => Mag.quote e.1 ++ ":" ++ compact float e.2 := by
  induction fields with
  | nil => rfl
  | cons e rest ih =>
    obtain ⟨key,value⟩ := e
    rw [compactFields,ih,List.map_cons]

/-- A document takes one line, if every double does. -/
theorem oneLine_compact {float : F64 → String} (hf : ∀ f, OneLine (float f)) (value : Json) :
    OneLine (compact float value) := by
  induction value using induct with
  | null => exact (by decide : OneLine "null")
  | bool b =>
    cases b with
    | true => exact (by decide : OneLine "true")
    | false => exact (by decide : OneLine "false")
  | number n =>
    cases n with
    | posInt n => exact oneLine_toString _
    | negInt n => exact OneLine.append (by decide) (oneLine_toString _)
    | float f => exact hf f
  | string s => exact oneLine_quote s
  | array items ih =>
    rw [compact,compactItems_eq]
    refine OneLine.append (OneLine.append (by decide) (OneLine.intercalate ?_)) (by decide)
    intro t ht
    obtain ⟨item,hitem,rfl⟩ := List.mem_map.mp ht
    exact ih item hitem
  | object fields ih =>
    rw [compact,compactFields_eq]
    refine OneLine.append (OneLine.append (by decide) (OneLine.intercalate ?_)) (by decide)
    intro t ht
    obtain ⟨e,he,rfl⟩ := List.mem_map.mp ht
    exact OneLine.append ((oneLine_quote e.1).append (by decide)) (ih e he)

end Nefor.Json
