import QueryVars.Var.Category

/-!
# Logic variables

A variable is a name that begins with a category marker. The category is read
once, when the variable is built, and travels with the name. Variables are
ordered by name; `compare_eq` says that the category never decides.
-/

namespace QueryVars

structure Var where
  name : String
  category : Category
  announced : Category.of? name = some category
  deriving DecidableEq

namespace Var

def ofText? (text : String) : Option Var :=
  match h : Category.of? text with
  | some category => some ⟨text, category, h⟩
  | none => none

@[ext] theorem ext {v w : Var} (h : v.name = w.name) : v = w := by
  obtain ⟨name, c, hc⟩ := v
  obtain ⟨_, d, hd⟩ := w
  cases h
  obtain rfl := Option.some.inj (hc.symm.trans hd)
  rfl

@[simp] theorem ofText?_name (v : Var) : ofText? v.name = some v := by
  unfold ofText?
  split
  next c h => exact congrArg some (ext rfl)
  next h => simp [v.announced] at h

theorem ofText?_eq_some_iff {text : String} {v : Var} : ofText? text = some v ↔ v.name = text := by
  constructor
  · intro h
    unfold ofText? at h
    split at h
    next => rw [← Option.some.inj h]
    next => cases h
  · rintro rfl
    exact ofText?_name v

theorem ofText?_eq_none_iff {text : String} : ofText? text = none ↔ Category.of? text = none := by
  unfold ofText?
  split <;> simp_all

theorem exists_name_iff {text : String} :
    (∃ v : Var, v.name = text) ↔ Category.of? text ≠ none := by
  rw [ne_eq, ← ofText?_eq_none_iff, ← ne_eq, Option.ne_none_iff_exists']
  simp only [ofText?_eq_some_iff]

theorem map_category_ofText? (text : String) :
    (ofText? text).map category = Category.of? text := by
  unfold ofText?
  split <;> simp_all

instance : Ord Var := ⟨compareLex (compareOn name) (compareOn category)⟩

theorem compare_eq (v w : Var) : compare v w = compare v.name w.name := by
  change (compare v.name w.name).then (compare v.category w.category) = _
  cases h : compare v.name w.name with
  | lt => rfl
  | gt => rfl
  | eq =>
    obtain rfl := ext (Std.LawfulEqCmp.eq_of_compare h)
    cases v.category <;> rfl

instance : Std.TransOrd Var where
  eq_swap := by
    intro v w
    rw [compare_eq, compare_eq]
    exact Std.OrientedCmp.eq_swap
  isLE_trans := by
    intro u v w huv hvw
    rw [compare_eq] at *
    exact Std.TransCmp.isLE_trans huv hvw

instance : Std.LawfulEqOrd Var where
  compare_self := by
    intro v
    rw [compare_eq]
    exact Std.ReflCmp.compare_self
  eq_of_compare := by
    intro v w h
    rw [compare_eq] at h
    exact ext (Std.LawfulEqCmp.eq_of_compare h)

def sort (vs : List Var) : List Var := vs.mergeSort fun v w => (compare v w).isLE

end Var

end QueryVars
