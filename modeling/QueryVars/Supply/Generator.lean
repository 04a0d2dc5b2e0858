import QueryVars.Fault
import QueryVars.Supply.Run

/-!
# Name generation

A generated name is a category marker, a base name and a suffix. The base name
is restricted so that the marker still reads back as the same category:
`Generator.name` carries that proof. Uniquifying a variable appends a suffix
to its whole name and so keeps its category.
-/

namespace QueryVars

structure Config where
  baseName : String
  strategy : Strategy
  deriving DecidableEq, Repr

namespace Config

def default : Config := ⟨"gen", .random⟩

instance : Inhabited Config := ⟨default⟩

def nameChar (c : Char) : Bool := c.isAlphanum || c == '_'

/-- The base name is non-empty and made of ASCII letters, digits and `_`.
Anything else could change the category that a marker announces. -/
def Valid (c : Config) : Prop :=
  c.baseName ≠ "" ∧ c.baseName.toList.all nameChar = true

instance (c : Config) : Decidable c.Valid := by unfold Valid; infer_instance

end Config

structure Naming where
  config : Config
  valid : config.Valid
  deriving DecidableEq

namespace Naming

def default : Naming := ⟨Config.default, by decide⟩

instance : Inhabited Naming := ⟨default⟩

end Naming

def Config.naming (c : Config) : Except Fault Naming :=
  if h : c.Valid then .ok ⟨c, h⟩ else .error (.invalidBaseName c.baseName)

theorem Config.Valid.ne_bang {c : Config} (h : c.Valid) (rest : String) (tail : List Char) :
    (c.baseName ++ rest).toList ≠ '!' :: tail := by
  obtain ⟨hne, hall⟩ := h
  cases hl : c.baseName.toList with
  | nil => exact absurd (String.toList_eq_nil_iff.1 hl) hne
  | cons d ds =>
    rw [hl] at hall
    simp only [String.toList_append, hl, List.cons_append]
    intro he
    obtain rfl := (List.cons.inj he).1
    revert hall
    simp [Config.nameChar]

/-- Bound to one category, usually for the length of one predicate. -/
structure Generator where
  category : Category
  naming : Naming
  deriving DecidableEq

namespace Generator

def ofCategory (category : Category) : Generator := ⟨category, Naming.default⟩

def withConfig (category : Category) (c : Config) : Except Fault Generator := do
  return ⟨category, ← c.naming⟩

def name (g : Generator) (s : Suffix) : Var where
  name := g.category.marker ++ (g.naming.config.baseName ++ s.text)
  category := g.category
  announced := Category.of?_marker_append _ (g.naming.valid.ne_bang _)

def fresh (g : Generator) : RunM Var := g.name <$> Run.draw g.naming.config.strategy

def freshMany (g : Generator) : Nat → RunM (List Var)
  | 0 => pure []
  | n + 1 => do
    let first ← g.fresh
    let rest ← g.freshMany n
    return first :: rest

@[simp] theorem category_name (g : Generator) (s : Suffix) : (g.name s).category = g.category := rfl

end Generator

namespace Var

def extend (v : Var) (s : Suffix) : Var where
  name := v.name ++ s.text
  category := v.category
  announced := Category.of?_append v.announced s.text_ne_bang

def uniquify (v : Var) (strategy : Strategy) : RunM Var := v.extend <$> Run.draw strategy

@[simp] theorem category_extend (v : Var) (s : Suffix) : (v.extend s).category = v.category := rfl

theorem extend_ne (v : Var) (s : Suffix) : v.extend s ≠ v := by
  intro h
  have hlength := congrArg (fun w => w.name.toList.length) h
  simp [extend, Suffix.toList_text] at hlength

end Var

/-- Uniquifying with the strategy of `g`; its category plays no part. -/
def Generator.uniquify (g : Generator) (v : Var) : RunM Var :=
  v.uniquify g.naming.config.strategy

end QueryVars
