import Mathlib.Logic.Relation
import Mathlib.Data.List.Perm.Subperm
import FixedLayout.Schema.Compile

/-!
# References between classes

A type mentions classes, and a class refers to others by the types of its fields. Compiling follows
these references, and keeps the classes around it on a stack.

* `TypeExpr.Mentions`: the classes that a type mentions, however deep inside;
* `Catalog.Refers`, `Catalog.Reaches`: a class that mentions another in a field, and chains of
  these;
* `Catalog.Uses`: the classes that a type mentions and those that these reach;
* `Catalog.not_reaches_self`: a class all of whose chains end does not reach itself;
* `Catalog.Nested`: the stacks that can arise. `Catalog.Nested.length_le`: none of them has more
  classes than the catalog;
* `Catalog.compileClass_of_lookup` and what follows: what happens when a class is met;
* `Catalog.compileClass_of_le`: the bound on the depth of a compilation is never met.
-/

namespace FixedLayout

/-- The classes that a type mentions. -/
inductive TypeExpr.Mentions : TypeExpr → String → Prop
  | named (name : String) : Mentions (.named name) name
  | annotated {base : TypeExpr} {constraints : List Constraint} {name : String} :
    Mentions base name → Mentions (.annotated base constraints) name
  | list {element : TypeExpr} {name : String} :
    Mentions element name → Mentions (.list element) name
  | tuple {t : TypeExpr} {elements : List TypeExpr} {isOpen : Bool} {name : String} :
    t ∈ elements → Mentions t name → Mentions (.tuple elements isOpen) name

namespace Catalog

variable {c : Catalog}

/-- A class mentions another one in the type of a field. -/
def Refers (c : Catalog) (name other : String) : Prop :=
  ∃ m, c.find? name = some (.model m) ∧ ∃ f ∈ m.fields, f.type.Mentions other

/-- One class can be reached from another by references, at least one. -/
def Reaches (c : Catalog) : String → String → Prop := Relation.TransGen c.Refers

/-- A type uses the classes that it mentions, and all that these reach. -/
def Uses (c : Catalog) (t : TypeExpr) (name : String) : Prop :=
  ∃ other, t.Mentions other ∧ Relation.ReflTransGen c.Refers other name

/-- All chains of references from a class end. -/
def Ends (c : Catalog) (name : String) : Prop := Acc (fun other name => c.Refers name other) name

/-- A class all of whose chains of references end does not reach itself. -/
theorem not_reaches_self {name : String} (h : c.Ends name) : ¬ c.Reaches name name := by
  have hacc := Acc.transGen h
  have hirrefl : ∀ x, Acc (Relation.TransGen fun other name => c.Refers name other) x →
      ¬ Relation.TransGen (fun other name => c.Refers name other) x x := by
    intro x hx
    induction hx with
    | intro x _ ih => exact fun hself => ih x hself hself
  intro hself
  exact hirrefl name hacc (Relation.transGen_swap.2 hself)

/-- What a class reaches has no infinite chain either. -/
theorem Ends.of_reaches {name other : String} (h : c.Ends name) (hreach : c.Reaches name other) :
    c.Ends other := by
  induction hreach with
  | single hrefers => exact h.inv hrefers
  | tail _ hrefers ih => exact ih.inv hrefers

/-! ### Stacks -/

/-- The classes that can be around each other while they are compiled: all are defined, and none
occurs twice. -/
structure Nested (c : Catalog) (stack : List String) : Prop where
  nodup : stack.Nodup
  defined : ∀ name ∈ stack, ∃ d, c.find? name = some d

theorem nested_nil (c : Catalog) : c.Nested [] :=
  ⟨List.nodup_nil, fun _ h => absurd h List.not_mem_nil⟩

/-- A defined class that is not on the stack can be put on it. -/
theorem Nested.push {stack : List String} {name : String} {d : Definition} (h : c.Nested stack)
    (hd : c.find? name = some d) (hnew : name ∉ stack) : c.Nested (stack ++ [name]) := by
  refine ⟨List.nodup_append.2 ⟨h.nodup, List.pairwise_singleton _ _, ?_⟩, ?_⟩
  · intro x hx y hy hxy
    rw [List.mem_singleton.1 hy] at hxy
    exact hnew (hxy ▸ hx)
  · intro other hother
    rcases List.mem_append.1 hother with hother | hother
    · exact h.defined other hother
    · rw [List.mem_singleton.1 hother]
      exact ⟨d, hd⟩

/-- There are no more classes on a stack than definitions. -/
theorem Nested.length_le {stack : List String} (h : c.Nested stack) : stack.length ≤ c.length := by
  have hsubset : stack ⊆ c.map Definition.name := by
    intro name hname
    obtain ⟨d, hd⟩ := h.defined name hname
    unfold find? at hd
    have hname := List.find?_some hd
    exact eq_of_beq hname ▸ List.mem_map_of_mem (List.mem_of_find?_eq_some hd)
  rw [← List.length_map Definition.name]
  exact (List.subperm_of_subset h.nodup hsubset).length_le

end Catalog

/-! ### Classes that are met -/

/-- The layout of what a definition defines. -/
def Definition.compile (compileClass : String → Compiler Layout) : Definition → Compiler Layout
  | .model m => m.compile compileClass
  | .enumeration e => Compiler.lift e.compile

/-- Puts what has been built for a class into the cache, unless the class is there already. -/
def Compiler.remember (name : String) (build : Compiler Layout) : Compiler Layout := fun cache =>
  match build cache with
  | (.error fault, cache) => (.error fault, cache)
  | (.ok layout, cache) =>
    match cache.lookup name with
    | some earlier => (.ok earlier, cache)
    | none => (.ok layout, (name, layout) :: cache)

namespace Compiler

variable {name : String} {build : Compiler Layout} {cache after : Cache} {l : Layout}

theorem remember_of_error {fault : SchemaFault} (h : build cache = (.error fault, after)) :
    remember name build cache = (.error fault, after) := by
  simp only [remember, h]

theorem remember_of_lookup {earlier : Layout} (h : build cache = (.ok l, after))
    (hname : after.lookup name = some earlier) :
    remember name build cache = (.ok earlier, after) := by
  simp only [remember, h, hname]

theorem remember_of_new (h : build cache = (.ok l, after)) (hname : after.lookup name = none) :
    remember name build cache = (.ok l, (name, l) :: after) := by
  simp only [remember, h, hname]

end Compiler

namespace Catalog

variable {c : Catalog} {depth : Nat} {stack : List String} {name : String} {cache : Cache}

/-- A class in the cache has the layout that is there. -/
theorem compileClass_of_lookup {l : Layout} (h : cache.lookup name = some l) :
    c.compileClass depth stack name cache = (.ok l, cache) := by
  unfold compileClass
  simp only [h]

/-- A class on the stack has no fixed size. -/
theorem compileClass_of_mem (h : cache.lookup name = none) (hstack : name ∈ stack) :
    c.compileClass depth stack name cache =
      (.error (.rejected (.containsItself name (stack ++ [name]))), cache) := by
  unfold compileClass
  simp only [h, List.contains_eq_mem, hstack, decide_true, if_true]

theorem compileClass_of_undefined (h : cache.lookup name = none) (hstack : name ∉ stack)
    (hd : c.find? name = none) :
    c.compileClass depth stack name cache = (.error (.rejected (.undefined name)), cache) := by
  unfold compileClass
  simp only [h, List.contains_eq_mem, hstack, decide_false, Bool.false_eq_true, if_false, hd]

/-- Any other class is compiled with itself on the stack. -/
theorem compileClass_of_find {d : Definition} (h : cache.lookup name = none) (hstack : name ∉ stack)
    (hd : c.find? name = some d) :
    c.compileClass (depth + 1) stack name cache =
      Compiler.remember name (d.compile (c.compileClass depth (stack ++ [name]))) cache := by
  rw [compileClass]
  simp only [h, List.contains_eq_mem, hstack, decide_false, Bool.false_eq_true, if_false, hd]
  cases d <;> rfl

/-- The bound on the depth is never met: as long as it leaves room for all definitions, another one
makes no difference. -/
theorem compileClass_of_le (hstack : c.Nested stack) {other : Nat}
    (hdepth : c.length < depth + stack.length) (hother : c.length < other + stack.length) :
    c.compileClass depth stack = c.compileClass other stack := by
  induction depth generalizing other stack with
  | zero =>
    have hle := hstack.length_le
    omega
  | succ depth ih =>
    cases other with
    | zero =>
      have hle := hstack.length_le
      omega
    | succ other =>
      funext name cache
      cases hname : cache.lookup name with
      | some l => rw [compileClass_of_lookup hname, compileClass_of_lookup hname]
      | none =>
        by_cases hmem : name ∈ stack
        · rw [compileClass_of_mem hname hmem, compileClass_of_mem hname hmem]
        · cases hd : c.find? name with
          | none =>
            rw [compileClass_of_undefined hname hmem hd, compileClass_of_undefined hname hmem hd]
          | some d =>
            have hlen : (stack ++ [name]).length = stack.length + 1 := List.length_append
            have hinner := @ih _ (hstack.push hd hmem) other (by omega) (by omega)
            rw [compileClass_of_find hname hmem hd, compileClass_of_find hname hmem hd, hinner]

/-- A type is compiled in the same way whatever the bound on the depth, if it only leaves room for
all definitions. -/
theorem compile_of_length_lt (t : TypeExpr) (h : c.length < depth) :
    t.compile (c.compileClass depth []) [] = c.compile t := by
  unfold compile
  have hsame : c.compileClass depth [] = c.compileClass (c.length + 1) [] :=
    compileClass_of_le c.nested_nil (by simpa using h) (by simp)
  rw [hsame]

end Catalog

end FixedLayout
