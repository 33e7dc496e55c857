import Std.Data.ExtTreeMap

/-!
# Scopes

A **scope** maps names to symbols and remembers the order in which they were
declared. A scope serves for a block of the program and for the fields of a
struct. A **scope table** is the scope of the whole program with the scopes of
the blocks that are open in it; the program's own scope is always there.
-/

namespace FlatC

/-- The number of a symbol. -/
abbrev SymbolId := Nat

/-- What can be wrong with a change to a scope table. -/
inductive ScopeError where
  | noScope
  | duplicate (name : String)
  | noName
  deriving DecidableEq, Repr

def ScopeError.message : ScopeError → String
  | noScope => "no scope left to remove"
  | duplicate name => "'" ++ name ++ "' is already declared in this scope"
  | noName => "missing name for declaration"

/-- The symbols of names, and the names in the order of declaration. The map and the list
have the same names, and no name comes twice. -/
structure Scope where
  symbols : Std.ExtTreeMap String SymbolId
  order : List String
  nodup : order.Nodup
  mem_symbols : ∀ name, name ∈ symbols ↔ name ∈ order

namespace Scope

def empty : Scope where
  symbols := ∅
  order := []
  nodup := List.nodup_nil
  mem_symbols := by simp

instance : Inhabited Scope := ⟨empty⟩

/-- The names with their symbols, in the order of declaration. -/
def entries (s : Scope) : List (String × SymbolId) :=
  s.order.filterMap fun name => s.symbols[name]?.map (name, ·)

instance : Repr Scope := ⟨fun s n => reprPrec s.entries n⟩

/-- The symbol of a name. -/
def lookup (s : Scope) (name : String) : Option SymbolId := s.symbols[name]?

def contains (s : Scope) (name : String) : Bool := s.symbols.contains name

def size (s : Scope) : Nat := s.order.length

def isEmpty (s : Scope) : Bool := s.order.isEmpty

/-- Puts a name behind the others. -/
def declare (s : Scope) (name : String) (id : SymbolId) : Except ScopeError Scope :=
  if name = "" then .error .noName
  else if h : name ∈ s.symbols then .error (.duplicate name)
  else
    .ok {
      symbols := s.symbols.insert name id
      order := s.order ++ [name]
      nodup := by
        rw [s.mem_symbols] at h
        refine List.nodup_append.2 ⟨s.nodup, by simp, ?_⟩
        rintro a ha b hb rfl
        exact h (List.mem_singleton.1 hb ▸ ha)
      mem_symbols := by
        intro x
        simp [Std.ExtTreeMap.mem_insert, s.mem_symbols, or_comm, eq_comm (a := name)] }

/-- The scope of a list of names with their symbols. -/
def ofList (es : List (String × SymbolId)) : Except ScopeError Scope :=
  es.foldlM (fun s e => s.declare e.1 e.2) empty

/-! ## A scope as the list of its entries -/

section

variable {m : Std.ExtTreeMap String SymbolId} {names : List String}

theorem names_filterMap (h : ∀ x ∈ names, x ∈ m) :
    (names.filterMap fun x => m[x]?.map (x, ·)).map Prod.fst = names := by
  induction names with
  | nil => rfl
  | cons x names ih =>
    rw [List.forall_mem_cons] at h
    obtain ⟨id, hid⟩ := Option.isSome_iff_exists.1 (Std.ExtTreeMap.isSome_getElem?_iff_mem.2 h.1)
    simp [hid, ih h.2]

theorem lookup_filterMap (h : ∀ x ∈ names, x ∈ m) (name : String) :
    (names.filterMap fun x => m[x]?.map (x, ·)).lookup name =
      if name ∈ names then m[name]? else none := by
  induction names with
  | nil => rfl
  | cons x names ih =>
    rw [List.forall_mem_cons] at h
    obtain ⟨id, hid⟩ := Option.isSome_iff_exists.1 (Std.ExtTreeMap.isSome_getElem?_iff_mem.2 h.1)
    by_cases hx : name = x
    · simp [hx, hid]
    · simp [hid, List.lookup_cons, beq_false_of_ne hx, hx, ih h.2]

/-- A new symbol does not change those of other names. -/
theorem filterMap_insert {x : String} (h : x ∉ names) (id : SymbolId) :
    (names.filterMap fun y => (m.insert x id)[y]?.map (y, ·)) =
      names.filterMap fun y => m[y]?.map (y, ·) := by
  induction names with
  | nil => rfl
  | cons y names ih =>
    rw [List.mem_cons, not_or] at h
    obtain ⟨hne, hrest⟩ := h
    rw [List.filterMap_cons, List.filterMap_cons, ih hrest, Std.ExtTreeMap.getElem?_insert,
      if_neg (by simpa using hne)]

end

variable {s s' : Scope} {name x : String} {id : SymbolId}

theorem names_entries (s : Scope) : s.entries.map Prod.fst = s.order :=
  names_filterMap fun x hx => (s.mem_symbols x).2 hx

theorem nodup_names (s : Scope) : (s.entries.map Prod.fst).Nodup := by
  rw [names_entries]
  exact s.nodup

theorem contains_eq_isSome : s.contains name = (s.lookup name).isSome :=
  Std.ExtTreeMap.isSome_getElem?_eq_contains.symm

@[simp] theorem lookup_empty : empty.lookup name = none := rfl

theorem lookup_eq_none_iff_symbols : s.lookup name = none ↔ name ∉ s.symbols := by
  rw [← Std.ExtTreeMap.isSome_getElem?_iff_mem, Option.not_isSome_iff_eq_none]
  rfl

theorem lookup_eq_none_iff : s.lookup name = none ↔ name ∉ s.entries.map Prod.fst := by
  rw [names_entries, ← s.mem_symbols]
  exact lookup_eq_none_iff_symbols

/-- The map and the entries tell the same of every name. -/
theorem lookup_eq_entries (s : Scope) (name : String) : s.lookup name = s.entries.lookup name := by
  rw [entries, lookup_filterMap fun x hx => (s.mem_symbols x).2 hx]
  split
  next => rfl
  next h => exact lookup_eq_none_iff_symbols.2 fun hmem => h ((s.mem_symbols name).1 hmem)

/-- A scope is known by its entries. -/
theorem ext_entries (h : s.entries = s'.entries) : s = s' := by
  have horder : s.order = s'.order := by rw [← names_entries, h, names_entries]
  have hsymbols : s.symbols = s'.symbols := by
    refine Std.ExtTreeMap.ext_getElem? fun k => ?_
    have hk := s.lookup_eq_entries k
    rw [h, ← s'.lookup_eq_entries] at hk
    exact hk
  cases s
  cases s'
  cases horder
  cases hsymbols
  rfl

/-- A name that is declared goes behind the others. -/
theorem entries_of_declare (h : s.declare x id = .ok s') : s'.entries = s.entries ++ [(x, id)] := by
  unfold declare at h
  split at h
  next => cases h
  next =>
    split at h
    next => cases h
    next hx =>
      obtain rfl := Except.ok.inj h
      rw [s.mem_symbols] at hx
      simp [entries, List.filterMap_append, filterMap_insert hx]

end Scope

/-- The open scopes: the innermost one and those around it, from the inside out. -/
structure ScopeTable where
  inner : Scope
  outer : List Scope

namespace ScopeTable

/-- Only the scope of the program, with nothing in it. -/
def initial : ScopeTable := ⟨.empty, []⟩

instance : Inhabited ScopeTable := ⟨initial⟩

/-- The open scopes from the inside out. -/
def scopes (t : ScopeTable) : List Scope := t.inner :: t.outer

def depth (t : ScopeTable) : Nat := t.scopes.length

/-- Declarations go to the scope of the program. -/
def atProgramLevel (t : ScopeTable) : Bool := t.outer.isEmpty

/-- Opens a scope. -/
def enter (t : ScopeTable) : ScopeTable := ⟨.empty, t.scopes⟩

/-- Closes the innermost scope, unless it is the program's. -/
def leave (t : ScopeTable) : Except ScopeError (Scope × ScopeTable) :=
  match t.outer with
  | [] => .error .noScope
  | s :: ss => .ok (t.inner, ⟨s, ss⟩)

/-- Declares a name in the innermost scope. -/
def declare (t : ScopeTable) (name : String) (id : SymbolId) : Except ScopeError ScopeTable :=
  match t.inner.declare name id with
  | .ok inner => .ok { t with inner }
  | .error e => .error e

/-- The symbol of a name in the innermost scope. -/
def lookupLocal (t : ScopeTable) (name : String) : Option SymbolId := t.inner.lookup name

/-- The symbol of a name in the innermost scope that has it. -/
def lookup (t : ScopeTable) (name : String) : Option SymbolId :=
  t.scopes.findSome? (·.lookup name)

end ScopeTable

/-- The name under which a struct is declared. No identifier has a blank in it, so
structs share no names with variables and functions. -/
def structKey (name : String) : String := "struct " ++ name

end FlatC
