import FlatC.Binding

/-!
# How notes grow

Binding only adds to the notes: links stay, and a symbol keeps its name, type, kind and
scope. `Annotations.Keeps` is that relation; what it leaves open is where a symbol lies
and the details of functions. `Annotations.Sane` says that every number in the notes is the
number of a symbol.
-/

namespace FlatC

/-- The type of something that neither is a string nor returns one. -/
def Ty.Stringless (t : Ty) : Prop := t ≠ .string ∧ ∀ ps r, t = .fn ps r → r ≠ .string

theorem Ty.ofScalar_ne_error (s : Scalar) : Ty.ofScalar s ≠ .error := by
  cases s <;> simp [Ty.ofScalar]

theorem Ty.stringless_ofScalar (s : Scalar) : (Ty.ofScalar s).Stringless := by
  cases s <;> exact ⟨by simp [Ty.ofScalar], by simp [Ty.ofScalar]⟩

theorem Ty.stringless_fn {ps : List Ty} {s : Scalar} : (Ty.fn ps (.ofScalar s)).Stringless := by
  refine ⟨by simp, ?_⟩
  rintro _ _ ⟨⟩
  exact (Ty.stringless_ofScalar s).1

namespace Annotations

/-- The identifier occurrence `node` was linked to the symbol `k`. -/
def Links (a : Annotations) (node : NodeId) (k : SymbolId) : Prop := (node, k) ∈ a.links.entries

/-- How often an identifier occurrence was linked. -/
def linkCount (a : Annotations) (node : NodeId) : Nat := (a.links.entries.map Prod.fst).count node

/-- The numbers in the notes are those of symbols, and no symbol is or gives a string. -/
structure Sane (a : Annotations) : Prop where
  link : ∀ {i k}, a.Links i k → k < a.symbols.size
  definition : ∀ {k s d}, a.symbol? k = some s → s.definition? = some d → d < a.symbols.size
  field : ∀ {k s fields x i}, a.symbol? k = some s → s.fields? = some fields →
    fields.lookup x = some i → i < a.symbols.size
  stringless : ∀ {k s}, a.symbol? k = some s → s.ty.Stringless

end Annotations

/-- What no later stage changes of a symbol that is no function. -/
structure Symbol.Alike (s s' : Symbol) : Prop where
  name : s'.name = s.name
  ty : s'.ty = s.ty
  kind : s'.kind = s.kind
  isGlobal : s'.isGlobal = s.isGlobal

theorem Symbol.Alike.refl (s : Symbol) : s.Alike s := ⟨rfl, rfl, rfl, rfl⟩

theorem Symbol.Alike.trans {s s' s'' : Symbol} (h : s.Alike s') (h' : s'.Alike s'') :
    s.Alike s'' :=
  ⟨h'.name.trans h.name, h'.ty.trans h.ty, h'.kind.trans h.kind, h'.isGlobal.trans h.isGlobal⟩

theorem Symbol.Alike.definition? {s s' : Symbol} (h : s.Alike s') :
    s'.definition? = s.definition? := by
  simp [Symbol.definition?, h.kind]

theorem Symbol.Alike.fields? {s s' : Symbol} (h : s.Alike s') : s'.fields? = s.fields? := by
  simp [Symbol.fields?, h.kind]

theorem Symbol.isFunction_of_definition {s : Symbol} {d : SymbolId} (h : s.definition? = some d) :
    s.isFunction = false := by
  unfold Symbol.definition? at h
  split at h
  next hk => simp [isFunction, fnInfo?, hk]
  next => cases h

theorem Symbol.isFunction_of_fields {s : Symbol} {fields : Scope} (h : s.fields? = some fields) :
    s.isFunction = false := by
  unfold Symbol.fields? at h
  split at h
  next hk => simp [isFunction, fnInfo?, hk]
  next => cases h

namespace Annotations

/-- `b` has all that was noted in `a`. -/
structure Keeps (a b : Annotations) : Prop where
  link : ∀ {i k}, a.Links i k → b.Links i k
  symbol : ∀ {k s}, a.symbol? k = some s → s.isFunction = false →
    ∃ s', b.symbol? k = some s' ∧ s.Alike s'

theorem Keeps.refl (a : Annotations) : a.Keeps a := ⟨id, fun h _ => ⟨_, h, .refl _⟩⟩

theorem Keeps.trans {a b c : Annotations} (h : a.Keeps b) (h' : b.Keeps c) : a.Keeps c where
  link hl := h'.link (h.link hl)
  symbol hs hf := by
    obtain ⟨s', hs', ha⟩ := h.symbol hs hf
    have hf' : s'.isFunction = false := by
      rw [← hf]; simp [Symbol.isFunction, Symbol.fnInfo?, ha.kind]
    obtain ⟨s'', hs'', ha'⟩ := h'.symbol hs' hf'
    exact ⟨s'', hs'', ha.trans ha'⟩

theorem symbol?_lt {a : Annotations} {k : SymbolId} {s : Symbol} (h : a.symbol? k = some s) :
    k < a.symbols.size := (Array.getElem?_eq_some_iff.1 h).1

theorem exists_symbol? {a : Annotations} {k : SymbolId} (h : k < a.symbols.size) :
    ∃ s, a.symbol? k = some s := ⟨_, Array.getElem?_eq_some_iff.2 ⟨h, rfl⟩⟩

/-! ## The steps of binding -/

section Steps

variable {a : Annotations} {i node : NodeId} {k id : SymbolId} {s : Symbol}

theorem links_link : (a.link node id).Links i k ↔ (i = node ∧ k = id) ∨ a.Links i k := by
  simp [Links, link, NodeMap.insert]

@[simp] theorem symbol?_link : (a.link node id).symbol? k = a.symbol? k := rfl

@[simp] theorem symbols_link : (a.link node id).symbols = a.symbols := rfl

theorem linkCount_link : (a.link node id).linkCount i = a.linkCount i + [node].count i := by
  simp [linkCount, link, NodeMap.insert, List.count_cons]

@[simp] theorem links_add : (a.add s).2.Links i k ↔ a.Links i k := .rfl

@[simp] theorem linkCount_add : (a.add s).2.linkCount i = a.linkCount i := rfl

@[simp] theorem size_add : (a.add s).2.symbols.size = a.symbols.size + 1 := by simp [add]

theorem symbol?_add_of_lt (h : k < a.symbols.size) : (a.add s).2.symbol? k = a.symbol? k := by
  simp [symbol?, add, Array.getElem?_push, Nat.ne_of_lt h]

@[simp] theorem symbol?_add_self : (a.add s).2.symbol? a.symbols.size = some s := by
  simp [symbol?, add]

theorem symbol?_add_eq_some {s' : Symbol} (h : (a.add s).2.symbol? k = some s') :
    (k = a.symbols.size ∧ s' = s) ∨ a.symbol? k = some s' := by
  simp only [symbol?, add, Array.getElem?_push] at h
  split at h
  next hk => exact .inl ⟨hk, (Option.some.inj h).symm⟩
  next => exact .inr h

@[simp] theorem links_update {f : Symbol → Symbol} : (a.update id f).Links i k ↔ a.Links i k :=
  .rfl

@[simp] theorem linkCount_update {f : Symbol → Symbol} :
    (a.update id f).linkCount i = a.linkCount i := rfl

@[simp] theorem size_update {f : Symbol → Symbol} :
    (a.update id f).symbols.size = a.symbols.size := by simp [update]

theorem symbol?_update {f : Symbol → Symbol} :
    (a.update id f).symbol? k = if k = id then (a.symbol? k).map f else a.symbol? k := by
  simp only [symbol?, update, Array.getElem?_modify]
  by_cases h : k = id
  · simp [h]
  · simp [h, Ne.symm h]

end Steps

theorem Sane.link' {a : Annotations} {node : NodeId} {id : SymbolId} (h : a.Sane)
    (hid : id < a.symbols.size) : (a.link node id).Sane where
  link hl := by
    obtain ⟨-, rfl⟩ | hl := links_link.1 hl
    · exact hid
    · exact h.link hl
  definition := h.definition
  field := h.field
  stringless := h.stringless

/-- A symbol can be added whose own numbers are those of symbols. -/
theorem Sane.add {a : Annotations} {s : Symbol} (h : a.Sane)
    (hd : ∀ d, s.definition? = some d → d < a.symbols.size)
    (hf : ∀ fields x i, s.fields? = some fields → fields.lookup x = some i → i < a.symbols.size)
    (hty : s.ty.Stringless) : (a.add s).2.Sane where
  link hl := by rw [size_add]; exact Nat.lt_succ_of_lt (h.link hl)
  definition hs hd' := by
    rw [size_add]
    obtain ⟨-, rfl⟩ | hs := symbol?_add_eq_some hs
    · exact Nat.lt_succ_of_lt (hd _ hd')
    · exact Nat.lt_succ_of_lt (h.definition hs hd')
  field hs hf' hx := by
    rw [size_add]
    obtain ⟨-, rfl⟩ | hs := symbol?_add_eq_some hs
    · exact Nat.lt_succ_of_lt (hf _ _ _ hf' hx)
    · exact Nat.lt_succ_of_lt (h.field hs hf' hx)
  stringless hs := by
    obtain ⟨-, rfl⟩ | hs := symbol?_add_eq_some hs
    · exact hty
    · exact h.stringless hs

theorem sane_empty : empty.Sane where
  link h := by simp [Links, empty, NodeMap.empty] at h
  definition h := by simp [empty, symbol?] at h
  field h := by simp [empty, symbol?] at h
  stringless h := by simp [empty, symbol?] at h

end Annotations

namespace Binding.State

/-- What a step of binding does, whatever it is: it adds links, those of the occurrences `ids` at
most, symbols, and reports of errors. -/
structure Grows (ids : List NodeId) (s s' : State) : Prop where
  link : ∀ {i k}, s.notes.Links i k → s'.notes.Links i k
  count : ∀ i, s'.notes.linkCount i ≤ s.notes.linkCount i + ids.count i
  size : s.notes.symbols.size ≤ s'.notes.symbols.size
  kept : ∀ {k}, k < s.notes.symbols.size → s'.notes.symbol? k = s.notes.symbol? k
  reported : ∃ rs, s'.reports = s.reports ++ rs ∧ ∀ r ∈ rs, r.isError = true
  sane : s.notes.Sane → s'.notes.Sane

variable {ids ids' : List NodeId} {s s' s'' : State}

theorem Grows.refl (s : State) : Grows [] s s :=
  ⟨id, fun _ => Nat.le_refl _, Nat.le_refl _, fun _ => rfl, ⟨[], by simp⟩, id⟩

/-- Nothing has been reported if nothing is reported in the end. -/
theorem Grows.reports (h : Grows ids s s') (hr : s'.reports = []) : s.reports = [] := by
  obtain ⟨rs, hrs, -⟩ := h.reported
  exact (List.append_eq_nil_iff.1 (hrs.symm.trans hr)).1

theorem Grows.trans (h : Grows ids s s') (h' : Grows ids' s' s'') : Grows (ids ++ ids') s s'' where
  link hl := h'.link (h.link hl)
  count i := by
    have h1 := h.count i
    have h2 := h'.count i
    rw [List.count_append]
    omega
  size := Nat.le_trans h.size h'.size
  kept hk := (h'.kept (Nat.lt_of_lt_of_le hk h.size)).trans (h.kept hk)
  reported := by
    obtain ⟨rs, hrs, herr⟩ := h.reported
    obtain ⟨rs', hrs', herr'⟩ := h'.reported
    refine ⟨rs ++ rs', by rw [hrs', hrs, List.append_assoc], fun r hr => ?_⟩
    exact (List.mem_append.1 hr).elim (herr r) (herr' r)
  sane hs := h'.sane (h.sane hs)

/-- The occurrences that may be linked can be counted generously. -/
theorem Grows.mono (h : Grows ids s s') (hids : ∀ i, ids.count i ≤ ids'.count i) :
    Grows ids' s s' :=
  { h with count := fun i => Nat.le_trans (h.count i) (Nat.add_le_add_left (hids i) _) }

theorem Grows.keeps (h : Grows ids s s') : s.notes.Keeps s'.notes where
  link := h.link
  symbol hs _ := ⟨_, (h.kept (Annotations.symbol?_lt hs)).trans hs, .refl _⟩

end Binding.State

end FlatC
