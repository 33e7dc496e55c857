import FlatC.Layout
import FlatC.Proofs.Binding.Resolved

/-!
# What layout changes

Layout changes where symbols lie and how large they are, and nothing else
(`Symbol.Moved`). It goes through the symbols by their numbers: `Annotations.Shifts a b n m`
says that `b` is `a` with some of the symbols from `n` up to `m` moved. So what was found out
about symbols below `n` stays true, and every name stays bound.
-/

namespace FlatC

/-- `s'` is the symbol `s` at another place. -/
structure Symbol.Moved (s s' : Symbol) : Prop where
  name : s'.name = s.name
  ty : s'.ty = s.ty
  isGlobal : s'.isGlobal = s.isGlobal
  kind : s.isFunction = false → s'.kind = s.kind
  info : ∀ {i}, s.fnInfo? = some i → ∃ i', s'.fnInfo? = some i' ∧ i'.params = i.params ∧
    i'.ret = i.ret

namespace Symbol.Moved

variable {s s' s'' : Symbol}

theorem refl (s : Symbol) : s.Moved s :=
  ⟨rfl, rfl, rfl, fun _ => rfl, fun h => ⟨_, h, rfl, rfl⟩⟩

theorem isFunction (h : s.Moved s') : s'.isFunction = s.isFunction := by
  cases hf : s.isFunction with
  | false => simp [Symbol.isFunction, Symbol.fnInfo?, h.kind hf] at hf ⊢; exact hf
  | true =>
    obtain ⟨i, hi⟩ := Option.isSome_iff_exists.1 hf
    obtain ⟨i', hi', -⟩ := h.info hi
    simp [Symbol.isFunction, hi']

theorem trans (h : s.Moved s') (h' : s'.Moved s'') : s.Moved s'' where
  name := h'.name.trans h.name
  ty := h'.ty.trans h.ty
  isGlobal := h'.isGlobal.trans h.isGlobal
  kind hf := (h'.kind (h.isFunction.trans hf)).trans (h.kind hf)
  info hi := by
    obtain ⟨i', hi', hp, hr⟩ := h.info hi
    obtain ⟨i'', hi'', hp', hr'⟩ := h'.info hi'
    exact ⟨i'', hi'', hp'.trans hp, hr'.trans hr⟩

/-- A change of numbers that keeps the kind. -/
theorem of_kind (hn : s'.name = s.name) (ht : s'.ty = s.ty) (hg : s'.isGlobal = s.isGlobal)
    (hk : s'.kind = s.kind) : s.Moved s' :=
  ⟨hn, ht, hg, fun _ => hk, fun {i} hi => ⟨i, by simpa [fnInfo?, hk] using hi, rfl, rfl⟩⟩

theorem alike (h : s.Moved s') (hf : s.isFunction = false) : s.Alike s' :=
  ⟨h.name, h.ty, h.kind hf, h.isGlobal⟩

theorem definition? (h : s.Moved s') : s'.definition? = s.definition? := by
  cases hf : s.isFunction with
  | false => exact (h.alike hf).definition?
  | true =>
    have none_of : ∀ t : Symbol, t.isFunction = true → t.definition? = none := by
      intro t ht
      cases hd : t.definition? with
      | none => rfl
      | some d => rw [Symbol.isFunction_of_definition hd] at ht; cases ht
    rw [none_of s hf, none_of s' (h.isFunction.trans hf)]

end Symbol.Moved

theorem Layout.fnInfo?_setSpaces {formalSpace localSpace : Nat} {s : Symbol} {info : FnInfo}
    (h : s.fnInfo? = some info) : (setSpaces formalSpace localSpace s).fnInfo? =
      some { info with formalSpace, localSpace } := by
  unfold Symbol.fnInfo? at h
  split at h
  next i hk =>
    cases h
    simp [setSpaces, hk, Symbol.fnInfo?]
  next => cases h

theorem Layout.moved_setSpaces (formalSpace localSpace : Nat) (s : Symbol) :
    s.Moved (setSpaces formalSpace localSpace s) := by
  cases hk : s.kind with
  | fn info =>
    refine ⟨?_, ?_, ?_, fun hf => ?_, fun {i} hi => ⟨_, fnInfo?_setSpaces hi, rfl, rfl⟩⟩
    · simp [setSpaces, hk]
    · simp [setSpaces, hk]
    · simp [setSpaces, hk]
    · simp [Symbol.isFunction, Symbol.fnInfo?, hk] at hf
  | var | structDef | structVar => simp only [setSpaces, hk]; exact .refl s

namespace Annotations

/-- `b` is `a` with symbols from `n` up to `m` moved. -/
structure Shifts (a b : Annotations) (n m : Nat) : Prop where
  links : b.links = a.links
  types : b.types = a.types
  size : b.symbols.size = a.symbols.size
  kept : ∀ {k : Nat}, k < n ∨ m ≤ k → b.symbol? k = a.symbol? k
  moved : ∀ {k : Nat} {s}, a.symbol? k = some s → ∃ s', b.symbol? k = some s' ∧ s.Moved s'

namespace Shifts

variable {a b c : Annotations} {n m l : Nat}

theorem refl (a : Annotations) (n m : Nat) : a.Shifts a n m :=
  ⟨rfl, rfl, rfl, fun _ => rfl, fun h => ⟨_, h, .refl _⟩⟩

theorem mono {n' m' : Nat} (h : a.Shifts b n m) (hn : n' ≤ n) (hm : m ≤ m') : a.Shifts b n' m' :=
  { h with kept := fun hk => h.kept (by omega) }

theorem trans (h : a.Shifts b n m) (h' : b.Shifts c n m) : a.Shifts c n m where
  links := h'.links.trans h.links
  types := h'.types.trans h.types
  size := h'.size.trans h.size
  kept hk := (h'.kept hk).trans (h.kept hk)
  moved hs := by
    obtain ⟨s', hs', hm⟩ := h.moved hs
    obtain ⟨s'', hs'', hm'⟩ := h'.moved hs'
    exact ⟨s'', hs'', hm.trans hm'⟩

/-- Neighbouring symbols are moved one after the other. -/
theorem append (h : a.Shifts b n m) (h' : b.Shifts c m l) (hn : n ≤ m) (hm : m ≤ l) :
    a.Shifts c n l :=
  (h.mono (Nat.le_refl n) hm).trans (h'.mono hn (Nat.le_refl l))

theorem linked? (h : a.Shifts b n m) (i : NodeId) : b.linked? i = a.linked? i := by
  rw [Annotations.linked?, h.links]
  rfl

theorem keeps (h : a.Shifts b n m) : a.Keeps b where
  link hl := by unfold Links at hl ⊢; rwa [h.links]
  symbol hs hf := by
    obtain ⟨s', hs', hm⟩ := h.moved hs
    exact ⟨s', hs', hm.alike hf⟩

/-- Nothing that is not there before is there afterwards. -/
theorem back (h : a.Shifts b n m) {k : SymbolId} {s' : Symbol} (hs' : b.symbol? k = some s') :
    ∃ s, a.symbol? k = some s ∧ s.Moved s' := by
  obtain ⟨s, hs⟩ := exists_symbol? (a := a) (h.size ▸ symbol?_lt hs')
  obtain ⟨s'', hs'', hm⟩ := h.moved hs
  obtain rfl := Option.some.inj (hs'.symm.trans hs'')
  exact ⟨s, hs, hm⟩

end Shifts

theorem shifts_update {a : Annotations} {k n m : Nat} {f : Symbol → Symbol} (hn : n ≤ k)
    (hm : k < m) (hf : ∀ s : Symbol, s.Moved (f s)) : a.Shifts (a.update k f) n m where
  links := rfl
  types := rfl
  size := size_update
  kept {j} hk := by rw [symbol?_update, if_neg fun h : (j : Nat) = k => by omega]
  moved {j s} hs := by
    rw [symbol?_update]
    split
    · exact ⟨f s, by rw [hs]; rfl, hf s⟩
    · exact ⟨s, hs, .refl s⟩

end Annotations

theorem Symbol.Moved.described {s s' : Symbol} (h : s.Moved s') {f : FnDecl}
    (hf : f.Described s) : f.Described s' := by
  obtain ⟨hty, info, hinfo, hparams, hret⟩ := hf
  obtain ⟨info', hinfo', hp, hr⟩ := h.info hinfo
  exact ⟨h.ty.trans hty, info', hinfo', hp.trans hparams, hr.trans hret⟩

theorem Binding.FnsDescribed.shift {a b : Annotations} {n m i : Nat} {ds : List Decl}
    (h : FnsDescribed a i ds) (hs : a.Shifts b n m) : FnsDescribed b i ds := by
  refine h.imp fun hk => ?_
  obtain ⟨s', hk', hm⟩ := hs.moved hk
  exact ⟨s', hk', fun _ => hm.described⟩

/-- Where things lie does not matter for names. -/
theorem Resolved.shift {p : Program} {a b : Annotations} {n m : Nat} (h : Resolved p a)
    (hs : a.Shifts b n m) : Resolved p b where
  sane := by
    refine ⟨fun hl => ?_, fun hk hd => ?_, fun hk hf hx => ?_, fun hk => ?_⟩
    · rw [hs.size]
      unfold Annotations.Links at hl
      rw [hs.links] at hl
      exact h.sane.link hl
    · obtain ⟨s, hk, hm⟩ := hs.back hk
      rw [hm.definition?] at hd
      rw [hs.size]
      exact h.sane.definition hk hd
    · obtain ⟨s, hk, hm⟩ := hs.back hk
      have hfn : s.isFunction = false := hm.isFunction ▸ Symbol.isFunction_of_fields hf
      rw [(hm.alike hfn).fields?] at hf
      rw [hs.size]
      exact h.sane.field hk hf hx
    · obtain ⟨s, hk, hm⟩ := hs.back hk
      rw [hm.ty]
      exact h.sane.stringless hk
  single i := by rw [Annotations.linkCount, hs.links]; exact h.single i
  size := hs.size.trans h.size
  lasting := h.lasting.keep hs.keeps
  described := h.described.shift hs
  nodup := h.nodup

end FlatC
