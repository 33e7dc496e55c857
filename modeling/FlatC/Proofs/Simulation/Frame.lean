import FlatC.Proofs.Layout.Disjoint
import FlatC.Proofs.Machine.Run
import FlatC.Proofs.Meaning.Execution

/-!
# The memory of a running program

The variables of a function that runs lie in its frame, those outside all functions in the data
section. `Agrees` says that the memory holds what the world says; it survives whatever does not
touch those words, and an assignment of the program is a store of the machine
(`Agrees.set`), because no two words of variables lie at the same address (`place_inj`).
-/

namespace FlatC

open Binding Annotations Layout

/-- The machine runs the code of `p`, in which no label is defined twice. -/
structure Compiled (m : Machine) (o : Options) (p : Program) (b : Annotations) : Prop where
  ready : Ready p b
  nodup : p.ids.Nodup
  code : ∃ n, generate o p b 0 = .ok (m.code, n)
  labels : m.code.labels.Nodup

theorem Root.of_variable {p : Program} {f : FnDecl} {d : VarDecl} (h : d ∈ f.variables) :
    Root p f d := by
  obtain h | h := List.mem_append.1 h
  · obtain ⟨q, hq, rfl⟩ := List.mem_map.1 h
    exact .param hq
  · exact .inner h

/-- The address of a location, in the frame at `base`. -/
def Machine.place? (m : Machine) (base : Int) : Location → Option Int
  | .global label offset => (m.address? label).map (· + offset)
  | .frame offset => some (base + offset)

theorem Machine.target?_address (m : Machine) (s : Machine.State) (l : Location) :
    m.target? s l.address = m.place? (s.regs .fp) l := by
  cases l <;> rfl

/-- An activation of a function of the program, whose frame lies in the stack at `base`. -/
structure Frame (m : Machine) (p : Program) (b : Annotations) where
  fn : FnDecl
  info : FnInfo
  base : Int
  mem : Decl.fn fn ∈ p.decls
  noted : (b.symbolOf? fn.name.id).bind Symbol.fnInfo? = some info
  base_le : base ≤ m.stackStart
  dvd : (wordSize : Int) ∣ base

section

variable {m : Machine} {o : Options} {p : Program} {b : Annotations} {fr : Frame m p b}
  {d d' : VarDecl} {xs xs' : List VarDecl} {a : Int}

namespace Frame

/-- The first address below a frame. -/
def low (fr : Frame m p b) : Int :=
  fr.base - fr.info.formalSpace - savedSpace - fr.info.localSpace

/-- The address belongs to the variables of the frame. -/
def HasVariable (fr : Frame m p b) (a : Int) : Prop :=
  (fr.base - fr.info.formalSpace < a ∧ a ≤ fr.base) ∨
    (fr.low < a ∧ a ≤ fr.base - fr.info.formalSpace - savedSpace)

end Frame

/-- A word of a variable of the function lies in the frame. -/
theorem Frame.variable_at (fr : Frame m p b) (h : Compiled m o p b)
    (hd : d ∈ fr.fn.variables) (hx : Leads p.decls d.type xs) :
    ∃ u, slot b d xs = .frame u ∧ (wordSize : Int) ∣ fr.base + u ∧
      fr.HasVariable (fr.base + u) := by
  obtain ⟨n, hn⟩ := h.ready.fnAt fr.mem
  obtain ⟨k, u, hocc⟩ : ∃ k u, Occupies b fr.fn n d k u := by
    obtain hd | hd := List.mem_append.1 hd
    · obtain ⟨q, hq, rfl⟩ := List.mem_map.1 hd
      obtain ⟨i, hi⟩ := List.getElem?_of_mem hq
      exact ⟨_, _, .param hi⟩
    · obtain ⟨i, hi⟩ := List.getElem?_of_mem hd
      exact ⟨_, _, .inner hi⟩
  have hres := reserved_frame hn h.ready hocc hx
  have hslot := hn.slot_eq h.ready.resolved hocc xs
  rw [hslot] at hres
  obtain ⟨info, hinfo, hdvd, hrange, -⟩ := hres
  obtain rfl := Option.some.inj (hinfo.symm.trans fr.noted)
  refine ⟨_, hslot, Int.dvd_add fr.dvd hdvd, ?_⟩
  unfold HasVariable low
  omega

/-- A word outside all functions lies in the room that is made for its variable. -/
theorem Compiled.outer_at (h : Compiled m o p b) (hd : Decl.var d ∈ p.decls)
    (hx : Leads p.decls d.type xs) :
    ∃ x ∈ m.data, ∃ u : Nat, slot b d xs = .global x.label u ∧ m.address? x.label = some x.address ∧
      (wordSize : Int) ∣ x.address + u ∧ ∃ bytes, x.datum = .space bytes ∧ u + wordSize ≤ bytes := by
  obtain ⟨k, hk⟩ := h.ready.outer hd
  obtain ⟨s, hs, hs', -⟩ := hk.symbolOf? h.ready.resolved
  obtain ⟨n, hgen⟩ := h.code
  obtain ⟨c, c', hcode⟩ := datum_of_decls hgen hd hs
  obtain ⟨x, hmem, hlabel, hdatum, hdvd⟩ := Machine.exists_aligned hcode
  obtain ⟨hle, hdepth⟩ := hk.depth_le h.ready hx
  refine ⟨x, hmem, depth b xs, ?_, Machine.address?_eq h.labels hmem, ?_, s.size, hdatum, ?_⟩
  · rw [hlabel, hk.slot_eq h.ready.resolved]
  · exact Int.dvd_add hdvd (Int.natCast_dvd_natCast.2 hdepth)
  · simpa [sizeAt, hs'] using hle

/-- Outside all functions, an address does not depend on the frame. -/
theorem Compiled.outer_place (h : Compiled m o p b) (hd : Decl.var d ∈ p.decls)
    (hx : Leads p.decls d.type xs) (base base' : Int) :
    m.place? base (slot b d xs) = m.place? base' (slot b d xs) := by
  obtain ⟨x, -, u, hslot, -⟩ := h.outer_at hd hx
  rw [hslot]
  rfl

/-- The stack lies below the data. -/
theorem Compiled.dataStart_le (h : Compiled m o p b) (hd : Decl.var d ∈ p.decls)
    (hx : Leads p.decls d.type xs) {base : Int} (ha : m.place? base (slot b d xs) = some a) :
    m.dataStart ≤ a := by
  obtain ⟨x, hmem, u, hslot, haddr, -⟩ := h.outer_at hd hx
  simp only [hslot, Machine.place?, haddr, Option.map_some, Option.some.injEq] at ha
  have := Machine.dataStart_le hmem
  omega

theorem Frame.hasVariable (fr : Frame m p b) (h : Compiled m o p b)
    (hd : d ∈ fr.fn.variables) (hx : Leads p.decls d.type xs)
    (ha : m.place? fr.base (slot b d xs) = some a) : fr.HasVariable a := by
  obtain ⟨u, hslot, -, hvar⟩ := fr.variable_at h hd hx
  rw [hslot] at ha
  cases ha
  exact hvar

theorem Frame.le_of_hasVariable (fr : Frame m p b) (ha : fr.HasVariable a) :
    fr.low < a ∧ a ≤ m.stackStart := by
  have := fr.base_le
  simp only [Frame.HasVariable, Frame.low, savedSpace, wordSize] at *
  omega

/-- Words of different variables of a function lie at different addresses. -/
theorem variable_inj (h : Compiled m o p b) (hd : d ∈ fr.fn.variables)
    (hd' : d' ∈ fr.fn.variables) (hx : Leads p.decls d.type xs) (hx' : Leads p.decls d'.type xs')
    (ha : m.place? fr.base (slot b d xs) = some a)
    (ha' : m.place? fr.base (slot b d' xs') = some a) : d = d' ∧ xs = xs' := by
  obtain ⟨n, hn⟩ := h.ready.fnAt fr.mem
  obtain ⟨u, hslot, -⟩ := fr.variable_at h hd hx
  obtain ⟨u', hslot', -⟩ := fr.variable_at h hd' hx'
  refine slot_inj hn h.ready (.of_variable hd) (.of_variable hd') hx hx' ?_
  simp only [hslot, hslot', Machine.place?, Option.some.injEq] at ha ha'
  rw [hslot, hslot', Int.add_left_cancel (ha.trans ha'.symm)]

/-- So do words of different variables outside all functions. -/
theorem outer_inj (fr : Frame m p b) (h : Compiled m o p b) (hd : Decl.var d ∈ p.decls)
    (hd' : Decl.var d' ∈ p.decls) (hx : Leads p.decls d.type xs)
    (hx' : Leads p.decls d'.type xs') {base : Int} (ha : m.place? base (slot b d xs) = some a)
    (ha' : m.place? base (slot b d' xs') = some a) : d = d' ∧ xs = xs' := by
  obtain ⟨n, hn⟩ := h.ready.fnAt fr.mem
  obtain ⟨x, hmem, u, hslot, haddr, -, bytes, hdatum, hle⟩ := h.outer_at hd hx
  obtain ⟨x', hmem', u', hslot', haddr', -, bytes', hdatum', hle'⟩ := h.outer_at hd' hx'
  refine slot_inj hn h.ready (.outer hd) (.outer hd') hx hx' ?_
  simp only [hslot, hslot', Machine.place?, haddr, haddr', Option.map_some,
    Option.some.injEq] at ha ha'
  simp only [wordSize] at hle hle'
  obtain rfl | hlt | hlt := Machine.data_apart hmem hmem'
  · rw [hslot, hslot']
    congr 1
    omega
  · simp only [hdatum, Datum.size] at hlt
    omega
  · simp only [hdatum', Datum.size] at hlt
    omega

end

/-! ## What the memory holds -/

/-- The memory holds the variables outside all functions. -/
def OuterAgrees (m : Machine) (p : Program) (b : Annotations) (outer : Path → Option Atom)
    (mem : Int → Int) : Prop :=
  ∀ ⦃d xs a⦄, Decl.var d ∈ p.decls → Leads p.decls d.type xs →
    m.place? 0 (slot b d xs) = some a → mem a = ((outer ⟨d, xs⟩).map Atom.word).getD 0

/-- The memory holds the variables of a frame, as far as they have been assigned to. -/
def InnerAgrees {m : Machine} {p : Program} {b : Annotations} (fr : Frame m p b)
    (inner : Path → Option Atom) (mem : Int → Int) : Prop :=
  ∀ ⦃d xs a v⦄, d ∈ fr.fn.variables → Leads p.decls d.type xs →
    m.place? fr.base (slot b d xs) = some a → inner ⟨d, xs⟩ = some v → mem a = v.word

/-- The memory holds what the world says. -/
structure Agrees {m : Machine} {p : Program} {b : Annotations} (fr : Frame m p b) (w : World)
    (mem : Int → Int) : Prop where
  outer : OuterAgrees m p b w.outer mem
  inner : InnerAgrees fr w.inner mem

/-- A place of a function that is a word of a variable. -/
structure Target.Denotes (t : Target) (p : Program) (f : FnDecl) : Prop where
  root : if t.isOuter then Decl.var t.path.root ∈ p.decls else t.path.root ∈ f.variables
  leads : Leads p.decls t.path.root.type t.path.fields

section

variable {m : Machine} {o : Options} {p : Program} {b : Annotations} {fr : Frame m p b} {w : World}
  {mem mem' : Int → Int}

theorem OuterAgrees.congr {outer : Path → Option Atom} (ha : OuterAgrees m p b outer mem)
    (h : Compiled m o p b) (hm : ∀ a, m.dataStart ≤ a → mem' a = mem a) :
    OuterAgrees m p b outer mem' := by
  intro d xs a hd hx hp
  rw [hm a (h.dataStart_le hd hx hp)]
  exact ha hd hx hp

theorem InnerAgrees.congr {inner : Path → Option Atom} (ha : InnerAgrees fr inner mem)
    (h : Compiled m o p b) (hm : ∀ a, fr.HasVariable a → mem' a = mem a) :
    InnerAgrees fr inner mem' := by
  intro d xs a v hd hx hp hv
  rw [hm a (fr.hasVariable h hd hx hp)]
  exact ha hd hx hp hv

namespace Agrees

/-- What a load reads is what the variable holds. -/
theorem get (ha : Agrees fr w mem) (h : Compiled m o p b) {t : Target}
    (ht : t.Denotes p fr.fn) {a : Int}
    (hp : m.place? fr.base (slot b t.path.root t.path.fields) = some a) {s : Scalar} {v : Atom}
    (hv : t.get s w = some v) : mem a = v.word := by
  obtain ⟨hroot, hx⟩ := ht
  unfold Target.get at hv
  cases ho : t.isOuter with
  | true =>
    simp only [ho, if_true] at hroot hv
    rw [ha.outer hroot hx ((h.outer_place hroot hx 0 _).trans hp)]
    cases hw : w.outer t.path with
    | none =>
      rw [hw, Option.none_or] at hv
      simp [Atom.word_of_ofWord hv]
    | some u =>
      rw [hw, Option.some_or] at hv
      simp [Option.some.inj hv]
  | false =>
    simp only [ho, Bool.false_eq_true, if_false] at hroot hv
    exact ha.inner hroot hx hp hv

/-- An assignment of the program is a store of the machine. -/
theorem set (ha : Agrees fr w mem) (h : Compiled m o p b) {t : Target}
    (ht : t.Denotes p fr.fn) {a : Int}
    (hp : m.place? fr.base (slot b t.path.root t.path.fields) = some a) (v : Atom)
    (hself : mem' a = v.word) (hother : ∀ c, c ≠ a → mem' c = mem c) :
    Agrees fr (t.set v w) mem' := by
  obtain ⟨hroot, hx⟩ := ht
  have hapart := m.apart
  unfold Target.set
  cases ho : t.isOuter with
  | true =>
    simp only [ho, if_true] at hroot ⊢
    have hdata := h.dataStart_le hroot hx hp
    rw [h.outer_place hroot hx _ 0] at hp
    refine ⟨?_, ha.inner.congr h fun c hc => hother c ?_⟩
    · intro d xs c hd hx' hc
      by_cases hca : c = a
      · subst hca
        obtain ⟨rfl, rfl⟩ := outer_inj fr h hd hroot hx' hx hc hp
        simpa using hself
      · have hne : (⟨d, xs⟩ : Path) ≠ t.path := by
          rintro heq
          rw [← heq] at hp
          exact hca (Option.some.inj (hc.symm.trans hp))
        simp only [hne, if_false]
        rw [hother c hca]
        exact ha.outer hd hx' hc
    · have := fr.le_of_hasVariable hc
      simp only [wordSize] at hapart
      omega
  | false =>
    simp only [ho, Bool.false_eq_true, if_false] at hroot ⊢
    have hvar := fr.le_of_hasVariable (fr.hasVariable h hroot hx hp)
    refine ⟨ha.outer.congr h fun c hc => hother c ?_, ?_⟩
    · simp only [wordSize] at hapart
      omega
    · intro d xs c u hd hx' hc hu
      by_cases hca : c = a
      · subst hca
        obtain ⟨rfl, rfl⟩ := variable_inj h hd hroot hx' hx hc hp
        obtain rfl : v = u := by simpa using hu
        exact hself
      · have hne : (⟨d, xs⟩ : Path) ≠ t.path := by
          rintro heq
          rw [← heq] at hp
          exact hca (Option.some.inj (hc.symm.trans hp))
        rw [hother c hca]
        exact ha.inner hd hx' hc (by simpa [hne] using hu)

end Agrees

end

end FlatC
