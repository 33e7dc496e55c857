import FlatC.Proofs.Compile

/-!
# Where the words of variables are kept

A **path** is a variable and the fields that lead from it down to a word: `Leads ds t xs` says
that the fields `xs` do so from something of type `t`. `slot b d xs` is where the word at the
end is kept. A struct is a tiling of its bytes by its fields, so two paths from one variable end in
words that do not overlap (`Housed.depth_inj`); with the tiling of frames, so do any two
paths (`slots_disjoint`).
-/

namespace FlatC

open Binding Annotations Layout

/-- The fields lead from something of a type down to a word. -/
inductive Leads (ds : List Decl) : TypeSpec → List VarDecl → Prop where
  | word (s : Scalar) : Leads ds (.scalar s) []
  | field {name : Ident} {sd : StructDecl} {x : VarDecl} {xs : List VarDecl}
      (hsd : Decl.struct sd ∈ ds) (hname : sd.name.name = name.name) (hx : x ∈ sd.fields)
      (h : Leads ds x.type xs) : Leads ds (.struct name) (x :: xs)

/-- How far a field lies from the start of its struct. -/
def fieldDepth (b : Annotations) (x : VarDecl) : Nat :=
  ((b.symbolOf? x.name.id).map (·.fieldOffset.natAbs)).getD 0

/-- How far the end of a path lies from the start of the variable. -/
def depth (b : Annotations) (xs : List VarDecl) : Nat := (xs.map (fieldDepth b)).sum

theorem depth_cons (b : Annotations) (x : VarDecl) (xs : List VarDecl) :
    depth b (x :: xs) = fieldDepth b x + depth b xs := by
  simp [depth]

/-- Where the word at the end of a path is kept. -/
def slot (b : Annotations) (d : VarDecl) (xs : List VarDecl) : Location :=
  match b.symbolOf? d.name.id with
  | some s =>
    if s.isGlobal then .global (Label.global d.name.name) (depth b xs)
    else .frame (s.offset - depth b xs)
  | none => .frame (-depth b xs)

/-- The variable or field `d` has the symbol `k`, which is as large as it must be; `g` tells if
it is declared outside all functions. -/
structure Housed (p : Program) (b : Annotations) (g : Bool) (d : VarDecl) (k : Nat) : Prop where
  bound : ∃ env, VarBound env b g d k ∧ ∀ sd, Decl.struct sd ∈ env → Decl.struct sd ∈ p.decls
  fitted : ∃ base, base ≤ k ∧ b.Fitted base k

/-- The fields of a struct have the symbols from `n` on. -/
structure StructAt (p : Program) (b : Annotations) (sd : StructDecl) (n : Nat) : Prop where
  placed : b.StructPlaced n sd.fields.length
  fields : ∀ {i x}, sd.fields[i]? = some x → Housed p b false x (n + i)

/-- Each declaration of a program has its symbols at their places. -/
theorem Ready.decl {p : Program} {b : Annotations} (h : Ready p b) {d : Decl} (hd : d ∈ p.decls) :
    ∃ env n, DeclBound b env n d ∧ b.Placed n d ∧
      (∀ f, d = .fn f → ∃ s, b.symbol? n = some s ∧ f.Described s) ∧
      ∀ x ∈ env, x ∈ p.decls := by
  suffices ∀ ds env n, DeclsBound b env n ds → b.AllPlaced n ds → FnsDescribed b n ds →
      (∀ x ∈ env, x ∈ p.decls) → (∀ x ∈ ds, x ∈ p.decls) → d ∈ ds →
      ∃ env n, DeclBound b env n d ∧ b.Placed n d ∧
        (∀ f, d = .fn f → ∃ s, b.symbol? n = some s ∧ f.Described s) ∧ ∀ x ∈ env, x ∈ p.decls from
    this p.decls [] 0 h.resolved.bound h.placed h.resolved.described nofun (fun _ => id) hd
  intro ds
  induction ds with
  | nil => exact fun _ _ _ _ _ _ _ hd => nomatch hd
  | cons x ds ih =>
    intro env n hb hp hf henv hds hd
    obtain rfl | hd := List.mem_cons.1 hd
    · exact ⟨env, n, hb.1, hp.1, hf.1, henv⟩
    · refine ih (x :: env) _ hb.2 hp.2 hf.2 (fun y hy => ?_) (fun y hy => hds y (.tail _ hy)) hd
      obtain rfl | hy := List.mem_cons.1 hy
      · exact hds y (.head _)
      · exact henv y hy

/-- A name stands for one declaration of the program. -/
theorem Resolved.decl_unique {p : Program} {b : Annotations} (h : Resolved p b) {d d' : Decl}
    (hd : d ∈ p.decls) (hd' : d' ∈ p.decls) (hkey : d.key = d'.key) : d = d' :=
  List.inj_on_of_nodup_map h.nodup hd hd' hkey

namespace Housed

variable {p : Program} {b : Annotations} {g : Bool} {d : VarDecl} {k : Nat}

/-- The symbols of the fields of a struct. -/
theorem of_struct (hr : Ready p b) {sd : StructDecl} (hsd : Decl.struct sd ∈ p.decls) {k : Nat}
    (hl : b.Links sd.name.id k) : ∃ n, k = n + sd.fields.length ∧ StructAt p b sd n := by
  obtain ⟨env, n, ⟨hfields, hlink, -⟩, hplaced, -, henv⟩ := hr.decl hsd
  refine ⟨n, hr.resolved.unique hl hlink, hplaced,
    fun {i x} hx => ⟨?_, n, Nat.le_add_right n i, ?_⟩⟩
  · exact ⟨env, hfields.get hx, fun sd hsd => henv _ hsd⟩
  · exact hplaced.fitted i (List.getElem?_eq_some_iff.1 hx).1

/-- A variable is a word, or the fields of its struct lie side by side in it. -/
theorem cases (hr : Ready p b) (h : Housed p b g d k) :
    (∃ sc, d.type = .scalar sc ∧ b.sizeAt k = wordSize) ∨
      ∃ name sd n, d.type = .struct name ∧ Decl.struct sd ∈ p.decls ∧ sd.name.name = name.name ∧
        n + sd.fields.length < k ∧ b.sizeAt k = b.total n sd.fields.length ∧
        StructAt p b sd n := by
  obtain ⟨⟨env, ⟨-, s, hs, -, -, hty⟩, henv⟩, base, hbase, s', hs', hfit⟩ := h
  obtain rfl := Option.some.inj (hs.symm.trans hs')
  have hsize : b.sizeAt k = s.size := by simp [sizeAt, hs]
  cases ht : d.type with
  | scalar sc =>
    rw [ht] at hty
    simp only [Symbol.definition?, hty.2.1] at hfit
    exact .inl ⟨sc, rfl, hsize.trans hfit⟩
  | struct name =>
    rw [ht] at hty
    obtain ⟨sd, def', hmem, hname, hl, -, hkind, -⟩ := hty
    simp only [Symbol.definition?, hkind] at hfit
    obtain ⟨n, rfl, hat⟩ := of_struct hr (henv sd hmem) hl
    refine .inr ⟨name, sd, n, rfl, henv sd hmem, hname, ?_, ?_, hat⟩
    · exact Nat.lt_of_lt_of_le hfit.1 hbase
    · rw [hsize, hfit.2, hat.placed.size]

theorem symbolOf? (h : Housed p b g d k) (hr : Resolved p b) :
    ∃ s, b.symbolOf? d.name.id = some s ∧ b.symbol? k = some s ∧ s.isGlobal = g := by
  obtain ⟨_, ⟨hl, s, hs, -, hg, -⟩, -⟩ := h.bound
  exact ⟨s, (hr.symbolOf? hl).trans hs, hs, hg⟩

end Housed

/-- Sums of multiples of a word are such, too. -/
theorem Annotations.wordSize_dvd_total {b : Annotations} {n c : Nat}
    (h : ∀ i, i < c → wordSize ∣ b.sizeAt (n + i)) : wordSize ∣ b.total n c := by
  induction c with
  | zero => exact Nat.dvd_zero _
  | succ c ih => exact Nat.dvd_add (ih fun i hi => h i (by omega)) (h c (Nat.lt_succ_self c))

section

variable {p : Program} {b : Annotations} {g : Bool} (hr : Ready p b)

include hr

/-- Variables are whole words. The structs that a variable is made of have smaller numbers. -/
theorem Housed.wordSize_dvd {d : VarDecl} {k : Nat} (h : Housed p b g d k) :
    wordSize ∣ b.sizeAt k := by
  induction k using Nat.strongRecOn generalizing g d with
  | ind k ih =>
    obtain ⟨_, -, hsize⟩ | ⟨_, sd, n, -, -, -, hlt, hsize, hat⟩ := h.cases hr
    · exact hsize ▸ Nat.dvd_refl _
    · rw [hsize]
      refine wordSize_dvd_total fun i hi => ?_
      exact ih (n + i) (by omega) (hat.fields (List.getElem?_eq_getElem hi))

/-- A field lies behind those before it. -/
theorem StructAt.fieldDepth_eq {sd : StructDecl} {n i : Nat} (h : StructAt p b sd n)
    {x : VarDecl} (hi : sd.fields[i]? = some x) : fieldDepth b x = b.total n i := by
  obtain ⟨s, hs, hs', -⟩ := (h.fields hi).symbolOf? hr.resolved
  have hoffset := h.placed.offset i (List.getElem?_eq_some_iff.1 hi).1
  have : s.fieldOffset = -(b.total n i : Int) := by simpa [fieldOffsetAt, hs'] using hoffset
  simp [fieldDepth, hs, this]

/-- The first step of a path into a struct. -/
theorem StructAt.step {sd : StructDecl} {n : Nat} (h : StructAt p b sd n)
    (hsd : Decl.struct sd ∈ p.decls) {name : Ident} (hname : sd.name.name = name.name)
    {xs : List VarDecl} (hx : Leads p.decls (.struct name) xs) :
    ∃ x ys i, xs = x :: ys ∧ sd.fields[i]? = some x ∧ fieldDepth b x = b.total n i ∧
      Leads p.decls x.type ys := by
  cases hx with
  | field hsd' hname' hmem hrest =>
    obtain rfl := Decl.struct.inj (hr.resolved.decl_unique hsd hsd'
      (congrArg structKey (hname.trans hname'.symm)))
    obtain ⟨i, hi⟩ := List.getElem?_of_mem hmem
    exact ⟨_, _, i, rfl, hi, h.fieldDepth_eq hr hi, hrest⟩

/-- Where a path goes on with a field, the variable is made of the fields of one struct, and every
path from it goes on with one of them. -/
theorem Housed.into {d : VarDecl} {k : Nat} (h : Housed p b g d k) {x : VarDecl}
    {xs : List VarDecl} (hx : Leads p.decls d.type (x :: xs)) :
    ∃ sd n, StructAt p b sd n ∧ b.sizeAt k = b.total n sd.fields.length ∧
      ∀ {ys}, Leads p.decls d.type ys → ∃ y zs i, ys = y :: zs ∧ sd.fields[i]? = some y ∧
        fieldDepth b y = b.total n i ∧ Leads p.decls y.type zs := by
  obtain ⟨_, ht, -⟩ | ⟨name, sd, n, ht, hsd, hname, -, hsize, hat⟩ := h.cases hr
  · rw [ht] at hx
    cases hx
  · refine ⟨sd, n, hat, hsize, fun {ys} hy => ?_⟩
    rw [ht] at hy
    exact hat.step hr hsd hname hy

/-- Every part of a variable starts at a whole word. -/
theorem Housed.wordSize_dvd_depth {d : VarDecl} {k : Nat} (h : Housed p b g d k)
    {xs ys : List VarDecl} (hx : Leads p.decls d.type (xs ++ ys)) : wordSize ∣ depth b xs := by
  induction xs generalizing g d k with
  | nil => exact Nat.dvd_zero _
  | cons x xs ih =>
    rw [List.cons_append] at hx
    obtain ⟨sd, n, hat, -, hstep⟩ := h.into hr hx
    obtain ⟨_, _, i, ⟨⟩, hi, hdepth, hrest⟩ := hstep hx
    have hlt := (List.getElem?_eq_some_iff.1 hi).1
    rw [depth_cons, hdepth]
    refine Nat.dvd_add (wordSize_dvd_total fun j hj => ?_) (ih (hat.fields hi) hrest)
    exact (hat.fields (List.getElem?_eq_getElem (Nat.lt_trans hj hlt))).wordSize_dvd hr

/-- The word at the end of a path lies in the variable, at a whole word. -/
theorem Housed.depth_le {d : VarDecl} {k : Nat} (h : Housed p b g d k) {xs : List VarDecl}
    (hx : Leads p.decls d.type xs) :
    depth b xs + wordSize ≤ b.sizeAt k ∧ wordSize ∣ depth b xs := by
  refine ⟨?_, h.wordSize_dvd_depth hr (List.append_nil xs ▸ hx)⟩
  induction xs generalizing g d k with
  | nil =>
    obtain ⟨_, -, hsize⟩ | ⟨_, _, _, ht, -⟩ := h.cases hr
    · simp [depth, hsize]
    · rw [ht] at hx
      cases hx
  | cons x xs ih =>
    obtain ⟨sd, n, hat, hsize, hstep⟩ := h.into hr hx
    obtain ⟨_, _, i, ⟨⟩, hi, hdepth, hrest⟩ := hstep hx
    have hle := ih (hat.fields hi) hrest
    have := total_add_sizeAt_le (a := b) (n := n) (List.getElem?_eq_some_iff.1 hi).1
    rw [depth_cons, hdepth, hsize]
    omega

/-- Two paths from one variable do not end in the same word. -/
theorem Housed.depth_inj {d : VarDecl} {k : Nat} (h : Housed p b g d k) {xs ys : List VarDecl}
    (hx : Leads p.decls d.type xs) (hy : Leads p.decls d.type ys)
    (heq : depth b xs = depth b ys) : xs = ys := by
  induction xs generalizing g d k ys with
  | nil =>
    cases ht : d.type with
    | scalar sc =>
      rw [ht] at hy
      cases hy
      rfl
    | struct name =>
      rw [ht] at hx
      cases hx
  | cons x xs ih =>
    obtain ⟨sd, n, hat, -, hstep⟩ := h.into hr hx
    obtain ⟨_, _, i, ⟨⟩, hi, hdx, hrx⟩ := hstep hx
    obtain ⟨y, ys, j, rfl, hj, hdy, hry⟩ := hstep hy
    have hlx := ((hat.fields hi).depth_le hr hrx).1
    have hly := ((hat.fields hj).depth_le hr hry).1
    rw [depth_cons, depth_cons, hdx, hdy] at heq
    -- the fields tile the struct, so equal depths are in the same field
    obtain rfl : i = j := by
      rcases Nat.lt_trichotomy i j with hij | hij | hij
      · have := total_add_sizeAt_le (a := b) (n := n) hij
        simp only [wordSize] at hlx
        omega
      · exact hij
      · have := total_add_sizeAt_le (a := b) (n := n) hij
        simp only [wordSize] at hly
        omega
    obtain rfl := Option.some.inj (hi.symm.trans hj)
    rw [ih (hat.fields hi) hrx hry (Nat.add_left_cancel heq)]

/-- The fields of a path lie below the start of their structs, by their depth. -/
theorem Housed.fieldOffset {d : VarDecl} {k : Nat} (h : Housed p b g d k) {xs : List VarDecl}
    (hx : Leads p.decls d.type xs) :
    ∀ x ∈ xs, ∃ s, b.symbolOf? x.name.id = some s ∧ s.fieldOffset = -(fieldDepth b x : Int) := by
  induction xs generalizing g d k with
  | nil => exact nofun
  | cons x xs ih =>
    obtain ⟨sd, n, hat, -, hstep⟩ := h.into hr hx
    obtain ⟨_, _, i, ⟨⟩, hi, hdepth, hrest⟩ := hstep hx
    intro y hy
    obtain rfl | hy := List.mem_cons.1 hy
    · obtain ⟨s, hs, hs', -⟩ := (hat.fields hi).symbolOf? hr.resolved
      have hoffset := hat.placed.offset i (List.getElem?_eq_some_iff.1 hi).1
      refine ⟨s, hs, ?_⟩
      rw [hdepth, ← hoffset]
      simp [fieldOffsetAt, hs']
    · exact ih (hat.fields hi) hrest y hy

end

/-! ## Frames -/

/-- The parameters of a function have the symbols behind `n`, and its local variables those behind
them. -/
structure FnAt (p : Program) (b : Annotations) (f : FnDecl) (n : Nat) : Prop where
  link : b.Links f.name.id n
  placed : b.FramePlaced n f.params.length f.body.allDecls.length
  params : ∀ {i q}, f.params[i]? = some q → Housed p b false q.decl (n + 1 + i)
  inner : ∀ {i d}, f.body.allDecls[i]? = some d →
    Housed p b false d (n + 1 + f.params.length + i)

theorem Ready.fnAt {p : Program} {b : Annotations} (h : Ready p b) {f : FnDecl}
    (hf : Decl.fn f ∈ p.decls) : ∃ n, FnAt p b f n := by
  obtain ⟨env, n, ⟨hl, hparams, hbody⟩, hplaced, -, henv⟩ := h.decl hf
  have hmem : ∀ sd, Decl.struct sd ∈ Decl.fn f :: env → Decl.struct sd ∈ p.decls := by
    intro sd hsd
    exact henv _ (by simpa using hsd)
  refine ⟨n, hl, hplaced, fun {i q} hq => ⟨⟨_, hparams.get (i := i) ?_, hmem⟩, 0, by omega, ?_⟩,
    fun {i d} hd => ⟨⟨_, hbody.vars.get hd, ?_⟩, n, by omega, ?_⟩⟩
  · rw [List.getElem?_map, hq]
    rfl
  · exact hplaced.params i (List.getElem?_eq_some_iff.1 hq).1
  · exact fun sd hsd => hmem sd (mem_extend_struct.1 hsd)
  · exact hplaced.locals i (List.getElem?_eq_some_iff.1 hd).1

theorem Ready.housed_variable {p : Program} {b : Annotations} (hr : Ready p b) {f : FnDecl}
    (hf : Decl.fn f ∈ p.decls) {d : VarDecl} (hd : d ∈ f.variables) :
    ∃ k, Housed p b false d k := by
  obtain ⟨n, hn⟩ := hr.fnAt hf
  obtain hd | hd := List.mem_append.1 hd
  · obtain ⟨q, hq, rfl⟩ := List.mem_map.1 hd
    obtain ⟨i, hi⟩ := List.getElem?_of_mem hq
    exact ⟨_, hn.params hi⟩
  · obtain ⟨i, hi⟩ := List.getElem?_of_mem hd
    exact ⟨_, hn.inner hi⟩

/-- A variable of a function has the symbol `k` and takes the bytes from `u` on, counted down from
the frame pointer. -/
inductive Occupies (b : Annotations) (f : FnDecl) (n : Nat) : VarDecl → Nat → Nat → Prop where
  | param {i : Nat} {q : Param} (h : f.params[i]? = some q) :
      Occupies b f n q.decl (n + 1 + i) (wordSize * i)
  | inner {i : Nat} {d : VarDecl} (h : f.body.allDecls[i]? = some d) :
      Occupies b f n d (n + 1 + f.params.length + i)
        (wordSize * f.params.length + savedSpace + b.total (n + 1 + f.params.length) i)

namespace FnAt

variable {p : Program} {b : Annotations} {f : FnDecl} {n k k' u u' : Nat} {d d' : VarDecl}

theorem housed (h : FnAt p b f n) (hd : Occupies b f n d k u) : Housed p b false d k := by
  cases hd with
  | param hq => exact h.params hq
  | inner hd => exact h.inner hd

/-- Variables start at whole words. -/
theorem wordSize_dvd (h : FnAt p b f n) (hr : Ready p b) (hd : Occupies b f n d k u) :
    wordSize ∣ u := by
  cases hd with
  | param => exact Nat.dvd_mul_right _ _
  | @inner i _ hi =>
    have hlt := (List.getElem?_eq_some_iff.1 hi).1
    refine Nat.dvd_add (Nat.dvd_add (Nat.dvd_mul_right _ _) ⟨2, rfl⟩)
      (wordSize_dvd_total fun j hj => ?_)
    exact (h.inner (List.getElem?_eq_getElem (Nat.lt_trans hj hlt))).wordSize_dvd hr

theorem offset (h : FnAt p b f n) (hd : Occupies b f n d k u) : b.offsetAt k = -(u : Int) := by
  cases hd with
  | param hq => exact h.placed.paramOffset _ (List.getElem?_eq_some_iff.1 hq).1
  | inner hd => exact h.placed.localOffset _ (List.getElem?_eq_some_iff.1 hd).1

theorem sizeAt_param (h : FnAt p b f n) {i : Nat} {q : Param} (hq : f.params[i]? = some q) :
    b.sizeAt (n + 1 + i) = wordSize :=
  sizeAt_of_fitted_zero (h.placed.params i (List.getElem?_eq_some_iff.1 hq).1)

/-- A variable lies among the parameters or among the local variables. -/
theorem range (h : FnAt p b f n) (hd : Occupies b f n d k u) :
    u + b.sizeAt k ≤ wordSize * f.params.length ∨
      wordSize * f.params.length + savedSpace ≤ u ∧
        u + b.sizeAt k ≤ wordSize * f.params.length + savedSpace +
          b.total (n + 1 + f.params.length) f.body.allDecls.length := by
  cases hd with
  | param hq =>
    have hi := (List.getElem?_eq_some_iff.1 hq).1
    rw [h.sizeAt_param hq]
    simp only [wordSize]
    omega
  | inner hd =>
    have := total_add_sizeAt_le (a := b) (n := n + 1 + f.params.length)
      (List.getElem?_eq_some_iff.1 hd).1
    omega

/-- The variables of a function do not overlap. -/
theorem apart (h : FnAt p b f n) (hd : Occupies b f n d k u) (hd' : Occupies b f n d' k' u') :
    (d = d' ∧ k = k' ∧ u = u') ∨ u + b.sizeAt k ≤ u' ∨ u' + b.sizeAt k' ≤ u := by
  cases hd with
  | @param i q hq =>
    have hi := (List.getElem?_eq_some_iff.1 hq).1
    rw [h.sizeAt_param hq]
    cases hd' with
    | @param j q' hq' =>
      rw [h.sizeAt_param hq']
      rcases Nat.lt_trichotomy i j with hij | rfl | hij
      · simp only [wordSize]; omega
      · obtain rfl := Option.some.inj (hq.symm.trans hq')
        exact .inl ⟨rfl, rfl, rfl⟩
      · simp only [wordSize]; omega
    | inner hd' => simp only [wordSize]; omega
  | @inner i d hd =>
    cases hd' with
    | @param j q' hq' =>
      have hj := (List.getElem?_eq_some_iff.1 hq').1
      rw [h.sizeAt_param hq']
      simp only [wordSize]
      omega
    | @inner j d' hd' =>
      rcases Nat.lt_trichotomy i j with hij | rfl | hij
      · have := total_add_sizeAt_le (a := b) (n := n + 1 + f.params.length) hij
        omega
      · obtain rfl := Option.some.inj (hd.symm.trans hd')
        exact .inl ⟨rfl, rfl, rfl⟩
      · have := total_add_sizeAt_le (a := b) (n := n + 1 + f.params.length) hij
        omega

theorem slot_eq (h : FnAt p b f n) (hr : Resolved p b) (hd : Occupies b f n d k u)
    (xs : List VarDecl) : slot b d xs = .frame (-((u + depth b xs : Nat) : Int)) := by
  obtain ⟨s, hs, hs', hg⟩ := (h.housed hd).symbolOf? hr
  have hoffset : s.offset = -(u : Int) := by simpa [offsetAt, hs'] using h.offset hd
  simp only [slot, hs, hg, Bool.false_eq_true, if_false, Location.frame.injEq, hoffset]
  omega

end FnAt

end FlatC
